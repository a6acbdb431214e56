import Continuable.AnyPacks

/-!
The runs of an `any` connection.

The first resolution calls the downstream callback, in the middle of the dispatch or after it.
The dispatch goes on: a thread that calls `std::call_once` while the callback runs waits for a
thread that goes on without it, as long as the callback does not resolve members itself.
-/

namespace Continuable.Any

open Schedule CallOnce Packs Connection

section progress

variable {V E : Type} {n : ℕ} {s : State V E}

/-- A step in which no member resolves. -/
def Internal : Action V E → Prop
  | .resolve .. => False
  | _ => True

/-- The downstream callback does not resolve members. -/
def Quiet (n : ℕ) (schedule : List (Action V E)) : Prop :=
  Schedule.Allowed (step n) (fun s a => ¬ Reenters s a) init schedule

/-- What holds in the quiet runs. -/
structure QuietInv (n : ℕ) (s : State V E) : Prop where
  inv : Inv n s
  shallow : s.once.Shallow
  live : s.once.Live

lemma runAny_quietInv {schedule : List (Action V E)} (h : Quiet n schedule) :
    QuietInv n (runAny n schedule) := by
  refine run_preserves_of_allowed (I := QuietInv n) ?_
    ⟨init_inv n, fun u => Nat.zero_le 1, init_live⟩ schedule h
  intro s a hs hok
  refine ⟨step_inv hs.inv a, step_shallow a hs.shallow hok, ?_⟩
  cases a with
  | start =>
    simp only [step]
    split_ifs
    · exact hs.live
    · exact hs.live
  | resolve t i signal =>
    simp only [step]
    split_ifs with hmay
    · exact enter_live hs.live t signal
    · exact hs.live
  | leave t => exact leave_live hs.live t
  | wake t => exact wake_live hs.live t

lemma exists_return (h : QuietInv n s) :
    ∃ rest, (∀ a ∈ rest, Internal a) ∧ (run (step n) s rest).once.stack 0 = [] ∧
      (run (step n) s rest).started = s.started := by
  rcases exists_idle h.shallow h.live 0 with h0 | h0 | ⟨t, h0⟩
  · exact ⟨[], by simp, h0, rfl⟩
  · exact ⟨[.leave 0], by simp [Internal], h0, rfl⟩
  · exact ⟨[.leave t, .wake 0], by simp [Internal], h0, rfl⟩

lemma run_start (hstack : s.once.stack 0 = []) (k : ℕ) (hk : s.started + k ≤ n) :
    (run (step n) s (List.replicate k .start)).started = s.started + k := by
  induction k generalizing s with
  | zero => rfl
  | succ k ih =>
    have hstep : step n s .start = { s with started := s.started + 1 } :=
      if_pos ⟨by omega, hstack⟩
    have ih := ih (s := { s with started := s.started + 1 }) hstack (by simp only; omega)
    simp only at ih
    rw [List.replicate_succ, run_cons, hstep, ih]
    omega

/-- **The dispatch loop is never stuck**: whatever has resolved before, the threads that go on
bring it to its end. -/
theorem exists_completion (h : QuietInv n s) :
    ∃ rest, (∀ a ∈ rest, Internal a) ∧ (run (step n) s rest).started = n := by
  obtain ⟨rest, hinternal, hstack, hstarted⟩ := exists_return h
  have hle := h.inv.started_le
  refine ⟨rest ++ List.replicate (n - s.started) .start, ?_, ?_⟩
  · intro a ha
    rcases List.mem_append.1 ha with ha | ha
    · exact hinternal a ha
    · rw [(List.mem_replicate.1 ha).2]
      trivial
  · rw [run_append, run_start hstack _ (by omega), hstarted]
    omega

end progress

/-! ### What a run keeps -/

section growth

variable {V E : Type} {n : ℕ}

/-- What was started and resolved stays. -/
structure Extends (s s' : State V E) : Prop where
  started : s.started ≤ s'.started
  resolutions : s.resolutions <+: s'.resolutions

lemma run_extends (s : State V E) (schedule : List (Action V E)) :
    Extends s (run (step n) s schedule) := by
  refine run_preserves (I := Extends s) ?_ ⟨le_rfl, List.prefix_rfl⟩ schedule
  intro s' a h
  cases a with
  | start =>
    simp only [step]
    split_ifs
    · exact ⟨Nat.le_succ_of_le h.started, h.resolutions⟩
    · exact h
  | resolve t i signal =>
    simp only [step]
    split_ifs
    · exact ⟨h.started, h.resolutions.trans (List.prefix_append _ _)⟩
    · exact h
  | leave t => exact ⟨h.started, h.resolutions⟩
  | wake t => exact ⟨h.started, h.resolutions⟩

end growth

/-! ### The connection -/

section behaves

variable {V E α : Type}

/-- The members that the dispatch loop has started. -/
def startedOf (members : List α) (s : State V E) : List α := members.take s.started

/-- What a run of a connection of the members does. -/
structure Behaves (members : List α) (schedule : List (Action V E)) : Prop where
  /-- Members are started in order, and never again. -/
  starts : ∀ post, startedOf members (runAny members.length schedule) <+:
    startedOf members (runAny members.length (schedule ++ post))
  /-- Every member is started, whatever has resolved. -/
  completes : ∃ post, (∀ a ∈ post, Internal a) ∧
    startedOf members (runAny members.length (schedule ++ post)) = members
  /-- When the connection can do no more by itself, it has started every member. -/
  started : (∀ a, Internal a →
      step members.length (runAny members.length schedule) a = runAny members.length schedule) →
    startedOf members (runAny members.length schedule) = members
  /-- Only what was started resolves, and only once. -/
  resolves : ∀ r ∈ (runAny members.length schedule).resolutions,
    r.1 < (startedOf members (runAny members.length schedule)).length
  once : ((runAny members.length schedule).resolutions.map Prod.fst).Nodup
  /-- A member that may resolve and does has resolved. -/
  recorded : ∀ pre t i signal post, schedule = pre ++ .resolve t i signal :: post →
    MayResolve (runAny members.length pre) t i →
      (i, signal) ∈ (runAny members.length schedule).resolutions
  /-- The callback is called with the first resolution, and else not at all. -/
  calls : (runAny members.length schedule).once.calls =
    ((runAny members.length schedule).resolutions.head?.map Prod.snd).toList
  /-- Later resolutions have no effect. -/
  final : (runAny members.length schedule).resolutions ≠ [] → ∀ post,
    (runAny members.length (schedule ++ post)).once.calls =
      (runAny members.length schedule).once.calls

lemma head?_of_extends {s s' : State V E} (h : Extends s s') (hne : s.resolutions ≠ []) :
    s'.resolutions.head? = s.resolutions.head? := by
  obtain ⟨l, hl⟩ := h.resolutions
  obtain ⟨r, rest, hr⟩ := List.exists_cons_of_ne_nil hne
  rw [← hl, hr]
  rfl

lemma mem_resolutions {n : ℕ} (pre post : List (Action V E)) {t i : ℕ} {signal : Signal V E}
    (hmay : MayResolve (runAny n pre) t i) :
    (i, signal) ∈ (runAny n (pre ++ .resolve t i signal :: post)).resolutions := by
  rw [runAny, run_append, run_cons, ← runAny]
  refine (run_extends _ post).resolutions.subset ?_
  simp [step, hmay]

lemma behaves (members : List α) {schedule : List (Action V E)}
    (h : Quiet members.length schedule) : Behaves members schedule := by
  have hquiet := runAny_quietInv h
  have hrun : ∀ post, runAny members.length (schedule ++ post) =
      run (step members.length) (runAny members.length schedule) post :=
    fun post => run_append _ _ _ post
  have hextends : ∀ post, Extends (runAny members.length schedule)
      (runAny members.length (schedule ++ post)) := fun post => by
    rw [hrun]
    exact run_extends _ post
  obtain ⟨rest, hinternal, hstarted⟩ := exists_completion hquiet
  refine ⟨?_, ⟨rest, hinternal, ?_⟩, ?_, ?_, hquiet.inv.nodup, ?_, hquiet.inv.calls, ?_⟩
  · intro post
    exact List.take_prefix_take_left (hextends post).started
  · rw [startedOf, hrun, hstarted, List.take_length]
  · intro hstuck
    rw [run_of_fixed _ fun a ha => hstuck a (hinternal a ha)] at hstarted
    rw [startedOf, hstarted, List.take_length]
  · intro r hr
    rw [startedOf, List.length_take, Nat.min_eq_left hquiet.inv.started_le]
    exact hquiet.inv.members r hr
  · rintro pre t i signal post rfl hmay
    exact mem_resolutions pre post hmay
  · intro hne post
    rw [(runAny_inv members.length (schedule ++ post)).calls, hquiet.inv.calls,
      head?_of_extends (hextends post) hne]

end behaves

variable {P : Type} {D : P → Type} {R : List P → Type} [DecidableEq P] {V E : Type}

/-- **Any connections**: the continuables of the arguments are all started, and the callback is
called with what resolves first. -/
theorem connection_behaves (a : Arguments D R) (schedule : List (Action V E))
    (h : Quiet a.members.length schedule) :
    ∃ dispatched, connection (a.args.map Subtype.val) = some (a.hint, dispatched) ∧
      sources dispatched = a.members ∧ (∀ m ∈ a.members, m.1 = a.hint) ∧
      Behaves a.members schedule := by
  obtain ⟨dispatched, hconnection, hmembers, hhint⟩ := connection_eq a
  exact ⟨dispatched, hconnection, hmembers, hhint, behaves a.members h⟩

/-- A continuable without results as an argument. -/
def named (i : ℕ) : Argument (fun _ : Unit => Unit) (fun _ => ℕ) :=
  ⟨.leaf (.continuable []) (⟨i, false, false⟩ : Source ℕ), Pack.wellTyped_leaf _ _,
    by simp [Pack.ty, Ty.Allowed, isBox]⟩

/-- `when_any(c0, std::vector{c1, c2})`. -/
def threeMembers : Arguments (fun _ : Unit => Unit) (fun _ => ℕ) where
  args := [named 0, ⟨.container (.leaf (.continuable [])) [(named 1).1, (named 2).1], by
    simp only [Pack.WellTyped, List.forall_mem_cons]
    exact ⟨by simp [Ty.Allowed], ⟨rfl, (named 1).2.1⟩, ⟨rfl, (named 2).2.1⟩, by simp⟩,
    by simp [Pack.ty, Ty.Allowed, isBox]⟩]
  hint := []
  deduced := rfl

/-- The first member resolves while it is being started, the second one with an exception. -/
def resolvesEarly : List (Action ℕ ℕ) :=
  [.start, .resolve 0 0 (.value []), .leave 0, .start, .resolve 1 1 (.exception (some 7)), .start]

/-- The callback is called with what the first member resolved with. -/
theorem threeMembers_behaves :
    (∃ dispatched, connection (threeMembers.args.map Subtype.val) = some ([], dispatched) ∧
      sources dispatched = threeMembers.members ∧ (∀ m ∈ threeMembers.members, m.1 = []) ∧
      Behaves threeMembers.members resolvesEarly) ∧
    (runAny threeMembers.members.length resolvesEarly).once.calls = [.value []] :=
  ⟨connection_behaves threeMembers resolvesEarly (by unfold Quiet; decide), by decide⟩

end Continuable.Any
