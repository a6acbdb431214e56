import Continuable.AnyConnection

/-!
Handlers that reach back into the connection that runs them.

The downstream callback of an `all` connection runs inside of `std::call_once` as well, but
only exceptions go there directly: a member that resolves with values just counts down, and
nothing is left to count down to zero while the callback runs.
-/

namespace Continuable.Reentry

open Schedule CallOnce

/-- What the callback of an `all` connection is called with. -/
inductive Call (E : Type)
  | values
  | exception (exception : Option E)
  deriving DecidableEq

/-- The state of an `all` connection with the call stacks of the threads. Accesses of the
counter within one call of `complete_one` are taken together. -/
structure State (V E : Type) where
  started : ℕ
  accepted : Bool
  resolution : ℕ → Option (Signal V E)
  left : ℕ
  once : Once (Call E)

inductive Action (V E : Type)
  | start
  | accept
  | resolve (t i : ℕ) (signal : Signal V E)
  | leave (t : ℕ)
  | wake (t : ℕ)

variable {V E : Type}

def init : State V E := ⟨0, false, fun _ => none, 1, Once.init⟩

/-- `complete_one` on a thread. -/
def completeOne (s : State V E) (t : ℕ) : State V E :=
  let s := { s with left := s.left - 1 }
  if s.left = 0 then { s with once := s.once.enter t .values } else s

/-- `partial_all_callback` on a thread. -/
def partialAllCallback (s : State V E) (t : ℕ) : Signal V E → State V E
  | .value _ => completeOne s t
  | .exception e => { s with once := s.once.enter t (.exception e) }

/-- A member that was started may resolve once, on a thread that does not wait. -/
def MayResolve (s : State V E) (t i : ℕ) : Prop :=
  i < s.started ∧ s.resolution i = none ∧ s.once.Free t

instance (s : State V E) (t i : ℕ) : Decidable (MayResolve s t i) :=
  haveI : Decidable (s.resolution i = none) := decidable_of_iff _ Option.isNone_iff_eq_none
  inferInstanceAs (Decidable (_ ∧ _ ∧ _))

/-- A step of a connection of `n` members. The dispatch loop runs on thread zero, beneath
everything else on the stack of that thread. -/
def step (n : ℕ) (s : State V E) : Action V E → State V E
  | .start =>
    if s.started < n ∧ s.accepted = false ∧ s.once.stack 0 = [] then
      { s with started := s.started + 1, left := s.left + 1 }
    else s
  | .accept =>
    if s.started = n ∧ s.accepted = false ∧ s.once.stack 0 = [] then
      completeOne { s with accepted := true } 0
    else s
  | .resolve t i signal =>
    if MayResolve s t i then
      partialAllCallback { s with resolution := Function.update s.resolution i (some signal) }
        t signal
    else s
  | .leave t => { s with once := s.once.leave t }
  | .wake t => { s with once := s.once.wake t }

def runAll (n : ℕ) (schedule : List (Action V E)) : State V E := run (step n) init schedule

/-- A member is resolved with an exception from inside of the downstream callback. -/
def Reenters (s : State V E) : Action V E → Prop
  | .resolve t i (.exception _) => MayResolve s t i ∧ s.once.Inside t
  | _ => False

/-- The callback of the member has not counted down. -/
def outstanding : Option (Signal V E) → Bool
  | some (.value _) => false
  | _ => true

section invariant

variable {n : ℕ} {s : State V E}

structure Inv (n : ℕ) (s : State V E) : Prop where
  accepted : s.accepted = true → s.started = n
  started_le : s.started ≤ n
  left_eq : s.left = tally (Finset.range s.started) s.resolution outstanding +
    if s.accepted then 0 else 1
  resolved : ∀ i, s.resolution i ≠ none → i < s.started
  once : s.once.Inv
  /-- The callback was called for an exception, or because nothing was left. -/
  called : s.once.calls ≠ [] →
    s.left = 0 ∨ ∃ i e, s.resolution i = some (.exception e)

lemma init_inv (n : ℕ) : Inv n (init : State V E) := by
  refine ⟨by simp [init], Nat.zero_le n, ?_, by simp [init], CallOnce.init_inv, by simp [init,
    Once.init]⟩
  rfl

lemma resolve_exception_inv (h : Inv n s) {t i : ℕ} (hmay : MayResolve s t i) (e : Option E) :
    Inv n (partialAllCallback
      { s with resolution := Function.update s.resolution i (some (.exception e)) } t
      (.exception e)) := by
  obtain ⟨hi, hnone, -⟩ := hmay
  refine ⟨h.accepted, h.started_le, ?_, fun j hj => ?_, enter_inv h.once t _, fun _ => ?_⟩
  · simp only [partialAllCallback]
    rw [tally_update (by rw [hnone]; rfl)]
    exact h.left_eq
  · by_cases hji : j = i
    · subst hji; exact hi
    · simp only [partialAllCallback, Function.update_of_ne hji] at hj
      exact h.resolved j hj
  · exact Or.inr ⟨i, e, by simp [partialAllCallback]⟩

/-- Counting down: with nothing left, every member resolved with values. -/
lemma completeOne_inv {t left : ℕ} (hleft : s.left = left + 1)
    (hcount : left = tally (Finset.range s.started) s.resolution outstanding +
      if s.accepted then 0 else 1)
    (haccepted : s.accepted = true → s.started = n) (hle : s.started ≤ n)
    (hresolved : ∀ i, s.resolution i ≠ none → i < s.started) (honce : s.once.Inv)
    (hcalled : s.once.calls ≠ [] → ∃ i e, s.resolution i = some (.exception e)) :
    Inv n (completeOne s t) := by
  have hsub : s.left - 1 = left := by omega
  unfold completeOne
  simp only [hsub]
  split_ifs with hz
  · exact ⟨haccepted, hle, hcount, hresolved, enter_inv honce t _, fun _ => Or.inl hz⟩
  · exact ⟨haccepted, hle, hcount, hresolved, honce, fun hc => Or.inr (hcalled hc)⟩

lemma resolve_value_inv (h : Inv n s) {t i : ℕ} (hmay : MayResolve s t i) (vs : List V) :
    Inv n (partialAllCallback
      { s with resolution := Function.update s.resolution i (some (.value vs)) } t
      (.value vs)) := by
  obtain ⟨hi, hnone, -⟩ := hmay
  have hmem : i ∈ Finset.range s.started := Finset.mem_range.2 hi
  have hcount := tally_update_of_leaves (b := some (.value vs)) hmem
    (show outstanding (s.resolution i) = true by rw [hnone]; rfl) rfl
  have hleft := h.left_eq
  have hpos : s.left = s.left - 1 + 1 := by omega
  refine completeOne_inv hpos ?_ h.accepted h.started_le ?_ h.once ?_
  · simp only
    omega
  · intro j hj
    by_cases hji : j = i
    · subst hji; exact hi
    · simp only [Function.update_of_ne hji] at hj
      exact h.resolved j hj
  · intro hc
    rcases h.called hc with hz | ⟨j, e, hj⟩
    · omega
    · have hji : j ≠ i := by rintro rfl; rw [hnone] at hj; cases hj
      exact ⟨j, e, by simp only [Function.update_of_ne hji, hj]⟩

theorem step_inv (h : Inv n s) (a : Action V E) : Inv n (step n s a) := by
  cases a with
  | start =>
    simp only [step]
    split_ifs with hg
    · obtain ⟨hlt, hacc, -⟩ := hg
      have hnone : s.resolution s.started = none := by
        by_contra hne
        exact absurd (h.resolved _ hne) (Nat.lt_irrefl _)
      have hcount := tally_insert (Finset.notMem_range_self (n := s.started))
        (show outstanding (s.resolution s.started) = true by rw [hnone]; rfl)
      refine ⟨fun ha => absurd ha (by simp [hacc]), hlt, ?_,
        fun i hi => Nat.lt_succ_of_lt (h.resolved i hi), h.once, fun hc => ?_⟩
      · simp only
        rw [Finset.range_add_one, hcount]
        have := h.left_eq
        omega
      · rcases h.called hc with hz | hex
        · have := h.left_eq
          simp only [hacc, Bool.false_eq_true, if_false] at this
          omega
        · exact Or.inr hex
    · exact h
  | accept =>
    simp only [step]
    split_ifs with hg
    · obtain ⟨heq, hacc, -⟩ := hg
      have hleft := h.left_eq
      simp only [hacc, Bool.false_eq_true, if_false] at hleft
      have hpos : s.left = s.left - 1 + 1 := by omega
      refine completeOne_inv hpos ?_ (fun _ => heq) h.started_le h.resolved h.once fun hc => ?_
      · simp only [if_true]
        omega
      · rcases h.called hc with hz | hex
        · omega
        · exact hex
    · exact h
  | resolve t i signal =>
    simp only [step]
    split_ifs with hmay
    · cases signal with
      | value vs => exact resolve_value_inv h hmay vs
      | exception e => exact resolve_exception_inv h hmay e
    · exact h
  | leave t =>
    exact ⟨h.accepted, h.started_le, h.left_eq, h.resolved, leave_inv h.once t,
      fun hc => h.called fun hn => hc ((leave_calls _ t).trans hn)⟩
  | wake t =>
    exact ⟨h.accepted, h.started_le, h.left_eq, h.resolved, wake_inv h.once t,
      fun hc => h.called fun hn => hc ((wake_calls _ t).trans hn)⟩

theorem runAll_inv (n : ℕ) (schedule : List (Action V E)) : Inv n (runAll n schedule) :=
  run_preserves (I := Inv n) (fun _ a h => step_inv h a) (init_inv n) schedule

end invariant

/-! ### Re-entry -/

lemma completeOne_shallow {s : State V E} {t : ℕ} (h : s.once.Shallow) (hfree : s.once.Free t)
    (hin : s.left - 1 = 0 → ¬ s.once.Inside t) : (completeOne s t).once.Shallow := by
  unfold completeOne
  simp only
  split_ifs with hz
  · exact enter_shallow h hfree (hin hz) _
  · exact h

/-- A member that resolves with values from inside of the downstream callback is not the last
one to count down. -/
lemma left_ne_one_of_inside {n : ℕ} {s : State V E} (h : Inv n s) {t i : ℕ}
    (hmay : MayResolve s t i) (hin : s.once.Inside t) : s.left - 1 ≠ 0 := by
  obtain ⟨hi, hnone, -⟩ := hmay
  have hleft := h.left_eq
  have hpos : 0 < tally (Finset.range s.started) s.resolution outstanding :=
    tally_pos (Finset.mem_range.2 hi) (by rw [hnone]; rfl)
  rcases h.called (h.once.calls_ne_nil hin) with hz | ⟨j, e, hj⟩
  · omega
  · -- the member that raised an exception is counted besides the one that resolves
    have hj' : j < s.started := h.resolved j (by rw [hj]; simp)
    have hcount := tally_update_of_leaves (b := some (.value [])) (Finset.mem_range.2 hi)
      (show outstanding (s.resolution i) = true by rw [hnone]; rfl) rfl
    have hji : j ≠ i := by rintro rfl; rw [hnone] at hj; cases hj
    have hpos' : 0 < tally (Finset.range s.started)
        (Function.update s.resolution i (some (.value []))) outstanding :=
      tally_pos (Finset.mem_range.2 hj') (by rw [Function.update_of_ne hji, hj]; rfl)
    omega

lemma step_shallow {n : ℕ} {s : State V E} (a : Action V E) (hinv : Inv n s)
    (h : s.once.Shallow) (hok : ¬ Reenters s a) : (step n s a).once.Shallow := by
  cases a with
  | start =>
    simp only [step]
    split_ifs
    · exact h
    · exact h
  | accept =>
    simp only [step]
    split_ifs with hg
    · obtain ⟨-, -, hnil⟩ := hg
      refine completeOne_shallow h ?_ fun _ hin => ?_
      · simp [Once.Free, hnil]
      · simp [Once.Inside, hnil] at hin
    · exact h
  | resolve t i signal =>
    simp only [step]
    split_ifs with hmay
    · cases signal with
      | value vs =>
        exact completeOne_shallow h hmay.2.2
          fun hz hin => left_ne_one_of_inside hinv hmay hin hz
      | exception e => exact enter_shallow h hmay.2.2 (fun hin => hok ⟨hmay, hin⟩) _
    · exact h
  | leave t => exact leave_shallow h t
  | wake t => exact wake_shallow h t

/-- **An `all` connection and its own handler**: no thread comes to wait for itself if and only
if no member is resolved with an exception from inside of the downstream callback. -/
lemma not_selfWaits_iff (n : ℕ) (schedule : List (Action V E)) :
    (∀ pre post, schedule = pre ++ post → ∀ t, ¬ (runAll n pre).once.SelfWaits t) ↔
      Allowed (step n) (fun s a => ¬ Reenters s a) init schedule := by
  have hbad : ∀ (s : State V E) a, Inv n s → ¬ ¬ Reenters s a →
      ∃ t, (step n s a).once.SelfWaits t := by
    intro s a hinv hre
    match a, not_not.1 hre with
    | .resolve t i (.exception e), ⟨hmay, hin⟩ =>
      simp only [step, if_pos hmay]
      exact ⟨t, enter_selfWaits hinv.once hin _⟩
  have hiff := avoids_iff_allowed (J := fun s => s.once.Shallow) (fun _ a h => step_inv h a)
    (fun _ a hinv h hok => step_shallow a hinv h hok)
    (fun _ h => not_exists.2 (not_selfWaits_of_shallow h)) hbad (init_inv n)
    (fun _ => Nat.zero_le 1) schedule
  simp only [not_exists] at hiff
  exact hiff

/-- **Connections and their own handlers**: the downstream callback is called at most once in
every run; no thread of an `any` connection comes to wait for itself if and only if no member is
resolved from inside of the callback, and no thread of an `all` connection does if and only if
no member is resolved with an exception from there. -/
theorem connections_not_selfWaits_iff (V E : Type) (n : ℕ) :
    (∀ schedule : List (Any.Action V E),
      (Any.runAny n schedule).once.calls.length ≤ 1 ∧
        ((∀ pre post, schedule = pre ++ post → ∀ t, ¬ (Any.runAny n pre).once.SelfWaits t) ↔
          Allowed (Any.step n) (fun s a => ¬ Any.Reenters s a) Any.init schedule)) ∧
    (∀ schedule : List (Action V E),
      (runAll n schedule).once.calls.length ≤ 1 ∧
        ((∀ pre post, schedule = pre ++ post → ∀ t, ¬ (runAll n pre).once.SelfWaits t) ↔
          Allowed (step n) (fun s a => ¬ Reenters s a) init schedule)) :=
  ⟨fun schedule => ⟨(Any.runAny_inv n schedule).once.calls_le, Any.not_selfWaits_iff n schedule⟩,
    fun schedule => ⟨(runAll_inv n schedule).once.calls_le, not_selfWaits_iff n schedule⟩⟩

/-- The handler of a connection of two members cancels the other member: both kinds of
connection wait for themselves. -/
theorem connections_cancel_selfWaits :
    (Any.runAny 2 [.start, .start, .resolve 1 0 (.value [5]), .resolve 1 1 (.exception none)] :
        Any.State ℕ ℕ).once.SelfWaits 1 ∧
      (runAll 2 [.start, .start, .accept, .resolve 1 0 (.exception (some 7)),
        .resolve 1 1 (.exception none)] : State ℕ ℕ).once.SelfWaits 1 :=
  ⟨⟨[], [.running], by decide, by decide⟩, ⟨[], [.running], by decide, by decide⟩⟩

end Continuable.Reentry
