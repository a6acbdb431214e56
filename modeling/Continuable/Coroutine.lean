import Continuable.AwaitableRuns
import Continuable.Schedule

/-!
Coroutines that return a continuable.

The body of a coroutine runs up to the next await, to its end or out of an exception; what it does
depends on what its awaits have returned or thrown so far. Every await has an awaitable of its own,
and what is left of the earlier ones may still run beside it.
-/

namespace Continuable.Await

open Schedule

variable {V E : Type}

/-- What the body comes to next. A continuable that is awaited may be ready. -/
inductive Instruction (V E : Type)
  | await (source : Option (Signal V (Thrown E)))
  | ret (vs : List V)
  | escape (x : Thrown E)

abbrev Coroutine (V E : Type) := List (Resumed V E) → Instruction V E

/-- `promise_type::unhandled_exception`. -/
def unhandledException : Thrown E → Signal V (Thrown E)
  | .awaitCanceled => .exception none
  | .other e => .exception (some (.other e))

/-- A coroutine with the awaitables of its awaits, and what its promise was resolved with. -/
structure State (V E : Type) where
  invoked : Bool
  history : List (Resumed V E)
  awaits : List (Awaitable V E)
  promised : List (Signal V (Thrown E))

inductive Action (V E : Type)
  | invoke
  | awaiter (k : ℕ)
  | call (k : ℕ) (signal : Signal V (Thrown E))
  | resolver (k : ℕ)

/-- `get_return_object` made the coroutine, which is suspended at its start. -/
def init : State V E := ⟨false, [], [], []⟩

/-- The body runs on. `return_value` and `unhandled_exception` resolve the promise. -/
def proceed (c : Coroutine V E) (s : State V E) : State V E :=
  match c s.history with
  | .await source => { s with awaits := s.awaits ++ [.construct source] }
  | .ret vs => { s with promised := s.promised ++ [.value vs] }
  | .escape x => { s with promised := s.promised ++ [unhandledException x] }

/-- A step of an awaitable, which may continue the coroutine. -/
def act (c : Coroutine V E) (s : State V E) (k : ℕ)
    (f : Awaitable V E → Awaitable V E × Option (Resumed V E)) : State V E :=
  match s.awaits[k]? with
  | none => s
  | some a =>
    let s := { s with awaits := s.awaits.set k (f a).1 }
    match (f a).2 with
    | none => s
    | some r => proceed c { s with history := s.history ++ [r] }

def step (c : Coroutine V E) (s : State V E) : Action V E → State V E
  | .invoke => if s.invoked then s else proceed c { s with invoked := true }
  | .awaiter k => act c s k Awaitable.awaiterStep
  | .call k signal => act c s k fun a => a.call signal
  | .resolver k => act c s k Awaitable.resolverStep

/-- Every run of a coroutine, the continuables that it awaits and the threads that resolve
them. -/
def runCoroutine (c : Coroutine V E) (schedule : List (Action V E)) : State V E :=
  run (step c) init schedule

/-! ### The invariant -/

/-- What the promise of a coroutine is resolved with. -/
def resolution : Instruction V E → Option (Signal V (Thrown E))
  | .await _ => none
  | .ret vs => some (.value vs)
  | .escape x => some (unhandledException x)

/-- The number of awaits that the body came to. -/
def begun (c : Coroutine V E) (history : List (Resumed V E)) : ℕ :=
  match c history with
  | .await _ => history.length + 1
  | .ret _ | .escape _ => history.length

/-- The awaitable of an await of the body: its coroutine was continued with what the body goes on
with. -/
def Tracks (c : Coroutine V E) (history : List (Resumed V E)) (k : ℕ) (a : Awaitable V E) : Prop :=
  ∃ source, c (history.take k) = .await source ∧ a.Inv source ∧
    (resumptions a.log).map Prod.snd = history[k]?.toList

structure Inv (c : Coroutine V E) (s : State V E) : Prop where
  idle : s.invoked = false → s = init
  length : s.invoked = true → s.awaits.length = begun c s.history
  awaits : ∀ k a, s.awaits[k]? = some a → Tracks c s.history k a
  promised : s.invoked = true → s.promised = (resolution (c s.history)).toList

section invariant

variable {c : Coroutine V E} {s : State V E}

lemma init_inv (c : Coroutine V E) : Inv c (init : State V E) :=
  ⟨fun _ => rfl, fun h => absurd h (by simp [init]), by simp [init],
    fun h => absurd h (by simp [init])⟩

lemma proceed_inv (hinvoked : s.invoked = true) (hlength : s.awaits.length = s.history.length)
    (hawaits : ∀ k a, s.awaits[k]? = some a → Tracks c s.history k a)
    (hpromised : s.promised = []) :
    Inv c (proceed c s) := by
  unfold proceed
  cases hc : c s.history with
  | ret vs =>
    refine ⟨fun h => ?_, fun _ => ?_, hawaits, fun _ => ?_⟩
    · simp [hinvoked] at h
    · simpa only [begun, hc] using hlength
    · simp [hpromised, hc, resolution]
  | escape x =>
    refine ⟨fun h => ?_, fun _ => ?_, hawaits, fun _ => ?_⟩
    · simp [hinvoked] at h
    · simpa only [begun, hc] using hlength
    · simp [hpromised, hc, resolution]
  | await source =>
    refine ⟨fun h => ?_, fun _ => ?_, fun k a ha => ?_, fun _ => ?_⟩
    · simp [hinvoked] at h
    · simp [begun, hc, hlength]
    · rw [List.getElem?_append] at ha
      split_ifs at ha with hk
      · exact hawaits k a ha
      · -- the awaitable that is constructed
        obtain ⟨rfl, rfl⟩ : k = s.history.length ∧ Awaitable.construct source = a := by
          rw [List.getElem?_singleton] at ha
          split_ifs at ha with hz
          exact ⟨by omega, Option.some.inj ha⟩
        refine ⟨source, by rw [List.take_length, hc], Awaitable.construct_inv source, ?_⟩
        rw [List.getElem?_eq_none (Nat.le_refl _)]
        cases source <;> rfl
    · simp [hpromised, hc, resolution]

lemma begun_le (c : Coroutine V E) (history : List (Resumed V E)) :
    begun c history ≤ history.length + 1 := by
  unfold begun
  split <;> omega

lemma tracks_append {history : List (Resumed V E)} {k : ℕ} {a : Awaitable V E}
    (h : Tracks c history k a) (hk : k < history.length) (r : Resumed V E) :
    Tracks c (history ++ [r]) k a := by
  obtain ⟨source, hsource, hinv, hres⟩ := h
  refine ⟨source, ?_, hinv, ?_⟩
  · rw [List.take_append_of_le_length (Nat.le_of_lt hk), hsource]
  · rw [hres, List.getElem?_append_left hk]

lemma act_inv (h : Inv c s) (k : ℕ) {f : Awaitable V E → Awaitable V E × Option (Resumed V E)}
    (hf : ∀ source a, Awaitable.Inv source a → Awaitable.Steps source a (f a)) :
    Inv c (act c s k f) := by
  unfold act
  cases ha : s.awaits[k]? with
  | none => exact h
  | some a =>
    obtain ⟨source, hsource, hinv, hres⟩ := h.awaits k a ha
    obtain ⟨hinv', hres'⟩ := hf source a hinv
    obtain ⟨hk, -⟩ := List.getElem?_eq_some_iff.1 ha
    have hinvoked : s.invoked = true := by
      by_contra hidle
      rw [h.idle (eq_false_of_ne_true hidle)] at hk
      cases hk
    have hlength := h.length hinvoked
    have hset : ∀ j b, (s.awaits.set k (f a).1)[j]? = some b →
        (j = k ∧ b = (f a).1) ∨ (j ≠ k ∧ s.awaits[j]? = some b) := by
      intro j b hb
      rw [List.getElem?_set] at hb
      split_ifs at hb with hj
      · exact .inl ⟨hj.symm, (Option.some.inj hb).symm⟩
      · exact .inr ⟨Ne.symm hj, hb⟩
    rw [hres] at hres'
    cases hr : (f a).2 with
    | none =>
      simp only [hr]
      refine ⟨fun hidle => absurd (hinvoked.symm.trans hidle) (by simp),
        fun _ => by simpa using hlength, fun j b hb => ?_, h.promised⟩
      rcases hset j b hb with ⟨rfl, rfl⟩ | ⟨-, hb⟩
      · exact ⟨source, hsource, hinv', by rw [hres', hr]; exact List.append_nil _⟩
      · exact h.awaits j b hb
    | some r =>
      -- the await is the last one: an earlier one would be resumed twice
      rw [hr] at hres'
      have honce := hinv'.length_resumptions
      rw [← List.length_map (f := Prod.snd), hres'] at honce
      have hlast : s.history.length ≤ k := by
        by_contra hlt
        rw [List.getElem?_eq_getElem (by omega)] at honce
        simp at honce
      have hbegun := begun_le c s.history
      obtain rfl : k = s.history.length := by omega
      have hpromised := h.promised hinvoked
      rw [List.take_length] at hsource
      rw [hsource] at hpromised
      simp only [hr]
      refine proceed_inv hinvoked ?_ (fun j b hb => ?_) hpromised
      · simp only [List.length_set, List.length_append, List.length_singleton]
        omega
      · rcases hset j b hb with ⟨rfl, rfl⟩ | ⟨hj, hb⟩
        · refine ⟨source, by simpa using hsource, hinv', ?_⟩
          rw [hres', List.getElem?_eq_none (Nat.le_refl _)]
          simp
        · obtain ⟨hlt, -⟩ := List.getElem?_eq_some_iff.1 hb
          exact tracks_append (h.awaits j b hb) (by omega) r

theorem step_inv (h : Inv c s) (a : Action V E) : Inv c (step c s a) := by
  cases a with
  | awaiter k => exact act_inv h k fun source a ha => Awaitable.awaiterStep_steps ha
  | call k signal => exact act_inv h k fun source a ha => Awaitable.call_steps ha signal
  | resolver k => exact act_inv h k fun source a ha => Awaitable.resolverStep_steps ha
  | invoke =>
    rw [step]
    split_ifs with hinvoked
    · exact h
    · obtain rfl := h.idle (eq_false_of_ne_true hinvoked)
      exact proceed_inv rfl rfl (by simp [init]) rfl

theorem runCoroutine_inv (c : Coroutine V E) (schedule : List (Action V E)) :
    Inv c (runCoroutine c schedule) :=
  run_preserves (I := Inv c) (fun _ a h => step_inv h a) (init_inv c) schedule

end invariant

/-! ### What a coroutine does -/

/-- An await of a continuable: the coroutine is continued at most once, with what the continuable
was resolved with and after the result was stored; a side that handed over the right to resume,
and everyone once the coroutine went on, leaves the awaitable alone. -/
structure Awaitable.Behaves (source : Option (Signal V (Thrown E))) (a : Awaitable V E) : Prop where
  once : (resumptions a.log).length ≤ 1
  stored : ∀ before way r after, a.log = before ++ .resumed way r :: after →
    ∃ signal, storedSignals before = [signal] ∧ r = resumedWith signal ∧
      Continued source signal a.log way
  ordered : a.log.Pairwise Ordered
  sound : .violated ∉ a.log

/-- The coroutine went on from each of its awaits once, with what the continuable was resolved
with: it is neither continued twice nor left behind when the sides of the await are through. Its
promise is resolved once, when the body is through. -/
structure Behaves (c : Coroutine V E) (s : State V E) : Prop where
  length : s.invoked = true → s.awaits.length = begun c s.history
  awaits : ∀ k a, s.awaits[k]? = some a → ∃ source, c (s.history.take k) = .await source ∧
    a.Behaves source ∧ (resumptions a.log).map Prod.snd = s.history[k]?.toList
  continued : ∀ k < s.awaits.length, step c s (.awaiter k) = s → step c s (.resolver k) = s →
    (∀ signal, step c s (.call k signal) = s) → k < s.history.length
  promised : s.promised = if s.invoked then (resolution (c s.history)).toList else []
  settled : (∀ a, step c s a = s) → ∃ signal, s.promised = [signal]

lemma Awaitable.Inv.behaves {source : Option (Signal V (Thrown E))} {a : Awaitable V E}
    (h : a.Inv source) : a.Behaves source := by
  refine ⟨h.length_resumptions, fun before way r after hlog => ?_, h.ordered, h.sound⟩
  have hmem : (way, r) ∈ resumptions a.log :=
    List.mem_filterMap.2 ⟨.resumed way r, by rw [hlog]; simp, rfl⟩
  obtain ⟨signal, hstored, hr, hway⟩ := h.stage.of_resumption hmem
  refine ⟨signal, ?_, hr, hway⟩
  have hafter : storedSignals after = [] := by
    have hordered := h.ordered
    rw [hlog, List.pairwise_append, List.pairwise_cons] at hordered
    refine List.filterMap_eq_nil_iff.2 fun e he => ?_
    have := hordered.2.1.1 e he
    cases e <;> first | rfl | exact this.elim
  rw [hlog, storedSignals_append] at hstored
  have hcons : storedSignals (.resumed way r :: after) = storedSignals after := rfl
  rw [hcons, hafter, List.append_nil] at hstored
  exact hstored

lemma proceed_invoked (c : Coroutine V E) (s : State V E) :
    (proceed c s).invoked = s.invoked := by
  unfold proceed
  split <;> rfl

lemma proceed_history (c : Coroutine V E) (s : State V E) :
    (proceed c s).history = s.history := by
  unfold proceed
  split <;> rfl

lemma eq_of_act {c : Coroutine V E} {s : State V E} {k : ℕ} {a : Awaitable V E}
    {f : Awaitable V E → Awaitable V E × Option (Resumed V E)} (ha : s.awaits[k]? = some a)
    (hfixed : act c s k f = s) : f a = (a, none) := by
  simp only [act, ha] at hfixed
  cases hr : (f a).2 with
  | none =>
    rw [hr] at hfixed
    have hset : s.awaits.set k (f a).1 = s.awaits := congrArg State.awaits hfixed
    obtain ⟨hk, -⟩ := List.getElem?_eq_some_iff.1 ha
    have hget : (s.awaits.set k (f a).1)[k]? = some (f a).1 := List.getElem?_set_self hk
    rw [hset, ha] at hget
    exact Prod.ext (Option.some.inj hget).symm hr
  | some r =>
    rw [hr] at hfixed
    have hhistory := congrArg (fun s => s.history.length) hfixed
    simp [proceed_history] at hhistory

lemma continued_of_inv {c : Coroutine V E} {s : State V E} (h : Inv c s) {k : ℕ}
    (hk : k < s.awaits.length) (hawaiter : step c s (.awaiter k) = s)
    (hresolver : step c s (.resolver k) = s) (hcall : ∀ signal, step c s (.call k signal) = s) :
    k < s.history.length := by
  have ha : s.awaits[k]? = some s.awaits[k] := List.getElem?_eq_getElem hk
  obtain ⟨source, -, hinv, hres⟩ := h.awaits _ _ ha
  have hsome := Awaitable.resumptions_of_settled hinv (eq_of_act ha hawaiter)
    (eq_of_act ha hresolver) fun signal => eq_of_act ha (hcall signal)
  by_contra hlast
  rw [List.getElem?_eq_none (Nat.not_lt.1 hlast)] at hres
  exact hsome (List.map_eq_nil_iff.1 hres)

/-- A state in which no action changes anything. -/
lemma settled_of_inv {c : Coroutine V E} {s : State V E} (h : Inv c s)
    (hfixed : ∀ a, step c s a = s) : ∃ signal, s.promised = [signal] := by
  have hinvoked : s.invoked = true := by
    by_contra hidle
    have hinvoke := congrArg State.invoked (hfixed .invoke)
    rw [step, if_neg hidle, proceed_invoked] at hinvoke
    exact hidle hinvoke.symm
  have hpromised := h.promised hinvoked
  cases hc : c s.history with
  | ret vs => exact ⟨_, by rw [hpromised, hc]; rfl⟩
  | escape x => exact ⟨_, by rw [hpromised, hc]; rfl⟩
  | await source =>
    have hlength : s.awaits.length = s.history.length + 1 := by
      rw [h.length hinvoked, begun, hc]
    have hlast := continued_of_inv h (k := s.history.length) (by omega) (hfixed _) (hfixed _)
      fun signal => hfixed _
    exact absurd hlast (Nat.lt_irrefl _)

theorem runCoroutine_behaves (c : Coroutine V E) (schedule : List (Action V E)) :
    Behaves c (runCoroutine c schedule) := by
  have h := runCoroutine_inv c schedule
  generalize runCoroutine c schedule = s at h
  refine ⟨h.length, fun k a ha => ?_, fun k hk => continued_of_inv h hk, ?_, settled_of_inv h⟩
  · obtain ⟨source, hsource, hinv, hres⟩ := h.awaits k a ha
    exact ⟨source, hsource, hinv.behaves, hres⟩
  · cases hinvoked : s.invoked with
    | true => exact h.promised hinvoked
    | false => rw [h.idle hinvoked]; rfl

end Continuable.Await
