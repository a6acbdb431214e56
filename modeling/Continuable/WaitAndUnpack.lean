import Continuable.Endings
import Continuable.WaitRelaxedRuns

/-!
`wait`.

A continuable that is ready is unpacked. Any other one is ended with the unlocker, which is moved
along the chain while the waiter blocks: the chain calls it or destroys it, and everything it was
moved from is destroyed without the ownership. What the waiter returns is unpacked to a value or
thrown.
-/

namespace Continuable.WaitAndUnpack

open Schedule ChainDestruction

/-- What `wait` throws. -/
inductive Failure (E : Type)
  | rethrown (e : E)
  | waitTransformCanceled
  deriving DecidableEq

/-- The waiter with the unlockers, and what the chain is still going to do to the one that has the
ownership. -/
structure State (V E : Type) where
  wait : WaitRelaxed.State V E
  pending : List (Use V E)

inductive Action
  | waiter
  | wake
  | unlocker (i : ℕ)
  | move (i j : ℕ)
  | use (i : ℕ)
  | destroy (i : ℕ)
  deriving DecidableEq

variable {V E : Type}

namespace State

/-- The chain does the next thing to the unlocker that has the ownership. -/
def use (s : State V E) (i : ℕ) : State V E :=
  if (s.wait.unlockers i).alive = true ∧ (s.wait.unlockers i).call = none ∧
      (s.wait.unlockers i).acquired = true then
    match s.pending with
    | [] => s
    | .called signal :: rest => ⟨s.wait.invoke i signal, rest⟩
    | .destroyed :: rest => ⟨s.wait.destroy i, rest⟩
  else s

/-- An unlocker is destroyed that was called or moved from. -/
def destroy (s : State V E) (i : ℕ) : State V E :=
  if (s.wait.unlockers i).acquired = false then { s with wait := s.wait.destroy i } else s

end State

def step (s : State V E) : Action → State V E
  | .waiter => { s with wait := s.wait.waiterStep }
  | .wake => { s with wait := s.wait.wake }
  | .unlocker i => { s with wait := s.wait.unlockerStep i }
  | .move i j => { s with wait := s.wait.move i j }
  | .use i => s.use i
  | .destroy i => s.destroy i

/-- Every run of `wait_relaxed` on a continuable that is not ready. -/
def runWait (b : ContinuableBase V E) (schedule : List Action) : State V E :=
  run step ⟨WaitRelaxed.init, b.handlerUses⟩ schedule

/-- `wait_relaxed`, which may not have returned yet. -/
def waitRelaxed (b : ContinuableBase V E) (schedule : List Action) : Option (Result V E) :=
  if b.isReady then b.unpack
  else
    match (runWait b schedule).wait.waiter with
    | .returned result => some result
    | _ => none

/-- `wait_and_unpack` of what `wait_relaxed` returned. -/
def unpacked : Result V E → Except (Failure E) (Boxed V)
  | .value vs => .ok (boxed vs)
  | .exception (some e) => .error (.rethrown e)
  | .exception none => .error .waitTransformCanceled
  | .empty => .error .waitTransformCanceled

def waitAndUnpack (b : ContinuableBase V E) (schedule : List Action) :
    Option (Except (Failure E) (Boxed V)) :=
  (waitRelaxed b schedule).map unpacked

/-- The result that stands for an outcome. -/
def resultOf (o : Outcome V E) : Result V E := (o.map makeResult).getD .empty

lemma resultOf_outcome (r : Result V E) : resultOf r.outcome = r := by
  cases r <;> rfl

/-! ### The ownership -/

/-- An unlocker has the ownership. -/
def Held (w : WaitRelaxed.State V E) : Prop := ∃ i, (w.unlockers i).acquired = true

/-- A step that leaves the ownership with the unlockers, or without. -/
structure Keeps (w w' : WaitRelaxed.State V E) : Prop where
  held : Held w' ↔ Held w
  invoked : w'.invoked = w.invoked

section steps

variable {w : WaitRelaxed.State V E}

lemma keeps_of_acquired {w' : WaitRelaxed.State V E}
    (ha : ∀ i, (w'.unlockers i).acquired = (w.unlockers i).acquired)
    (hinvoked : w'.invoked = w.invoked) : Keeps w w' :=
  ⟨by simp only [Held, ha], hinvoked⟩

lemma waiterStep_same (w : WaitRelaxed.State V E) :
    w.waiterStep.unlockers = w.unlockers ∧ w.waiterStep.invoked = w.invoked := by
  unfold WaitRelaxed.State.waiterStep
  split
  · exact ⟨rfl, rfl⟩
  · split_ifs <;> exact ⟨rfl, rfl⟩
  · exact ⟨rfl, rfl⟩
  · exact ⟨rfl, rfl⟩
  · exact ⟨rfl, rfl⟩
  · split_ifs <;> exact ⟨rfl, rfl⟩
  · exact ⟨rfl, rfl⟩
  · exact ⟨rfl, rfl⟩
  · exact ⟨rfl, rfl⟩

lemma waiterStep_keeps (w : WaitRelaxed.State V E) : Keeps w w.waiterStep :=
  keeps_of_acquired (fun i => by rw [(waiterStep_same w).1]) (waiterStep_same w).2

lemma wake_keeps (w : WaitRelaxed.State V E) : Keeps w w.wake := by
  unfold WaitRelaxed.State.wake
  split <;> exact keeps_of_acquired (fun _ => rfl) rfl

lemma set_keeps {w' : WaitRelaxed.State V E} {i : ℕ} {u : WaitRelaxed.Unlocker V E}
    (hset : w'.unlockers = Function.update w.unlockers i u) (hinvoked : w'.invoked = w.invoked)
    (hu : u.acquired = (w.unlockers i).acquired) : Keeps w w' := by
  refine keeps_of_acquired (fun j => ?_) hinvoked
  rw [hset]
  by_cases hj : j = i
  · rw [hj, Function.update_self, hu]
  · rw [Function.update_of_ne hj]

lemma unlockerStep_keeps (w : WaitRelaxed.State V E) (i : ℕ) : Keeps w (w.unlockerStep i) := by
  unfold WaitRelaxed.State.unlockerStep
  simp only
  split
  · exact ⟨Iff.rfl, rfl⟩
  · split_ifs
    · exact set_keeps rfl rfl rfl
    · exact ⟨Iff.rfl, rfl⟩
  · exact set_keeps rfl rfl rfl
  · exact set_keeps rfl rfl rfl
  · exact set_keeps rfl rfl rfl
  · exact set_keeps rfl rfl rfl

lemma move_keeps (w : WaitRelaxed.State V E) (i j : ℕ) : Keeps w (w.move i j) := by
  unfold WaitRelaxed.State.move
  split_ifs with hmay
  · obtain ⟨hij, -, -, hj, -⟩ := hmay
    refine ⟨⟨fun ⟨k, hk⟩ => ?_, fun ⟨k, hk⟩ => ?_⟩, rfl⟩
    · by_cases hkj : k = j
      · exact ⟨i, by simpa [WaitRelaxed.State.set, hkj] using hk⟩
      · by_cases hki : k = i
        · simp [WaitRelaxed.State.set, hki, hij] at hk
        · exact ⟨k, by simpa [WaitRelaxed.State.set, hkj, hki] using hk⟩
    · by_cases hki : k = i
      · exact ⟨j, by rw [hki] at hk; simp [WaitRelaxed.State.set, hk]⟩
      · have hkj : k ≠ j := by
          rintro rfl
          rw [hj] at hk
          cases hk
        exact ⟨k, by simpa [WaitRelaxed.State.set, hkj, hki] using hk⟩
  · exact ⟨Iff.rfl, rfl⟩

lemma destroy_keeps {i : ℕ} (hi : (w.unlockers i).acquired = false) : Keeps w (w.destroy i) := by
  unfold WaitRelaxed.State.destroy
  rw [if_neg (Bool.eq_false_iff.1 hi)]
  split_ifs
  · exact set_keeps rfl rfl hi.symm
  · exact ⟨Iff.rfl, rfl⟩

lemma not_held_of_set (h : w.Token) {i : ℕ} (hi : (w.unlockers i).acquired = true)
    {u : WaitRelaxed.Unlocker V E} (hu : u.acquired = false) {w' : WaitRelaxed.State V E}
    (hset : w'.unlockers = Function.update w.unlockers i u) : ¬ Held w' := by
  rintro ⟨j, hj⟩
  rw [hset] at hj
  by_cases hji : j = i
  · rw [hji, Function.update_self, hu] at hj
    cases hj
  · rw [Function.update_of_ne hji, (WaitRelaxed.State.holder_of_acquired h hi).others j hji] at hj
    cases hj

end steps

/-! ### Runs -/

/-- The chain did not come to the unlocker yet, which is held, or it is done with it. -/
inductive Phase (o : Outcome V E) (s : State V E) : Prop
  | before (hheld : Held s.wait) (hpending : s.pending = [useOf o])
  | after (hheld : ¬ Held s.wait) (hpending : s.pending = []) (hinvoked : s.wait.invoked = o)

structure Inv (o : Outcome V E) (s : State V E) : Prop where
  wait : s.wait.Inv
  phase : Phase o s

section invariant

variable {o : Outcome V E} {s : State V E}

lemma phase_of_keeps (h : Phase o s) {w : WaitRelaxed.State V E} (hw : Keeps s.wait w) :
    Phase o { s with wait := w } := by
  cases h with
  | before hheld hpending => exact .before (hw.held.2 hheld) hpending
  | after hheld hpending hinvoked =>
    exact .after (fun h => hheld (hw.held.1 h)) hpending (hw.invoked.trans hinvoked)

lemma init_inv (o : Outcome V E) : Inv o ⟨WaitRelaxed.init, [useOf o]⟩ :=
  ⟨WaitRelaxed.State.init_inv, .before ⟨0, rfl⟩ rfl⟩

lemma use_eq (h : s.wait.Token) {i : ℕ} (hi : (s.wait.unlockers i).acquired = true)
    (hpending : s.pending = [useOf o]) :
    s.use i = ⟨{ s.wait.set i ⟨true, false, some (.lock (resultOf o)), o.isNone⟩ with
      invoked := o }, []⟩ := by
  obtain ⟨halive, -, hcall, -, hinvoked, -⟩ := WaitRelaxed.State.holder_of_acquired h hi
  have hmay : (s.wait.unlockers i).alive = true ∧ (s.wait.unlockers i).call = none ∧
      (s.wait.unlockers i).acquired = true := ⟨halive, hcall i, hi⟩
  rw [State.use, if_pos hmay, hpending]
  cases o with
  | none =>
    have hdestroy : s.wait.destroy i =
        { s.wait.set i ⟨true, false, some (.lock .empty), true⟩ with invoked := none } := by
      rw [WaitRelaxed.State.destroy, if_pos ⟨halive, hcall i⟩, if_pos hi, ← hinvoked]
      rfl
    simp only [useOf, hdestroy]
    rfl
  | some signal =>
    simp only [useOf, WaitRelaxed.State.invoke, if_pos hmay]
    rfl

lemma use_inv (h : Inv o s) (i : ℕ) : Inv o (s.use i) := by
  by_cases hi : (s.wait.unlockers i).acquired = true
  · cases h.phase with
    | after hheld _ _ => exact absurd ⟨i, hi⟩ hheld
    | before _ hpending =>
      rw [use_eq h.wait.token hi hpending]
      refine ⟨WaitRelaxed.State.enter_inv h.wait hi _ _ _ rfl, .after ?_ rfl rfl⟩
      exact not_held_of_set h.wait.token hi rfl rfl
  · rw [State.use, if_neg fun hmay => hi hmay.2.2]
    exact h

lemma destroy_inv (h : Inv o s) (i : ℕ) : Inv o (s.destroy i) := by
  unfold State.destroy
  split_ifs with hi
  · exact ⟨WaitRelaxed.State.destroy_inv h.wait i, phase_of_keeps h.phase (destroy_keeps hi)⟩
  · exact h

theorem step_inv (h : Inv o s) (a : Action) : Inv o (step s a) := by
  cases a with
  | waiter =>
    exact ⟨WaitRelaxed.State.waiterStep_inv h.wait, phase_of_keeps h.phase (waiterStep_keeps _)⟩
  | wake => exact ⟨WaitRelaxed.State.wake_inv h.wait, phase_of_keeps h.phase (wake_keeps _)⟩
  | unlocker i =>
    exact ⟨WaitRelaxed.State.unlockerStep_inv h.wait i,
      phase_of_keeps h.phase (unlockerStep_keeps _ i)⟩
  | move i j =>
    exact ⟨WaitRelaxed.State.move_inv h.wait i j, phase_of_keeps h.phase (move_keeps _ i j)⟩
  | use i => exact use_inv h i
  | destroy i => exact destroy_inv h i

lemma result_of_returned (h : Inv o s) {result : Result V E}
    (hreturned : s.wait.waiter = .returned result) : result = resultOf o := by
  have hwaiter := h.wait.waiter
  simp only [WaitRelaxed.State.WaiterOk, hreturned] at hwaiter
  obtain ⟨-, -, hready, hresult⟩ := hwaiter
  have hset := WaitRelaxed.State.set_of_ready h.wait.token hready
  have houtcome : result = s.wait.outcome := by rw [← hresult, hset.result]
  cases h.phase with
  | after _ _ hinvoked => rw [houtcome, WaitRelaxed.State.outcome, hinvoked, resultOf]
  | before hheld _ =>
    -- the result is written by a call that has taken the ownership
    obtain ⟨i, hi⟩ := hheld
    have huntouched := (WaitRelaxed.State.holder_of_acquired h.wait.token hi).untouched
    rw [huntouched.ready] at hready
    cases hready

lemma returned_of_fixed (h : Inv o s) (hfixed : ∀ a, a ≠ .wake → step s a = s) :
    s.wait.waiter = .returned (resultOf o) := by
  have hwait : ∀ a, a ≠ .wake → (step s a).wait = s.wait := fun a ha => by rw [hfixed a ha]
  cases h.phase with
  | before hheld hpending =>
    -- the chain can go on with the unlocker that has the ownership
    obtain ⟨i, hi⟩ := hheld
    have hused := hfixed (.use i) (by simp)
    rw [step, use_eq h.wait.token hi hpending] at hused
    rw [← hused] at hpending
    cases hpending
  | after hheld hpending hinvoked =>
    have ha : ∀ i, (s.wait.unlockers i).acquired = false := fun i =>
      Bool.eq_false_iff.2 fun hi => hheld ⟨i, hi⟩
    have hall : ∀ a, a ≠ .wake → WaitRelaxed.step s.wait a = s.wait := by
      intro a hwake
      cases a with
      | waiter => exact hwait .waiter (by simp)
      | wake => exact absurd rfl hwake
      | unlocker i => exact hwait (.unlocker i) (by simp)
      | move i j => exact hwait (.move i j) (by simp)
      | invoke i signal => simp [WaitRelaxed.step, WaitRelaxed.State.invoke, ha i]
      | destroy i =>
        have hdestroy := hwait (.destroy i) (by simp)
        simp only [step, State.destroy, if_pos (ha i)] at hdestroy
        exact hdestroy
    rw [WaitRelaxed.State.returned_of_fixed h.wait hall, WaitRelaxed.State.outcome, hinvoked,
      resultOf]

end invariant

theorem runWait_inv (b : ContinuableBase V E) (schedule : List Action) :
    Inv b.outcome (runWait b schedule) := by
  rw [runWait, b.handlerUses_eq]
  exact run_preserves (I := Inv b.outcome) (fun _ a h => step_inv h a) (init_inv _) schedule

/-! ### What is seen of the wait -/

section runs

variable (b : ContinuableBase V E) (schedule : List Action)

lemma waitAndUnpack_of_some {x : Except (Failure E) (Boxed V)}
    (h : waitAndUnpack b schedule = some x) : x = unpacked (resultOf b.outcome) := by
  obtain ⟨result, hresult, rfl⟩ := Option.map_eq_some_iff.1 h
  unfold waitRelaxed at hresult
  split_ifs at hresult with hready
  · obtain ⟨r, hunpack, hr⟩ := ContinuableBase.unpack_of_ready hready
    obtain rfl : r = result := by simpa [hunpack] using hresult
    rw [hr, resultOf_outcome]
  · have hinv := runWait_inv b schedule
    cases hw : (runWait b schedule).wait.waiter with
    | returned r =>
      obtain rfl : r = result := by simpa [hw] using hresult
      rw [result_of_returned hinv hw]
    | _ => simp [hw] at hresult

lemma waitAndUnpack_of_fixed
    (h : ∀ a, a ≠ .wake → step (runWait b schedule) a = runWait b schedule) :
    waitAndUnpack b schedule = some (unpacked (resultOf b.outcome)) := by
  unfold waitAndUnpack waitRelaxed
  by_cases hready : b.isReady = true
  · obtain ⟨r, hunpack, hr⟩ := ContinuableBase.unpack_of_ready hready
    rw [if_pos hready, hunpack, hr, resultOf_outcome]
    rfl
  · rw [if_neg hready, returned_of_fixed (runWait_inv b schedule) h]
    rfl

end runs

end Continuable.WaitAndUnpack
