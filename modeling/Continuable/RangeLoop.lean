import Continuable.LoopFrame

/-!
Asynchronous loops over a range.

The looper invokes the callable with the begin of what is left of the range, and increments it
when the step has succeeded. Whether the end is reached is asked after the increment only.
-/

namespace Continuable.Looping

open Activation

/-- A range: its end is reached after a number of increments of its begin, and not before. -/
structure Range (I : Type) where
  succ : I → I
  first : I
  last : I
  length : ℕ
  reaches : succ^[length] first = last
  before : ∀ m < length, succ^[m] first ≠ last

namespace Range

variable {I : Type}

/-- The positions from `begin` on, up to the end. -/
def positions (r : Range I) : List I := (List.range r.length).map fun m => r.succ^[m] r.first

lemma length_eq_zero_iff (r : Range I) : r.length = 0 ↔ r.first = r.last := by
  constructor
  · intro h
    have hreaches := r.reaches
    rw [h] at hreaches
    exact hreaches
  · intro h
    by_contra hpos
    exact r.before 0 (Nat.pos_of_ne_zero hpos) h

end Range

/-- How the continuable of a step ends; its values are not looked at. -/
inductive StepEnding (E : Type)
  | success
  | failed (exception : Option E)

/-- What the callable does at a position: it throws, or its continuable resolves at once, later or
never. -/
inductive Step (K E : Type)
  | throws (e : E)
  | immediately (finish : K → K × StepEnding E)
  | later (finish : K → K × StepEnding E)
  | never

/-- The state of a range looper. -/
structure Looper (K I : Type) where
  callable : K
  first : I
  last : I

variable {K I V E : Type}

section looper

variable [DecidableEq I] (succ : I → I) (callable : K → I → K × Step K E)

/-- The handler that the looper attaches to a step. -/
def advance (finish : K → K × StepEnding E) (frame : Frame (Looper K I) Unit) :
    Frame (Looper K I) Unit × Ending V E :=
  let looper := frame.callable
  match finish looper.callable with
  | (k, .failed e) => ({ frame with callable := { looper with callable := k } }, .failed e)
  | (k, .success) =>
    ({ frame with callable := { looper with callable := k, first := succ looper.first } },
      if succ looper.first ≠ looper.last then .result .empty else .result (.value []))

/-- `make_range_looper`. -/
def rangeLooper : Callable (Looper K I) Unit V E := fun frame =>
  let looper := frame.callable
  let called := callable looper.callable looper.first
  ({ frame with callable := { looper with callable := called.1 } },
    match called.2 with
    | .throws e => .throws e
    | .immediately finish => .immediately (advance succ finish)
    | .later finish => .later (advance succ finish)
    | .never => .never)

/-- `range_loop`, for at most `fuel` steps. -/
def rangeLoop (k : K) (first last : I) (fuel : ℕ) : Run (Looper K I) Unit V E :=
  loop (rangeLooper succ callable) fuel ⟨⟨k, first, last⟩, ()⟩

end looper

/-! ### What a loop over a range should do -/

inductive RangeEvent (I V E : Type)
  | invoked (position : I)
  | succeeded
  | failed (exception : Option E)
  | promised (signal : Signal V E)

/-- What is seen of a loop over a range. -/
def rangeView : Event (Looper K I) Unit V E → RangeEvent I V E
  | .invoked frame => .invoked frame.callable.first
  | .ended (.result _) => .succeeded
  | .ended (.failed e) => .failed e
  | .promised signal => .promised signal

/-- How a step ends, if it does. -/
def stepEnding : K × Step K E → Option (K × StepEnding E)
  | (k, .throws e) => some (k, .failed (some e))
  | (k, .immediately finish) | (k, .later finish) => some (finish k)
  | (_, .never) => none

/-- The callable is invoked at each of the positions, until a step does not succeed. -/
def rangeReference (callable : K → I → K × Step K E) : List I → K → List (RangeEvent I V E)
  | [], _ => [.promised (.value [])]
  | p :: positions, k =>
    .invoked p ::
      match stepEnding (callable k p) with
      | none => []
      | some (_, .failed e) => [.failed e, .promised (.exception e)]
      | some (k, .success) => .succeeded :: rangeReference callable positions k

/-- With enough fuel, the loop does what it should. -/
def RangeLoopBehaves (V : Type) [DecidableEq I] (r : Range I) (callable : K → I → K × Step K E)
    (k : K) : Prop :=
  ∃ enough, ∀ fuel ≥ enough,
    ((rangeLoop r.succ callable k r.first r.last fuel : Run _ _ V E).log.map rangeView) =
      rangeReference callable r.positions k

section run

variable [DecidableEq I] {succ : I → I} {callable : K → I → K × Step K E}

lemma ending_rangeLooper (k : K) (first last : I) :
    ending (rangeLooper (V := V) succ callable ⟨⟨k, first, last⟩, ()⟩) =
      match stepEnding (callable k first) with
      | none => none
      | some (k, .failed e) => some (⟨⟨k, first, last⟩, ()⟩, .failed e)
      | some (k, .success) => some (⟨⟨k, succ first, last⟩, ()⟩,
          if succ first ≠ last then .result .empty else .result (.value [])) := by
  have hadvance : ∀ k (finish : K → K × StepEnding E),
      advance (V := V) succ finish ⟨⟨k, first, last⟩, ()⟩ =
        match finish k with
        | (k, .failed e) => (⟨⟨k, first, last⟩, ()⟩, .failed e)
        | (k, .success) => (⟨⟨k, succ first, last⟩, ()⟩,
            if succ first ≠ last then .result .empty else .result (.value [])) :=
    fun k finish => rfl
  rw [rangeLooper]
  obtain ⟨k, step⟩ := callable k first
  cases step with
  | throws e => rfl
  | never => rfl
  | immediately finish =>
    simp only [ending, stepEnding, hadvance]
    rcases finish k with ⟨k, _ | e⟩ <;> rfl
  | later finish =>
    simp only [ending, stepEnding, hadvance]
    rcases finish k with ⟨k, _ | e⟩ <;> rfl

/-- The loop goes through what is left of the range, as long as there is something left. -/
lemma reference_rangeLooper {last : I} {n : ℕ} {first : I} (hreaches : succ^[n + 1] first = last)
    (hbefore : ∀ m < n + 1, succ^[m] first ≠ last) (k : K) {fuel : ℕ} (hfuel : n < fuel) :
    (reference (rangeLooper (V := V) succ callable) fuel ⟨⟨k, first, last⟩, ()⟩).map rangeView =
      rangeReference callable ((List.range (n + 1)).map fun m => succ^[m] first) k := by
  induction n generalizing first k fuel with
  | zero =>
    obtain ⟨fuel, rfl⟩ : ∃ m, fuel = m + 1 := ⟨fuel - 1, by omega⟩
    have hlast : succ first = last := hreaches
    have hposition : (List.range (0 + 1)).map (fun m => succ^[m] first) = [first] := rfl
    rw [reference, ending_rangeLooper, hposition, rangeReference]
    rcases stepEnding (callable k first) with _ | ⟨k, _ | e⟩
    · rfl
    · simp [hlast, Ending.signal?, rangeView, rangeReference]
    · rfl
  | succ n ih =>
    obtain ⟨fuel, rfl⟩ : ∃ m, fuel = m + 1 := ⟨fuel - 1, by omega⟩
    have hnext : succ first ≠ last := hbefore 1 (by omega)
    have hrest : ∀ k, (reference (rangeLooper (V := V) succ callable) fuel
        ⟨⟨k, succ first, last⟩, ()⟩).map rangeView =
          rangeReference callable ((List.range (n + 1)).map fun m => succ^[m] (succ first)) k :=
      fun k => ih hreaches (fun m hm => hbefore (m + 1) (by omega)) k (by omega)
    have hpositions : (List.range (n + 1 + 1)).map (fun m => succ^[m] first) =
        first :: (List.range (n + 1)).map fun m => succ^[m] (succ first) := by
      rw [List.range_succ_eq_map, List.map_cons, List.map_map]
      rfl
    rw [reference, ending_rangeLooper, hpositions, rangeReference]
    rcases stepEnding (callable k first) with _ | ⟨k, _ | e⟩
    · rfl
    · simp only [hnext, ne_eq, not_false_eq_true, if_true, Ending.signal?, List.map_cons, hrest,
        rangeView]
    · rfl

/-- An empty range is stepped over: the callable is invoked with the end. -/
lemma not_behaves_of_eq (r : Range I) (h : r.first = r.last) (k : K) :
    ¬ RangeLoopBehaves V r callable k := by
  rintro ⟨enough, hlog⟩
  have hpositions : r.positions = [] := by
    rw [Range.positions, r.length_eq_zero_iff.2 h]
    rfl
  have hone := hlog (enough + 1) (by omega)
  rw [rangeLoop, loop_log, reference, hpositions] at hone
  cases hone

end run

/-- **Loops over a range** do what they should exactly when the range is not empty. -/
theorem rangeLoop_behaves_iff [DecidableEq I] (r : Range I) (callable : K → I → K × Step K E)
    (k : K) : RangeLoopBehaves V r callable k ↔ r.first ≠ r.last := by
  refine ⟨fun h heq => not_behaves_of_eq r heq k h, fun hne => ?_⟩
  obtain ⟨n, hn⟩ : ∃ n, r.length = n + 1 :=
    Nat.exists_eq_succ_of_ne_zero fun h => hne (r.length_eq_zero_iff.1 h)
  have hreaches := r.reaches
  have hbefore := r.before
  rw [hn] at hreaches hbefore
  refine ⟨n + 1, fun fuel hfuel => ?_⟩
  rw [rangeLoop, loop_log, Range.positions, hn]
  exact reference_rangeLooper hreaches hbefore k hfuel

/-- The range from three to three. -/
def emptyRange : Range ℕ := ⟨(· + 1), 3, 3, 0, rfl, by simp⟩

/-- Every step succeeds at once. -/
def succeeds : Unit → ℕ → Unit × Step Unit Empty :=
  fun _ _ => ((), .immediately fun _ => ((), .success))

theorem emptyRange_not_behaves : ¬ RangeLoopBehaves ℕ emptyRange succeeds () :=
  not_behaves_of_eq emptyRange rfl ()

/-- The first steps over the empty range. -/
example : (rangeLoop emptyRange.succ succeeds () 3 3 2 : Run _ _ ℕ Empty).log.map rangeView =
    [.invoked 3, .succeeded, .invoked 4, .succeeded] := rfl

end Continuable.Looping
