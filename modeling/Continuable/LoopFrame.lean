import Continuable.Activation
import Continuable.Primitives
import Mathlib.Logic.Function.Iterate

/-!
Asynchronous loops.

The callable of a loop is invoked again whenever its continuable resolves with an empty result.
When that happens at once, the next iteration runs inside of the one before; otherwise the frame
is kept alive until it happens.
-/

namespace Continuable.Looping

open Activation

/-- What the continuable of an iteration resolves with: a result, or an exception. -/
inductive Ending (V E : Type)
  | result (result : Result V E)
  | failed (exception : Option E)

/-- What the callable does: it throws, or its continuable resolves at once, later or never. What
runs when it resolves may change the state of the callable. -/
inductive Iteration (F V E : Type)
  | throws (e : E)
  | immediately (finish : F → F × Ending V E)
  | later (finish : F → F × Ending V E)
  | never

/-- What `loop_frame` stores besides the promise. The arguments are passed by reference. -/
structure Frame (C A : Type) where
  callable : C
  args : A

abbrev Callable (C A V E : Type) := Frame C A → Frame C A × Iteration (Frame C A) V E

inductive Event (C A V E : Type)
  | invoked (frame : Frame C A)
  | ended (ending : Ending V E)
  | promised (signal : Signal V E)

variable {C A V E : Type}

abbrev Run (C A V E : Type) := Task (Event C A V E) E

/-- `loop_frame::resolve`. -/
def resolve (loop : Frame C A → Run C A V E) (frame : Frame C A) : Ending V E → Run C A V E
  | .result .empty => loop frame
  | .result (.value vs) => .emit (.promised (.value vs)) .ret
  | .result (.exception e) => .emit (.promised (.exception e)) .ret
  | .failed e => .emit (.promised (.exception e)) .ret

/-- The handler that `next` attaches runs inside of a `try` block; an exception that leaves it is
unhandled. The chain is invoked by a destructor, or by the environment through a promise. -/
def attached (t : Run C A V E) : Run C A V E := (t.tryCatch fun _ => .terminated).noexcept

/-- The continuable of an iteration resolves. -/
def finished (loop : Frame C A → Run C A V E) (x : Frame C A × Ending V E) : Run C A V E :=
  .emit (.ended x.2) (attached (resolve loop x.1 x.2))

/-- `loop_frame::loop`, for at most `fuel` iterations. -/
def loop (callable : Callable C A V E) : ℕ → Frame C A → Run C A V E
  | 0, _ => .ret
  | fuel + 1, frame =>
    let called := callable frame
    .emit (.invoked frame)
      ((match called.2 with
      | .throws e => .raised e
      | .immediately finish => finished (loop callable fuel) (finish called.1)
      | .later finish => .later (finished (loop callable fuel) (finish called.1))
      | .never => .ret : Run C A V E).tryCatch fun e =>
        .emit (.ended (.failed (some e)))
          (resolve (loop callable fuel) called.1 (.failed (some e))))

/-! ### Endings -/

/-- What the promise is resolved with, unless the loop goes on. -/
def Ending.signal? : Ending V E → Option (Signal V E)
  | .result .empty => none
  | .result (.value vs) => some (.value vs)
  | .result (.exception e) | .failed e => some (.exception e)

/-- How an iteration ends, if it does, and the frame then. -/
def ending : Frame C A × Iteration (Frame C A) V E → Option (Frame C A × Ending V E)
  | (frame, .throws e) => some (frame, .failed (some e))
  | (frame, .immediately finish) | (frame, .later finish) => some (finish frame)
  | (_, .never) => none

/-- What is logged by the endings alone. -/
def reference (callable : Callable C A V E) : ℕ → Frame C A → List (Event C A V E)
  | 0, _ => []
  | fuel + 1, frame =>
    .invoked frame ::
      match ending (callable frame) with
      | none => []
      | some (frame, e) =>
        .ended e ::
          match e.signal? with
          | none => reference callable fuel frame
          | some signal => [.promised signal]

section run

variable {next : Frame C A → Run C A V E}

lemma resolve_returns (h : ∀ frame, (next frame).Returns) (frame : Frame C A) (e : Ending V E) :
    (resolve next frame e).Returns := by
  rcases e with (_ | _ | _) | _
  · exact h frame
  · exact trivial
  · exact trivial
  · exact trivial

lemma attached_of_returns {t : Run C A V E} (h : t.Returns) : attached t = t := by
  have htry := Task.tryCatch_of_returns h fun _ => Task.terminated
  rw [attached, htry, Task.noexcept_of_returns h]

lemma finished_of_returns (h : ∀ frame, (next frame).Returns) (x : Frame C A × Ending V E) :
    finished next x = .emit (.ended x.2) (resolve next x.1 x.2) := by
  rw [finished, attached_of_returns (resolve_returns h x.1 x.2)]

/-- The `try` block catches what the callable throws, and nothing else. -/
lemma loop_succ (callable : Callable C A V E) (fuel : ℕ)
    (h : ∀ frame, (loop callable fuel frame).Returns) (frame : Frame C A) :
    loop callable (fuel + 1) frame = .emit (.invoked frame)
      (match (callable frame).2 with
      | .throws e =>
          .emit (.ended (.failed (some e))) (.emit (.promised (.exception (some e))) .ret)
      | .immediately finish => .emit (.ended (finish (callable frame).1).2)
          (resolve (loop callable fuel) (finish (callable frame).1).1 (finish (callable frame).1).2)
      | .later finish => .later (.emit (.ended (finish (callable frame).1).2)
          (resolve (loop callable fuel) (finish (callable frame).1).1
            (finish (callable frame).1).2))
      | .never => .ret) := by
  rw [loop]
  cases hi : (callable frame).2 with
  | throws e => rfl
  | later finish => simp only [finished_of_returns h, Task.tryCatch]
  | never => rfl
  | immediately finish =>
    have hreturns := resolve_returns h (finish (callable frame).1).1 (finish (callable frame).1).2
    simp only [finished_of_returns h, Task.tryCatch]
    rw [Task.tryCatch_of_returns hreturns]

lemma loop_returns (callable : Callable C A V E) (fuel : ℕ) (frame : Frame C A) :
    (loop callable fuel frame).Returns := by
  induction fuel generalizing frame with
  | zero => exact trivial
  | succ fuel ih =>
    rw [loop_succ callable fuel ih]
    cases hi : (callable frame).2 with
    | throws e => exact trivial
    | immediately finish => exact resolve_returns ih _ _
    | later finish => exact trivial
    | never => exact trivial

lemma resolve_log (next : Frame C A → Run C A V E) (frame : Frame C A) (e : Ending V E) :
    (resolve next frame e).log =
      match e.signal? with
      | none => (next frame).log
      | some signal => [.promised signal] := by
  rcases e with (_ | _ | _) | _ <;> rfl

/-- The loop logs what the endings say. -/
theorem loop_log (callable : Callable C A V E) (fuel : ℕ) (frame : Frame C A) :
    (loop callable fuel frame).log = reference callable fuel frame := by
  induction fuel generalizing frame with
  | zero => rfl
  | succ fuel ih =>
    rw [loop_succ callable fuel (loop_returns callable fuel), reference]
    obtain ⟨called, iteration⟩ := callable frame
    cases iteration with
    | throws e => rfl
    | never => rfl
    | immediately finish => simp only [Task.log, resolve_log, ih, ending]
    | later finish => simp only [Task.log, resolve_log, ih, ending]

end run

/-! ### Sequences of endings -/

section sequence

variable (callable : Callable C A V E) (frame : Frame C A)

/-- The frame after an iteration. -/
def nextFrame (frame : Frame C A) : Frame C A :=
  match ending (callable frame) with
  | none => frame
  | some (frame, _) => frame

/-- The frame before iteration `i`. -/
def frameAt (i : ℕ) : Frame C A := (nextFrame callable)^[i] frame

/-- How iteration `i` ends, if it does. -/
def endingAt (i : ℕ) : Option (Ending V E) :=
  (ending (callable (frameAt callable frame i))).map Prod.snd

/-- What is logged of iteration `i`. -/
def iterationLog (i : ℕ) : List (Event C A V E) :=
  .invoked (frameAt callable frame i) :: ((endingAt callable frame i).map .ended).toList

/-- What is logged of a loop that iteration `i` ends: all the iterations up to it, and what the
promise is resolved with. -/
def loopLog (i : ℕ) : List (Event C A V E) :=
  (List.range (i + 1)).flatMap (iterationLog callable frame) ++
    (((endingAt callable frame i).bind Ending.signal?).map .promised).toList

variable {callable frame}

lemma signal?_eq_none {e : Ending V E} : e.signal? = none ↔ e = .result .empty := by
  rcases e with (_ | _ | _) | _ <;> simp [Ending.signal?]

lemma iterationLog_succ (i : ℕ) :
    iterationLog callable frame (i + 1) = iterationLog callable (nextFrame callable frame) i := rfl

lemma loopLog_succ {i : ℕ} :
    loopLog callable frame (i + 1) =
      iterationLog callable frame 0 ++ loopLog callable (nextFrame callable frame) i := by
  have hlater : (fun j => iterationLog callable frame (j + 1)) =
      iterationLog callable (nextFrame callable frame) := funext iterationLog_succ
  rw [loopLog, loopLog, List.range_succ_eq_map, List.flatMap_cons, List.flatMap_map,
    List.append_assoc]
  simp only [Nat.succ_eq_add_one, hlater]
  rfl

lemma ending_of_continue (h : endingAt callable frame 0 = some (.result .empty)) :
    ending (callable frame) = some (nextFrame callable frame, .result .empty) := by
  obtain ⟨⟨next, e⟩, hending, he⟩ := Option.map_eq_some_iff.1 h
  have hfirst : ending (callable frame) = some (next, e) := hending
  obtain rfl : e = .result .empty := he
  rw [nextFrame, hfirst]

lemma reference_of_continue (h : endingAt callable frame 0 = some (.result .empty)) (fuel : ℕ) :
    reference callable (fuel + 1) frame =
      iterationLog callable frame 0 ++ reference callable fuel (nextFrame callable frame) := by
  have hending := ending_of_continue h
  rw [reference, hending, iterationLog, h]
  rfl

lemma reference_of_stop {i : ℕ}
    (hbefore : ∀ j < i, endingAt callable frame j = some (.result .empty))
    (hstop : endingAt callable frame i ≠ some (.result .empty)) {fuel : ℕ} (hfuel : i < fuel) :
    reference callable fuel frame = loopLog callable frame i := by
  induction i generalizing frame fuel with
  | zero =>
    obtain ⟨fuel, rfl⟩ : ∃ n, fuel = n + 1 := ⟨fuel - 1, by omega⟩
    have hlog : loopLog callable frame 0 = iterationLog callable frame 0 ++
        (((endingAt callable frame 0).bind Ending.signal?).map .promised).toList := by
      rw [loopLog]
      simp
    have hat : endingAt callable frame 0 = (ending (callable frame)).map Prod.snd := rfl
    rw [hlog, iterationLog, reference]
    rw [hat] at hstop ⊢
    cases hending : ending (callable frame) with
    | none => rfl
    | some x =>
      obtain ⟨next, e⟩ := x
      cases hsignal : e.signal? with
      | none => exact absurd (by rw [hending, signal?_eq_none.1 hsignal]; rfl) hstop
      | some signal => simp [hsignal, frameAt]
  | succ i ih =>
    obtain ⟨fuel, rfl⟩ : ∃ n, fuel = n + 1 := ⟨fuel - 1, by omega⟩
    have hrest : reference callable fuel (nextFrame callable frame) = _ :=
      ih (fun j hj => hbefore (j + 1) (by omega)) hstop (Nat.lt_of_succ_lt_succ hfuel)
    rw [reference_of_continue (hbefore 0 (by omega)), hrest, loopLog_succ]

lemma reference_of_continues {fuel : ℕ}
    (h : ∀ j < fuel, endingAt callable frame j = some (.result .empty)) :
    reference callable fuel frame = (List.range fuel).flatMap (iterationLog callable frame) := by
  induction fuel generalizing frame with
  | zero => rfl
  | succ fuel ih =>
    have hrest : reference callable fuel (nextFrame callable frame) = _ :=
      ih fun j hj => h (j + 1) (by omega)
    rw [reference_of_continue (h 0 (by omega)), hrest, List.range_succ_eq_map, List.flatMap_cons,
      List.flatMap_map]
    rfl

end sequence

/-- **Loops.** The callable is invoked up to the first ending that does not continue the loop, with
the arguments that are stored, and each time after the iteration before it ended; at any moment a
part of this has happened. The promise is resolved with that ending and never again, or never when
there is no such ending or it never comes. -/
theorem loop_behaves (callable : Callable C A V E) (frame : Frame C A) :
    (∀ fuel, (loop callable fuel frame).Returns) ∧
    (∀ i, (∀ j < i, endingAt callable frame j = some (.result .empty)) →
      endingAt callable frame i ≠ some (.result .empty) →
      ∀ fuel > i, ∀ wakes, (loop callable fuel frame).seen wakes <+: loopLog callable frame i ∧
        ((loop callable fuel frame).pending wakes = false →
          (loop callable fuel frame).seen wakes = loopLog callable frame i)) ∧
    ((∀ j, endingAt callable frame j = some (.result .empty)) → ∀ fuel wakes,
      (loop callable fuel frame).seen wakes <+:
        (List.range fuel).flatMap (iterationLog callable frame)) := by
  refine ⟨fun fuel => loop_returns callable fuel frame, fun i hbefore hstop fuel hfuel wakes => ?_,
    fun hall fuel wakes => ?_⟩
  · have hlog : (loop callable fuel frame).log = loopLog callable frame i := by
      rw [loop_log, reference_of_stop hbefore hstop hfuel]
    rw [← hlog]
    exact ⟨Task.seen_prefix wakes _, Task.seen_of_not_pending⟩
  · have hlog : (loop callable fuel frame).log =
        (List.range fuel).flatMap (iterationLog callable frame) := by
      rw [loop_log, reference_of_continues fun j _ => hall j]
    rw [← hlog]
    exact Task.seen_prefix wakes _

/-- It continues twice, the second time later, and then resolves with its argument. -/
def thrice : Callable ℕ ℕ ℕ Empty := fun frame =>
  ({ frame with callable := frame.callable + 1 },
    match frame.callable with
    | 0 => .immediately fun frame => (frame, .result .empty)
    | 1 => .later fun frame => (frame, .result .empty)
    | _ => .immediately fun frame => (frame, .result (.value [frame.args])))

theorem thrice_behaves :
    (loop thrice 3 ⟨0, 7⟩).seen 1 =
      [.invoked ⟨0, 7⟩, .ended (.result .empty), .invoked ⟨1, 7⟩, .ended (.result .empty),
        .invoked ⟨2, 7⟩, .ended (.result (.value [7])), .promised (.value [7])] := by
  have hbefore : ∀ j < 2, endingAt thrice ⟨0, 7⟩ j = some (.result .empty) := by
    intro j hj
    obtain rfl | rfl : j = 0 ∨ j = 1 := by omega
    · rfl
    · rfl
  have hvalue : endingAt thrice ⟨0, 7⟩ 2 = some (.result (.value [7])) := rfl
  have hstop : endingAt thrice ⟨0, 7⟩ 2 ≠ some (.result .empty) := by simp [hvalue]
  exact ((loop_behaves thrice ⟨0, 7⟩).2.1 2 hbefore hstop 3 (by decide) 1).2 rfl

end Continuable.Looping
