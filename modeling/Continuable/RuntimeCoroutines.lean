import Continuable.Coroutine
import Continuable.RuntimeFrames

/-!
Coroutines in event loops.

A coroutine may await continuables of any kind. Its promise is called for what a chain calls its
callback for whose `next` handlers do what the body does behind its awaits. Where the chain destroys
its callback, nobody has the handle of the coroutine any more, and its frame is leaked with the
promise.
-/

namespace Continuable.Runtime

open Await (Thrown Resumed resumedWith unhandledException)
open ChainDestruction (Use)
open Waiting (Wait)
open Waiting.Wait (now never ofOption)

variable {V E : Type}

/-- What the body comes to next. -/
inductive Instruction (V E : Type)
  | await (continuation : Continuation V (Thrown E))
  | ret (vs : List V)
  | escape (x : Thrown E)

abbrev Coroutine (V E : Type) := List (Resumed V E) → Instruction V E

/-- What the awaits have returned or thrown so far, unless no handle of the coroutine is left. -/
abbrev Progress (V E : Type) := Option (List (Resumed V E))

namespace Coroutine

variable (c : Coroutine V E)

/-- The body runs on. `return_value` and `unhandled_exception` resolve the promise. -/
def proceed : Progress V E → Move (Progress V E) V (Thrown E)
  | none => .leak
  | some history =>
    match c history with
    | .await continuation => .start (some history) continuation
    | .ret vs => .stop (.called (.value vs))
    | .escape x => .stop (.called (unhandledException x))

/-- The callback of `await_suspend` with `await_resume`. -/
def await (progress : Progress V E) : Use V (Thrown E) → Progress V E ⊕ Use V (Thrown E)
  | .called signal => .inl (progress.map fun history => history ++ [resumedWith signal])
  | .destroyed => .inl none

def frame : Driver (Progress V E) V (Thrown E) where
  advance := c.proceed
  resume := await

/-- What the body does behind some awaits, as the handler of a chain. -/
def handler : ℕ → List (Resumed V E) → Returned V (Thrown E)
  | 0, _ => .emptyResult
  | n + 1, history =>
    match c history with
    | .await continuation =>
      .continuable (.chained .yes .forward continuation (fun _ => true)
        (fun signal => handler n (history ++ [resumedWith signal])) .thisThread)
    | .ret vs => .tuple vs
    | .escape .awaitCanceled => .cancellationResult
    | .escape (.other e) => .thrown (.other e)

/-- A coroutine as a chain. -/
def chain (n : ℕ) : Continuation V (Thrown E) :=
  .async (fun _ => c.handler n []) .thisThread (.value [])

end Coroutine

/-- `get_return_object`: the coroutine is resumed with a promise. Its body goes on at most `fuel`
times. -/
def runAwaits (c : Coroutine V E) (fuel : ℕ) (events : List ℕ) :
    Frame (Progress V E) V (Thrown E) :=
  c.frame.run fuel (some []) events

/-- The calls among what is done to a callback. -/
def onlyCalls (u : Use V E) : Option (Use V E) := u.called?.map .called

section coroutines

variable {c : Coroutine V E}

lemma iterate_leaked (n : ℕ) : Wait.iterate c.frame.body n none = never := by
  cases n with
  | zero => rfl
  | succ n => exact Driver.iterate_succ _ n none

lemma handler_meaning (n : ℕ) (history : List (Resumed V E)) (errorPath : Bool) :
    (c.handler n history).meaning errorPath = (c.handler n history).meaning false := by
  cases n with
  | zero => rfl
  | succ n =>
    rw [Coroutine.handler]
    rcases c history with k | vs | _ | e <;> rfl

lemma iterate_eq_handler (n : ℕ) (history : List (Resumed V E)) :
    Wait.iterate c.frame.body n (some history) =
      ((c.handler n history).meaning false).bind fun u => ofOption (onlyCalls u) := by
  have hnow : ∀ u : Use V (Thrown E),
      (now u : Meaning V (Thrown E)).bind (fun u => ofOption (onlyCalls u)) =
        ofOption (onlyCalls u) := fun u => Wait.now_bind u _
  induction n generalizing history with
  | zero => exact (hnow .destroyed).symm
  | succ n ih =>
    have hproceed : c.frame.advance (some history) = c.proceed (some history) := rfl
    rw [Driver.iterate_succ, hproceed, Coroutine.proceed, Coroutine.handler]
    rcases c history with k | vs | _ | e
    · simp only [Driver.moved, Returned.meaning, Continuation.meaning, Wait.bind_assoc]
      refine congrArg k.meaning.bind (funext fun u => ?_)
      cases u with
      | destroyed =>
        have hleak : c.frame.goOn n (some history) .destroyed = never := iterate_leaked n
        exact hleak.trans (hnow .destroyed).symm
      | called signal =>
        have hgo : c.frame.goOn n (some history) (.called signal) =
            Wait.iterate c.frame.body n (some (history ++ [resumedWith signal])) := rfl
        rw [hgo, ih, ← handler_meaning n _ signal.onErrorPath]
        cases signal with
        | value vs => simp [link, Chain.handled, Chain.partialInvoke_all, Executor.meaning]
        | exception e => rfl
    · exact (hnow (.called (.value vs))).symm
    · exact (hnow (.called (.exception none))).symm
    · exact (hnow (.called (.exception (some (.other e))))).symm

end coroutines

/-- **A coroutine calls its promise when the chain calls its callback**, with the same, whatever it
awaits; and it never destroys its promise without a call. It may go on as often as it takes. -/
theorem runAwaits_eq_uses (c : Coroutine V E) (events : List ℕ) :
    (∀ n, (runAwaits c n events).callback = (uses (c.chain n) events).filterMap onlyCalls) ∧
      ∃ enough, ∀ n ≥ enough,
        (runAwaits c n events).callback = (runAwaits c enough events).callback := by
  constructor
  · intro n
    have hchain : (c.chain n).meaning = (c.handler n []).meaning false := rfl
    rw [runAwaits, callback_eq, uses_eq_meaning, hchain, iterate_eq_handler,
      Wait.bind_ofOption_known]
    cases ((c.handler n []).meaning false).known events with
    | none => rfl
    | some u => cases u <;> rfl
  · obtain ⟨enough, henough⟩ := exists_callback_eq c.frame (some []) events
    refine ⟨enough, fun n hn => ?_⟩
    rw [runAwaits, runAwaits, henough n hn, henough enough (Nat.le_refl _)]

/-- The second continuable drops its callback. -/
def droppedLater : Coroutine ℕ ℕ
  | [] => .await (.lazy (some 1) (some (.value [5])))
  | _ => .await (.lazy (some 2) none)

example : (runAwaits droppedLater 3 [1, 2]).callback = [] := rfl

example : uses (droppedLater.chain 3) [1, 2] = [.destroyed] := rfl

end Continuable.Runtime
