import Mathlib.Data.List.Basic

/-!
The vocabulary of the library: what a callback is called with, the `result` class, and the
ways an asynchronous chain can end.

An `exception_t` may be null; a null exception stands for a cancellation.
-/

namespace Continuable

/-- What a callback is called with: `operator()(Args...)` or
`operator()(exception_arg_t, exception_t)`. -/
inductive Signal (V E : Type)
  | value (args : List V)
  | exception (exception : Option E)
  deriving DecidableEq, Repr

/-- How a chain ends: it resolves its callback, or never does. -/
abbrev Outcome (V E : Type) := Option (Signal V E)

/-- `result<Args...>`. -/
inductive Result (V E : Type)
  | empty
  | value (values : List V)
  | exception (exception : Option E)
  deriving DecidableEq, Repr

variable {V E : Type}

/-- Whether the first argument is an `exception_arg_t`. -/
def Signal.onErrorPath : Signal V E → Bool
  | .value _ => false
  | .exception _ => true

namespace Result

def outcome : Result V E → Outcome V E
  | .empty => none
  | .value vs => some (.value vs)
  | .exception e => some (.exception e)

end Result

/-- `make_result`: the result for the path the arguments arrived on. -/
def makeResult : Signal V E → Result V E
  | .value vs => .value vs
  | .exception e => .exception e

end Continuable
