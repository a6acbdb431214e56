import Mathlib.Data.List.Basic

/-!
`std::promise` and `std::future`.

A promise and its future share a state that is made ready once: by storing a value or an exception,
or by destroying the promise while nothing is stored. `set_exception` requires an exception, and
what a call with a null pointer leaves behind is undefined.
-/

namespace Continuable.StdPromise

/-- The shared state. -/
inductive Shared (α E : Type)
  | pending
  | value (v : α)
  | exception (e : E)
  | brokenPromise
  | undefined
  deriving DecidableEq

/-- `set_value` and `set_exception`. -/
inductive Call (α E : Type)
  | setValue (v : α)
  | setException (exception : Option E)
  deriving DecidableEq

/-- What `std::future::get` throws. -/
inductive Failure (E : Type)
  | rethrown (e : E)
  | brokenPromise
  deriving DecidableEq

/-- A promise: the shared state, and the calls that were made to make it ready. -/
structure Promise (α E : Type) where
  shared : Shared α E
  calls : List (Call α E)

variable {α E : Type}

def Call.stored : Call α E → Shared α E
  | .setValue v => .value v
  | .setException (some e) => .exception e
  | .setException none => .undefined

namespace Promise

def init : Promise α E := ⟨.pending, []⟩

/-- A call that makes the state ready; a second one raises `promise_already_satisfied`. -/
def set (p : Promise α E) (c : Call α E) : Promise α E where
  shared := match p.shared with
    | .pending => c.stored
    | ready => ready
  calls := p.calls ++ [c]

/-- The promise is destroyed. -/
def abandon (p : Promise α E) : Promise α E where
  shared := match p.shared with
    | .pending => .brokenPromise
    | ready => ready
  calls := p.calls

/-- `std::future::get`. It blocks while the state is pending; an undefined state gives nothing that
could be relied on. -/
def get (p : Promise α E) : Option (Except (Failure E) α) :=
  match p.shared with
  | .pending => none
  | .value v => some (.ok v)
  | .exception e => some (.error (.rethrown e))
  | .brokenPromise => some (.error .brokenPromise)
  | .undefined => none

lemma abandon_of_ready {p : Promise α E} (h : p.shared ≠ .pending) : p.abandon = p := by
  obtain ⟨shared, calls⟩ := p
  cases shared with
  | pending => exact absurd rfl h
  | _ => rfl

end Promise

end Continuable.StdPromise
