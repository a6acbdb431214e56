import Continuable.Primitives

/-!
Awaiting a continuable.

The coroutine and the continuable it waits for exchange the state of the awaitable; who comes
second continues the coroutine. Each of them runs on a thread of its own, or one inside of the
other.
-/

namespace Continuable.Await

/-- An exception object: an `await_canceled_exception` or any other one. -/
inductive Thrown (E : Type)
  | awaitCanceled
  | other (e : E)

/-- What `await_resume` does: it returns values or throws. -/
inductive Resumed (V E : Type)
  | values (vs : List V)
  | throws (x : Thrown E)

/-- `awaitable::state`. -/
inductive Suspension
  | suspended
  | pending
  | resolved
  deriving DecidableEq

/-- Who accesses the awaitable. -/
inductive Side
  | awaiter
  | resolver
  deriving DecidableEq

/-- Where the coroutine is. -/
inductive Awaiter
  | ready
  | suspend
  | exchange
  | returning (suspended : Bool)
  | done
  deriving DecidableEq

/-- Where the callback of the continuable is. -/
inductive Resolver (V E : Type)
  | idle
  | waiting
  | check (signal : Signal V (Thrown E))
  | store (signal : Signal V (Thrown E))
  | exchange
  | resume
  | done

/-- How the coroutine is continued: by `await_ready`, by `await_suspend` returning false or
through the handle. -/
inductive Way
  | ready
  | returned
  | handle
  deriving DecidableEq

variable {V E : Type}

def Way.side : Way → Side
  | .ready | .returned => .awaiter
  | .handle => .resolver

inductive Event (V E : Type)
  | touched (side : Side)
  | handed (side : Side)
  | called (signal : Signal V (Thrown E))
  | stored (signal : Signal V (Thrown E))
  | resumed (way : Way) (r : Resumed V E)
  | violated

/-- An `awaitable`, with both sides and what they did. -/
structure Awaitable (V E : Type) where
  result : Result V (Thrown E)
  state : Suspension
  awaiter : Awaiter
  resolver : Resolver V E
  log : List (Event V E)

def awaitResume : Result V (Thrown E) → Option (Resumed V E)
  | .value vs => some (.values vs)
  | .exception (some x) => some (.throws x)
  | .exception none => some (.throws .awaitCanceled)
  | .empty => none

/-- An assertion that the result is empty. -/
def assertEmpty : Result V (Thrown E) → List (Event V E)
  | .empty => []
  | .value _ | .exception _ => [.violated]

namespace Awaitable

/-- The constructor: a continuable that is ready is queried right away. -/
def construct : Option (Signal V (Thrown E)) → Awaitable V E
  | some signal => ⟨makeResult signal, .pending, .ready, .idle, [.stored signal]⟩
  | none => ⟨.empty, .pending, .ready, .idle, []⟩

def record (a : Awaitable V E) (l : List (Event V E)) : Awaitable V E :=
  { a with log := a.log ++ l }

/-- The coroutine goes on, and the awaitable is destroyed. -/
def resume (a : Awaitable V E) (way : Way) : Awaitable V E × Option (Resumed V E) :=
  match awaitResume a.result with
  | some r => (a.record [.touched way.side, .resumed way r], some r)
  | none => (a.record [.touched way.side, .violated], none)

/-- A step of the coroutine: `await_ready`, the invocation of the continuable and the exchange
in `await_suspend`, and its return. -/
def awaiterStep (a : Awaitable V E) : Awaitable V E × Option (Resumed V E) :=
  match a.awaiter with
  | .ready =>
    match a.result with
    | .empty => ({ a with awaiter := .suspend }.record [.touched .awaiter], none)
    | .value _ | .exception _ =>
      ({ a with awaiter := .done }.record [.touched .awaiter]).resume .ready
  | .suspend =>
    ({ a with awaiter := .exchange, resolver := .waiting }.record
      (.touched .awaiter :: assertEmpty a.result), none)
  | .exchange =>
    if a.state = .resolved then
      ({ a with state := .suspended, awaiter := .returning false }.record [.touched .awaiter], none)
    else
      ({ a with state := .suspended, awaiter := .returning true }.record
        [.touched .awaiter, .handed .awaiter], none)
  | .returning true => ({ a with awaiter := .done }, none)
  | .returning false => { a with awaiter := .done }.resume .returned
  | .done => (a, none)

/-- The continuable resolves its callback, which it does once. -/
def call (a : Awaitable V E) (signal : Signal V (Thrown E)) :
    Awaitable V E × Option (Resumed V E) :=
  match a.resolver with
  | .waiting => ({ a with resolver := .check signal }.record [.called signal], none)
  | .idle | .check _ | .store _ | .exchange | .resume | .done => (a, none)

/-- A step of the callback. -/
def resolverStep (a : Awaitable V E) : Awaitable V E × Option (Resumed V E) :=
  match a.resolver with
  | .check signal =>
    ({ a with resolver := .store signal }.record (.touched .resolver :: assertEmpty a.result), none)
  | .store signal =>
    ({ a with result := makeResult signal, resolver := .exchange }.record
      [.touched .resolver, .stored signal], none)
  | .exchange =>
    if a.state = .suspended then
      ({ a with state := .resolved, resolver := .resume }.record [.touched .resolver], none)
    else
      ({ a with state := .resolved, resolver := .done }.record
        [.touched .resolver, .handed .resolver], none)
  | .resume => { a with resolver := .done }.resume .handle
  | .idle | .waiting | .done => (a, none)

end Awaitable

/-! ### What may be seen -/

/-- What may come in the log behind an event: a side that handed over the right to resume does
not access the awaitable any more, and nobody does after the coroutine went on. -/
def Ordered : Event V E → Event V E → Prop
  | .handed side, .touched side' => side ≠ side'
  | .resumed _ _, .touched _ => False
  | .resumed _ _, .handed _ => False
  | .resumed _ _, .stored _ => False
  | .resumed _ _, .resumed _ _ => False
  | _, _ => True

def Event.resumption? : Event V E → Option (Way × Resumed V E)
  | .resumed way r => some (way, r)
  | _ => none

def Event.stored? : Event V E → Option (Signal V (Thrown E))
  | .stored signal => some signal
  | _ => none

def Event.called? : Event V E → Option (Signal V (Thrown E))
  | .called signal => some signal
  | _ => none

def Event.handed? : Event V E → Option Side
  | .handed side => some side
  | _ => none

section log

variable (l m : List (Event V E))

def resumptions : List (Way × Resumed V E) := l.filterMap Event.resumption?

def storedSignals : List (Signal V (Thrown E)) := l.filterMap Event.stored?

def calls : List (Signal V (Thrown E)) := l.filterMap Event.called?

def handovers : List Side := l.filterMap Event.handed?

@[simp] lemma resumptions_append : resumptions (l ++ m) = resumptions l ++ resumptions m :=
  List.filterMap_append

@[simp] lemma storedSignals_append : storedSignals (l ++ m) = storedSignals l ++ storedSignals m :=
  List.filterMap_append

@[simp] lemma calls_append : calls (l ++ m) = calls l ++ calls m := List.filterMap_append

@[simp] lemma handovers_append : handovers (l ++ m) = handovers l ++ handovers m :=
  List.filterMap_append

end log

/-- The coroutine was continued in this way with the signal: a continuable that is ready does not
suspend it, and otherwise it is continued by the side that comes second. -/
def Continued (source : Option (Signal V (Thrown E))) (signal : Signal V (Thrown E))
    (log : List (Event V E)) : Way → Prop
  | .ready => source = some signal ∧ handovers log = []
  | .returned => source = none ∧ calls log = [signal] ∧ handovers log = [.resolver]
  | .handle => source = none ∧ calls log = [signal] ∧ handovers log = [.awaiter]

end Continuable.Await
