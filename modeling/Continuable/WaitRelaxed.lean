import Continuable.Monitor
import Continuable.Primitives
import Continuable.Schedule

/-!
Waiting without a timeout.

The unlocker has pointers into the stack of the waiter. It is moved along the chain, called and
destroyed, and so is everything it was moved from; only the one that has the ownership accesses
what the waiter owns, under the mutex.
-/

namespace Continuable.WaitRelaxed

open Schedule

inductive Thread
  | waiter
  | unlocker (i : ℕ)
  deriving DecidableEq

/-- Where the thread in `wait_relaxed` is. -/
inductive Waiter (V E : Type)
  | starting
  | lock
  | check
  | test
  | block
  | waiting
  | read
  | unlock (result : Result V E)
  | returned (result : Result V E)

/-- Where a call of `unsafe_unlocker::unlock` is that has the ownership. -/
inductive Stage (V E : Type)
  | lock (result : Result V E)
  | write (result : Result V E)
  | store
  | notify
  | unlock

/-- An `unsafe_unlocker`. -/
structure Unlocker (V E : Type) where
  alive : Bool
  acquired : Bool
  call : Option (Stage V E)
  destructed : Bool

inductive Event (V E : Type)
  | touched (i : ℕ)
  | written (result : Result V E)
  | readied
  | violated
  | returned (result : Result V E)

/-- The stack of the waiter, the unlockers, what the unlocker was called with and what happened so
far. -/
structure State (V E : Type) where
  cv : Monitor Thread
  ready : Bool
  syncResult : Result V E
  waiter : Waiter V E
  unlockers : ℕ → Unlocker V E
  invoked : Option (Signal V E)
  log : List (Event V E)

inductive Action (V E : Type)
  | waiter
  | wake
  | move (i j : ℕ)
  | invoke (i : ℕ) (signal : Signal V E)
  | destroy (i : ℕ)
  | unlocker (i : ℕ)

variable {V E : Type}

def init : State V E where
  cv := Monitor.init
  ready := false
  syncResult := .empty
  waiter := .starting
  unlockers i := if i = 0 then ⟨true, true, none, false⟩ else ⟨false, false, none, false⟩
  invoked := none
  log := []

namespace State

def set (s : State V E) (i : ℕ) (u : Unlocker V E) : State V E :=
  { s with unlockers := Function.update s.unlockers i u }

def record (s : State V E) (l : List (Event V E)) : State V E := { s with log := s.log ++ l }

/-- A step of `wait_relaxed`. The flag is tested under the mutex, first by itself and then as the
predicate of the wait. -/
def waiterStep (s : State V E) : State V E :=
  match s.waiter with
  | .starting => { s with waiter := .lock }
  | .lock => if s.cv.holder = none then { s with cv := s.cv.lock .waiter, waiter := .check } else s
  | .check => { s with waiter := if s.ready then .read else .test }
  | .test => { s with waiter := if s.ready then .read else .block }
  | .block => { s with cv := s.cv.block .waiter, waiter := .waiting }
  | .waiting =>
    if s.cv.blocked .waiter = false ∧ s.cv.holder = none then
      { s with cv := s.cv.lock .waiter, waiter := .test }
    else s
  | .read => { s with waiter := .unlock s.syncResult }
  | .unlock result =>
    { s with cv := s.cv.unlock, waiter := .returned result }.record [.returned result]
  | .returned _ => s

def wake (s : State V E) : State V E :=
  match s.waiter with
  | .waiting => { s with cv := s.cv.wake .waiter }
  | _ => s

/-- An unlocker is constructed from another one, or a moved-from one is assigned. -/
def move (s : State V E) (i j : ℕ) : State V E :=
  if i ≠ j ∧ (s.unlockers i).alive = true ∧ (s.unlockers i).call = none ∧
      (s.unlockers j).acquired = false ∧ (s.unlockers j).call = none then
    (s.set i { s.unlockers i with acquired := false }).set j
      ⟨true, (s.unlockers i).acquired, none, false⟩
  else s

/-- The chain calls the unlocker that it holds. -/
def invoke (s : State V E) (i : ℕ) (signal : Signal V E) : State V E :=
  if (s.unlockers i).alive = true ∧ (s.unlockers i).call = none ∧
      (s.unlockers i).acquired = true then
    { s.set i ⟨true, false, some (.lock (makeResult signal)), false⟩ with invoked := some signal }
  else s

/-- An unlocker is destroyed, which calls `unlock` with the empty result. -/
def destroy (s : State V E) (i : ℕ) : State V E :=
  if (s.unlockers i).alive = true ∧ (s.unlockers i).call = none then
    if (s.unlockers i).acquired = true then s.set i ⟨true, false, some (.lock .empty), true⟩
    else s.set i ⟨false, false, none, false⟩
  else s

/-- A step of `unlock`, which ends with the release of the mutex. -/
def unlockerStep (s : State V E) (i : ℕ) : State V E :=
  let u := s.unlockers i
  match u.call with
  | none => s
  | some (.lock result) =>
    if s.cv.holder = none then
      { s.set i { u with call := some (.write result) } with
        cv := s.cv.lock (.unlocker i) }.record [.touched i]
    else s
  | some (.write result) =>
    { s.set i { u with call := some .store } with syncResult := result }.record
      [.touched i, .written result]
  | some .store =>
    { s.set i { u with call := some .notify } with ready := true }.record
      ((if s.ready then [Event.violated] else []) ++ [Event.touched i, .readied])
  | some .notify =>
    { s.set i { u with call := some .unlock } with cv := s.cv.notifyAll }.record
      [.touched i]
  | some .unlock =>
    { s.set i { u with call := none, alive := !u.destructed } with cv := s.cv.unlock }.record
      [.touched i]

end State

def step (s : State V E) : Action V E → State V E
  | .waiter => s.waiterStep
  | .wake => s.wake
  | .move i j => s.move i j
  | .invoke i signal => s.invoke i signal
  | .destroy i => s.destroy i
  | .unlocker i => s.unlockerStep i

/-- Every run of `wait_relaxed` on a continuable that is not ready. -/
def runWaitRelaxed (schedule : List (Action V E)) : State V E := run step init schedule

/-! ### What may be seen -/

def Event.written? : Event V E → Option (Result V E)
  | .written result => some result
  | _ => none

def Event.readied? : Event V E → Option Unit
  | .readied => some ()
  | _ => none

/-- What was written to the result of the waiter. -/
def writes (l : List (Event V E)) : List (Result V E) := l.filterMap Event.written?

/-- The times the flag was set. -/
def readies (l : List (Event V E)) : List Unit := l.filterMap Event.readied?

@[simp] lemma writes_append (l m : List (Event V E)) : writes (l ++ m) = writes l ++ writes m :=
  List.filterMap_append

@[simp] lemma readies_append (l m : List (Event V E)) :
    readies (l ++ m) = readies l ++ readies m :=
  List.filterMap_append

namespace State

/-- What the waiter gets: what the unlocker was called with, or the empty result. -/
def outcome (s : State V E) : Result V E := (s.invoked.map makeResult).getD .empty

/-- A run of `wait_relaxed`: the result is written and the flag set at most once, and exactly once
when every unlocker is destroyed. The waiter returns what was written, after it was written;
nothing happens on its stack after that, and no unlocker is in a call that would. Once the flag is
set the waiter is blocked only while the call that has set it is about to notify. When nothing is
left to do but spurious wakeups it has returned. -/
structure Behaves (s : State V E) : Prop where
  once : (writes s.log = [] ∨ writes s.log = [s.outcome]) ∧ (readies s.log).length ≤ 1
  destroyed : (∀ i, (s.unlockers i).alive = false) →
    writes s.log = [s.outcome] ∧ (readies s.log).length = 1
  returned : ∀ before result after, s.log = before ++ .returned result :: after →
    after = [] ∧ writes before = [result] ∧ readies before = [()]
  log : ∀ result, s.waiter = .returned result → .returned result ∈ s.log
  gone : ∀ result, s.waiter = .returned result → ∀ i, (s.unlockers i).call = none
  notified : s.ready = true → (∀ i, (s.unlockers i).call ≠ some .notify) →
    s.cv.blocked .waiter = false
  sound : .violated ∉ s.log
  settled : (∀ a, a ≠ .wake → step s a = s) → s.waiter = .returned s.outcome

end State

end Continuable.WaitRelaxed
