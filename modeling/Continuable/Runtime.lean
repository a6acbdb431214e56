import Continuable.ChainDestruction
import Continuable.OperatorTrees
import Continuable.Schedule

/-!
Continuables in an event loop.

A continuable may be a chain, a connection, or both in any nesting, and handlers may return further
ones. Once it is invoked, what is left of it waits for events: a source may keep its promise, and an
executor its work, until one comes. Everything a callback is used for is recorded, a call as well as
its destruction; a promise destroys its callback when it has called it.
-/

namespace Continuable.Runtime

open Chain (HandleResults HandleErrors Reaction handled)
open ChainDestruction (Use useOf)
open Operators (Strategy Submitter)

/-- An executor may keep the `work_proxy` it is given until an event. -/
inductive Executor (E : Type)
  | thisThread
  | custom (event : Option ℕ) (reaction : Reaction E)

mutual

/-- The data of a `continuable_base`. A lazy source uses its promise when it is invoked, or at an
event. -/
inductive Continuation (V E : Type)
  | lazy (event : Option ℕ) (outcome : Outcome V E)
  | ready (result : Result V E)
  | erased (continuation : Continuation V E)
  | async (callback : Signal V E → Returned V E) (executor : Executor E) (input : Signal V E)
  | chained (handleResults : HandleResults) (handleErrors : HandleErrors)
      (continuation : Continuation V E) (accepts : ℕ → Bool)
      (callback : Signal V E → Returned V E) (executor : Executor E)
  | connected (strategy : Strategy) (members : List (Continuation V E))

/-- What a handler does: throw, or return a value of one of the decorated types. -/
inductive Returned (V E : Type)
  | thrown (e : E)
  | void
  | value (v : V)
  | plainTag (v : V)
  | pair (first second : V)
  | tuple (vs : List V)
  | result (result : Result V E)
  | emptyResult
  | cancellationResult
  | exceptionalResult (exception : Option E)
  | continuable (continuation : Continuation V E)

end

variable {V E : Type}

/-! ### The submitter of a connection -/

/-- A submitter, the number of `std::shared_ptr` objects to it, and what was done to the downstream
callback. -/
structure Shared (V E : Type) where
  submitter : Submitter V E
  owners : ℕ
  uses : List (Use V E)

namespace Shared

/-- The submitter is made by the dispatch, which owns it. -/
def init (strategy : Strategy) (n : ℕ) : Shared V E :=
  ⟨⟨strategy, 1, false, List.replicate n []⟩, 1, []⟩

def submit (s : Shared V E) (r : Submitter V E × Option (Signal V E)) : Shared V E :=
  { s with submitter := r.1, uses := s.uses ++ r.2.toList.map .called }

/-- A `std::shared_ptr` is destroyed, and the downstream callback with the last one, unless it was
called. -/
def release (s : Shared V E) : Shared V E :=
  { s with
    owners := s.owners - 1
    uses := if s.owners = 1 ∧ s.submitter.flag = false then s.uses ++ [.destroyed] else s.uses }

def createCallback (s : Shared V E) : Shared V E :=
  { s with submitter := s.submitter.createCallback, owners := s.owners + 1 }

/-- What a member does to the callback that was created for it. -/
def use (k : ℕ) (s : Shared V E) : Use V E → Shared V E
  | .called signal => (s.submit (s.submitter.receive k signal)).release
  | .destroyed => s.release

/-- The end of the dispatch. -/
def accept (s : Shared V E) : Shared V E := (s.submit s.submitter.accept).release

/-- The members are started one after the other; each may use its callback right away. -/
def dispatch (k : ℕ) : List (List (Use V E)) → Shared V E → Shared V E
  | [], s => s.accept
  | us :: rest, s => dispatch (k + 1) rest (us.foldl (use k) s.createCallback)

/-- The members use their callbacks. -/
def receive (k : ℕ) : List (List (Use V E)) → Shared V E → Shared V E
  | [], s => s
  | us :: rest, s => receive (k + 1) rest (us.foldl (use k) s)

end Shared

/-! ### What is left of a continuable -/

/-- A continuable that was invoked. A link keeps what it handed the next callback to, once for each
use of its proxy. -/
inductive Node (V E : Type)
  | used (use : Use V E)
  | lazy (event : ℕ) (outcome : Outcome V E)
  | queued (event : ℕ) (reaction : Reaction E) (callback : Signal V E → Returned V E)
      (input : Signal V E)
  | chained (handleResults : HandleResults) (handleErrors : HandleErrors) (accepts : ℕ → Bool)
      (callback : Signal V E → Returned V E) (executor : Executor E) (inner : Node V E)
      (handed : List (Node V E))
  | connected (shared : Shared V E) (members : List (Node V E))

namespace Node

mutual

/-- What was done to the callback. -/
def uses : Node V E → List (Use V E)
  | .used u => [u]
  | .lazy .. | .queued .. => []
  | .chained _ _ _ _ _ _ handed => allUses handed
  | .connected shared _ => shared.uses

def allUses : List (Node V E) → List (Use V E)
  | [] => []
  | n :: nodes => uses n ++ allUses nodes

end

end Node

/-- What becomes of the work that is given to an executor. -/
def perform (reaction : Reaction E) (work : Node V E) : Node V E :=
  match reaction with
  | .run => work
  | .reject e => .used (.called (.exception e))
  | .cancel => .used (.called (.exception none))
  | .drop => .used .destroyed

def onExecutor (executor : Executor E) (callback : Signal V E → Returned V E) (input : Signal V E)
    (work : Node V E) : Node V E :=
  match executor with
  | .thisThread => work
  | .custom none reaction => perform reaction work
  | .custom (some n) reaction => .queued n reaction callback input

/-- `callback_base`, the proxy of a link: it forwards a signal or has its handler invoked. -/
def callbackBase (hr : HandleResults) (he : HandleErrors) (accepts : ℕ → Bool)
    (callback : Signal V E → Returned V E) (executor : Executor E)
    (invoker : Signal V E → Node V E) : Use V E → Node V E
  | .destroyed => .used .destroyed
  | .called s =>
    match handled hr he accepts s with
    | none => .used (.called s)
    | some input => onExecutor executor callback input (invoker input)

namespace Continuation

/-- `operator()(is_ready_arg_t)`. -/
def isReady : Continuation V E → Bool
  | .ready _ => true
  | .erased c => c.isReady
  | .lazy .. | .async .. | .chained .. | .connected .. => false

/-- `operator()(unpack_arg_t)`; `none` is `CTI_DETAIL_UNREACHABLE`. -/
def unpack : Continuation V E → Option (Result V E)
  | .ready r => some r
  | .erased c => c.unpack
  | .lazy .. | .async .. | .chained .. | .connected .. => none

end Continuation

/-- A ready continuation is unpacked by the link that is attached to it. -/
def source (c : Continuation V E) (invoked : Node V E) : Node V E :=
  match c.isReady, c.unpack with
  | true, some r => .used (useOf r.outcome)
  | _, _ => invoked

mutual

/-- `operator()(Callback&&)`. -/
def Continuation.start : Continuation V E → Node V E
  | .lazy none outcome => .used (useOf outcome)
  | .lazy (some n) outcome => .lazy n outcome
  | .ready r => .used (useOf r.outcome)
  | .erased c => c.start
  | .async callback executor input =>
    onExecutor executor callback input ((callback input).decorate input.onErrorPath)
  | .chained hr he c accepts callback executor =>
    let inner := source c c.start
    .chained hr he accepts callback executor inner
      (inner.uses.map (callbackBase hr he accepts callback executor fun input =>
        (callback input).decorate input.onErrorPath))
  | .connected strategy members =>
    let nodes := startAll members
    .connected ((Shared.init strategy nodes.length).dispatch 0 (nodes.map Node.uses)) nodes

/-- `decoration::invoker_of`; a handler that throws is caught. -/
def Returned.decorate : Returned V E → Bool → Node V E
  | .thrown e, _ => .used (.called (.exception (some e)))
  | .void, errorPath => .used (if errorPath then .destroyed else .called (.value []))
  | .value v, _ => .used (.called (.value [v]))
  | .plainTag v, _ => .used (.called (.value [v]))
  | .pair v w, _ => .used (.called (.value [v, w]))
  | .tuple vs, _ => .used (.called (.value vs))
  | .result r, _ => .used (useOf r.outcome)
  | .emptyResult, _ => .used .destroyed
  | .cancellationResult, _ => .used (.called (.exception none))
  | .exceptionalResult e, _ => .used (.called (.exception e))
  | .continuable c, _ => c.start

def startAll : List (Continuation V E) → List (Node V E)
  | [] => []
  | c :: members => c.start :: startAll members

end

namespace Node

/-- What the members did to their callbacks in between. -/
def newUses (old new : List (Node V E)) : List (List (Use V E)) :=
  List.zipWith (fun m m' => m'.uses.drop m.uses.length) old new

mutual

/-- An event: sources use their promises, and executors go on with their work. The members of a
connection do not see each other, so their callbacks are used afterwards, from left to right. -/
def resolve (n : ℕ) : Node V E → Node V E
  | .used u => .used u
  | .lazy m outcome => if m = n then .used (useOf outcome) else .lazy m outcome
  | .queued m reaction callback input =>
    if m = n then perform reaction ((callback input).decorate input.onErrorPath)
    else .queued m reaction callback input
  | .chained hr he accepts callback executor inner handed =>
    let inner' := inner.resolve n
    .chained hr he accepts callback executor inner' (resolveAll n handed ++
      (inner'.uses.drop inner.uses.length).map (callbackBase hr he accepts callback executor
        fun input => (callback input).decorate input.onErrorPath))
  | .connected shared members =>
    let members' := resolveAll n members
    .connected (shared.receive 0 (newUses members members')) members'

def resolveAll (n : ℕ) : List (Node V E) → List (Node V E)
  | [] => []
  | m :: nodes => m.resolve n :: resolveAll n nodes

end

end Node

/-- A continuable is invoked and then sees events. -/
def runEvents (c : Continuation V E) (events : List ℕ) : Node V E :=
  Schedule.run (fun node n => node.resolve n) c.start events

/-- What was done to the callback that the continuable was invoked with. -/
def uses (c : Continuation V E) (events : List ℕ) : List (Use V E) := (runEvents c events).uses

end Continuable.Runtime
