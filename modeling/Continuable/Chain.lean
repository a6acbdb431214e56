import Continuable.Effect
import Continuable.Primitives

/-!
Continuations in continuation-passing style, as the chaining layer runs them.

A continuation is invoked with the callback that receives its result. Attaching a handler
wraps the continuation: invoked with a next callback, it invokes the inner continuation with
a proxy that either forwards what arrives or runs the handler and decorates what the handler
returned. Every handler runs inside a `try` block whose `catch` calls the next callback.
-/

namespace Continuable.Chain

open Effect

/-- Whether the handler takes the values. -/
inductive HandleResults | no | yes
  deriving DecidableEq

/-- Whether the handler takes the exception. -/
inductive HandleErrors | no | forward
  deriving DecidableEq

/-- What an executor does with the `work_proxy` it is given. -/
inductive Reaction (E : Type)
  | run
  | reject (exception : Option E)
  | cancel
  | drop

inductive Executor (E : Type)
  | thisThread
  | custom (reaction : Reaction E)

mutual

/-- The data of a `continuable_base`. The number names the source that is started. -/
inductive Continuation (V E : Type)
  | lazy (name : ℕ) (outcome : Outcome V E)
  | ready (name : ℕ) (result : Result V E)
  | erased (continuation : Continuation V E)
  | chained (handleResults : HandleResults) (handleErrors : HandleErrors)
      (continuation : Continuation V E) (accepts : ℕ → Bool)
      (callback : Signal V E → Returned V E) (executor : Executor E)

/-- What a handler does: throw, or return a value of one of the decorated types. -/
inductive Returned (V E : Type)
  | thrown (e : E)
  | void
  | value (v : V)
  | plainTag (v : V)
  | pair (first second : V)
  | tuple (vs : List V)
  | result (result : Result V E)
  | emptyResult
  | cancellationResult
  | exceptionalResult (exception : Option E)
  | continuable (continuation : Continuation V E)

end

/-- Where a handler sits: its link, seen from the chain that is run. -/
inductive Branch | inner | returned
  deriving DecidableEq

abbrev Address := List Branch

inductive Event (V E : Type)
  | started (name : ℕ)
  | handler (at_ : Address) (input : Signal V E)
  | final (signal : Signal V E)

variable {V E : Type}

abbrev Run (V E : Type) := Eff (Event V E) E
abbrev Callback (V E : Type) := Signal V E → Run V E Unit

/-- `partial_invoke_impl`: drop the last argument until the callable accepts the rest. -/
def partialInvokeImpl (accepts : ℕ → Bool) : ℕ → List V → List V
  | 0, args => args
  | n + 1, args =>
    if accepts args.length then args else partialInvokeImpl accepts n args.dropLast

def partialInvoke (accepts : ℕ → Bool) (args : List V) : List V :=
  partialInvokeImpl accepts args.length args

/-- `CONTINUABLE_BLOCK_TRY_BEGIN` to `CONTINUABLE_BLOCK_TRY_END`. -/
def blockTry (next : Callback V E) (body : Run V E Unit) : Run V E Unit :=
  tryCatch body fun e => next (.exception (some e))

/-- `on_executor`: run the decorated handler, here or as the work an executor was given. -/
def onExecutor (executor : Executor E) (next : Callback V E) (work : Run V E Unit) : Run V E Unit :=
  match executor with
  | .thisThread => work
  | .custom .run => noexcept work
  | .custom (.reject e) => noexcept (next (.exception e))
  | .custom .cancel => noexcept (next (.exception none))
  | .custom .drop => pure ()

/-- Calling a callback with a result; an empty result calls nothing. -/
def submit (next : Callback V E) : Result V E → Run V E Unit
  | .value vs => next (.value vs)
  | .exception e => next (.exception e)
  | .empty => pure ()

/-- `promise_base::operator()`. -/
def promise (next : Callback V E) : Callback V E := fun s => noexcept (next s)

/-- `result_handler_base::operator()`. The invoker runs the decorated handler on an input. -/
def resultHandlerBase (accepts : ℕ → Bool) (executor : Executor E) (next : Callback V E)
    (invoker : Callback V E) : HandleResults → List V → Run V E Unit
  | .no, args => next (.value args)
  | .yes, args => onExecutor executor next (invoker (.value (partialInvoke accepts args)))

/-- `error_handler_base::operator()`. -/
def errorHandlerBase (executor : Executor E) (next invoker : Callback V E) :
    HandleErrors → Option E → Run V E Unit
  | .no, e => next (.exception e)
  | .forward, e => onExecutor executor next (invoker (.exception e))

/-- `callback_base`, the proxy a link passes to the continuation it is attached to. -/
def callbackBase (hr : HandleResults) (he : HandleErrors) (accepts : ℕ → Bool)
    (executor : Executor E) (next invoker : Callback V E) : Callback V E
  | .value args => resultHandlerBase accepts executor next invoker hr args
  | .exception e => errorHandlerBase executor next invoker he e

namespace Continuation

/-- `operator()(is_ready_arg_t)`. -/
def isReady : Continuation V E → Bool
  | .lazy _ _ => false
  | .ready _ _ => true
  | .erased c => c.isReady
  | .chained .. => false

/-- `operator()(unpack_arg_t)`; `none` is `CTI_DETAIL_UNREACHABLE`. -/
def unpack : Continuation V E → Option (ℕ × Result V E)
  | .lazy _ _ => none
  | .ready n r => some (n, r)
  | .erased c => c.unpack
  | .chained .. => none

/-- The template argument that selects the specialization for ready continuations. -/
def asReady : Continuation V E → Option (ℕ × Result V E)
  | .ready n r => some (n, r)
  | _ => none

/-- How `chained_continuation` resolves its proxy: the specialization unpacks the ready
continuation, the general template asks `is_ready` first. -/
def resolve (c : Continuation V E) (proxy : Callback V E) (invokeProxy : Run V E Unit) :
    Run V E Unit :=
  match c.asReady with
  | some (n, r) => do
    emit (.started n)
    submit proxy r
  | none =>
    if c.isReady then
      match c.unpack with
      | some (n, r) => do
        emit (.started n)
        submit proxy r
      | none => terminate
    else invokeProxy

end Continuation

mutual

/-- `operator()(NextCallback&&)` of the continuation at an address. -/
def Continuation.invoke : Continuation V E → Address → Callback V E → Run V E Unit
  | .lazy n outcome, _, next => do
    emit (.started n)
    match outcome with
    | none => pure ()
    | some s => next s
  | .ready n r, _, next => do
    emit (.started n)
    submit next r
  | .erased c, a, next => c.invoke a (promise next)
  | .chained hr he c accepts callback executor, a, next =>
    let invoker : Callback V E := fun input => blockTry next do
      emit (.handler a input)
      (callback input).decorate (.returned :: a) input.onErrorPath next
    let proxy := callbackBase hr he accepts executor next invoker
    c.resolve proxy (c.invoke (.inner :: a) proxy)

/-- `decoration::invoker_of`: hand what the handler returned to the next callback. -/
def Returned.decorate : Returned V E → Address → Bool → Callback V E → Run V E Unit
  | .thrown e, _, _, _ => throwing e
  | .void, _, errorPath, next =>
    if errorPath then pure () else noexcept (next (.value []))
  | .value v, _, _, next => noexcept (next (.value [v]))
  | .plainTag v, _, _, next => noexcept (next (.value [v]))
  | .pair v w, _, _, next => noexcept (next (.value [v, w]))
  | .tuple vs, _, _, next => noexcept (next (.value vs))
  | .result r, _, _, next => submit (fun s => noexcept (next s)) r
  | .emptyResult, _, _, _ => pure ()
  | .cancellationResult, _, _, next => noexcept (next (.exception none))
  | .exceptionalResult e, _, _, next => noexcept (next (.exception e))
  | .continuable c, a, _, next => noexcept (c.invoke a next)

end

/-- `invoke_continuation` with a callback that records what it is called with. -/
def invokeContinuation (c : Continuation V E) : Run V E Unit :=
  noexcept (c.invoke [] fun s => emit (.final s))

end Continuable.Chain
