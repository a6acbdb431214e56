import Continuable.ChainFold

/-!
Callbacks with destructors.

A link keeps the next callback in its proxy and moves it on from there, so the right to resolve is
with one object at a time. It ends when that object is called, or when it is destroyed uncalled.
What was called or moved from is destroyed as well, which does nothing.
-/

namespace Continuable.ChainDestruction

open Effect
open Chain (HandleResults HandleErrors Executor Continuation Returned partialInvoke handled)

variable {ε V E : Type}

/-- A callback that has the right to resolve. -/
structure Callback (ε V E : Type) where
  call : Signal V E → Eff ε E Unit
  destroy : Eff ε E Unit

/-- `CONTINUABLE_BLOCK_TRY_BEGIN` to `CONTINUABLE_BLOCK_TRY_END`. -/
def blockTry (next : Callback ε V E) (body : Eff ε E Unit) : Eff ε E Unit :=
  tryCatch body fun e => next.call (.exception (some e))

/-- `on_executor`. A `work_proxy` that is not used destroys the next callback. -/
def onExecutor (executor : Executor E) (next : Callback ε V E) (work : Eff ε E Unit) :
    Eff ε E Unit :=
  match executor with
  | .thisThread => work
  | .custom .run => noexcept work
  | .custom (.reject e) => noexcept (next.call (.exception e))
  | .custom .cancel => noexcept (next.call (.exception none))
  | .custom .drop => next.destroy

/-- Calling a callback with a result; it is destroyed when the result is empty. -/
def submit (next : Callback ε V E) : Result V E → Eff ε E Unit
  | .value vs => next.call (.value vs)
  | .exception e => next.call (.exception e)
  | .empty => next.destroy

/-- `promise_base`, which holds the callback. -/
def promise (next : Callback ε V E) : Callback ε V E where
  call s := noexcept (next.call s)
  destroy := next.destroy

/-- `result_handler_base::operator()`. -/
def resultHandlerBase (accepts : ℕ → Bool) (executor : Executor E) (next : Callback ε V E)
    (invoker : Signal V E → Eff ε E Unit) : HandleResults → List V → Eff ε E Unit
  | .no, args => next.call (.value args)
  | .yes, args => onExecutor executor next (invoker (.value (partialInvoke accepts args)))

/-- `error_handler_base::operator()`. -/
def errorHandlerBase (executor : Executor E) (next : Callback ε V E)
    (invoker : Signal V E → Eff ε E Unit) : HandleErrors → Option E → Eff ε E Unit
  | .no, e => next.call (.exception e)
  | .forward, e => onExecutor executor next (invoker (.exception e))

/-- `callback_base`, which holds the next callback. -/
def callbackBase (hr : HandleResults) (he : HandleErrors) (accepts : ℕ → Bool)
    (executor : Executor E) (next : Callback ε V E) (invoker : Signal V E → Eff ε E Unit) :
    Callback ε V E where
  call
    | .value args => resultHandlerBase accepts executor next invoker hr args
    | .exception e => errorHandlerBase executor next invoker he e
  destroy := next.destroy

/-- How `chained_continuation` resolves its proxy. -/
def resolve (c : Continuation V E) (proxy : Callback ε V E) (invokeProxy : Eff ε E Unit) :
    Eff ε E Unit :=
  match c.asReady with
  | some (_, r) => submit proxy r
  | none =>
    if c.isReady then
      match c.unpack with
      | some (_, r) => submit proxy r
      | none => terminate
    else invokeProxy

mutual

/-- `operator()(NextCallback&&)`. A source that never resolves its callback destroys it. -/
def invoke : Continuation V E → Callback ε V E → Eff ε E Unit
  | .lazy _ outcome, next =>
    match outcome with
    | none => next.destroy
    | some s => next.call s
  | .ready _ r, next => submit next r
  | .erased c, next => invoke c (promise next)
  | .chained hr he c accepts callback executor, next =>
    let invoker : Signal V E → Eff ε E Unit := fun input =>
      blockTry next (decorate (callback input) input.onErrorPath next)
    let proxy := callbackBase hr he accepts executor next invoker
    resolve c proxy (invoke c proxy)

/-- `decoration::invoker_of`. Where the next callback is not called, the proxy destroys it. -/
def decorate : Returned V E → Bool → Callback ε V E → Eff ε E Unit
  | .thrown e, _, _ => throwing e
  | .void, errorPath, next =>
    if errorPath then next.destroy else noexcept (next.call (.value []))
  | .value v, _, next => noexcept (next.call (.value [v]))
  | .plainTag v, _, next => noexcept (next.call (.value [v]))
  | .pair v w, _, next => noexcept (next.call (.value [v, w]))
  | .tuple vs, _, next => noexcept (next.call (.value vs))
  | .result r, _, next => submit (promise next) r
  | .emptyResult, _, next => next.destroy
  | .cancellationResult, _, next => noexcept (next.call (.exception none))
  | .exceptionalResult e, _, next => noexcept (next.call (.exception e))
  | .continuable c, _, next => noexcept (invoke c next)

end

/-- `final_callback`, which traps on an exception. -/
def finalCallback : Callback ε V E where
  call
    | .value _ => pure ()
    | .exception none => pure ()
    | .exception (some _) => terminate
  destroy := pure ()

/-! ### What becomes of a callback -/

namespace Callback

/-- The callback is called as the outcome says, or destroyed when there is none. -/
def settle (next : Callback ε V E) : Outcome V E → Eff ε E Unit
  | none => next.destroy
  | some s => next.call s

/-- The callback lets no exception out. -/
structure Returns (next : Callback ε V E) : Prop where
  call : ∀ s, Effect.Returns (next.call s)
  destroy : Effect.Returns next.destroy

lemma Returns.settle {next : Callback ε V E} (h : next.Returns) (o : Outcome V E) :
    Effect.Returns (next.settle o) := by
  cases o with
  | none => exact h.destroy
  | some s => exact h.call s

end Callback

lemma submit_eq (next : Callback ε V E) (r : Result V E) :
    submit next r = next.settle r.outcome := by
  cases r <;> rfl

lemma promise_eq {next : Callback ε V E} (h : next.Returns) : promise next = next := by
  have hcall : (fun s => noexcept (next.call s)) = next.call :=
    funext fun s => noexcept_of_returns (h.call s)
  rw [promise, hcall]

lemma resolve_eq (c : Continuation V E) (proxy : Callback ε V E) {m : Eff ε E Unit}
    (hm : m = proxy.settle c.outcome) : resolve c proxy m = proxy.settle c.outcome := by
  unfold resolve
  split
  · rename_i n r h
    rw [Chain.eq_of_asReady h]
    exact submit_eq proxy r
  · by_cases hr : c.isReady
    · obtain ⟨n, r, hu, ho, -⟩ := Chain.unpack_of_ready hr
      rw [if_pos hr, hu, ho]
      exact submit_eq proxy r
    · rw [if_neg hr, hm]

lemma onExecutor_eq (executor : Executor E) {next : Callback ε V E} (hn : next.Returns)
    (o : Outcome V E) :
    onExecutor executor next (next.settle o) = next.settle (executor.react o) := by
  cases executor with
  | thisThread => rfl
  | custom r =>
    cases r with
    | run => exact noexcept_of_returns (hn.settle o)
    | reject e => exact noexcept_of_returns (hn.call _)
    | cancel => exact noexcept_of_returns (hn.call _)
    | drop => rfl

/-- The proxy settles the next callback by what the link makes of a signal. -/
lemma callbackBase_eq (hr : HandleResults) (he : HandleErrors) (accepts : ℕ → Bool)
    (executor : Executor E) {next : Callback ε V E} (hn : next.Returns)
    {invoker : Signal V E → Eff ε E Unit} {o : Signal V E → Outcome V E}
    (hinvoker : ∀ s, invoker s = next.settle (o s)) (s : Signal V E) :
    (callbackBase hr he accepts executor next invoker).call s =
      next.settle (match handled hr he accepts s with
        | none => some s
        | some input => executor.react (o input)) := by
  cases s with
  | value args =>
    cases hr with
    | no => rfl
    | yes => exact (congrArg _ (hinvoker _)).trans (onExecutor_eq _ hn _)
  | exception e =>
    cases he with
    | no => rfl
    | forward => exact (congrArg _ (hinvoker _)).trans (onExecutor_eq _ hn _)

mutual

/-- **Every continuation uses its callback up**, once: it is called with the outcome, or destroyed
when there is none. -/
theorem invoke_eq (c : Continuation V E) (next : Callback ε V E) (hn : next.Returns) :
    invoke c next = next.settle c.outcome := by
  match c with
  | .lazy n o => cases o <;> rfl
  | .ready n r => exact submit_eq next r
  | .erased c =>
    rw [invoke, promise_eq hn]
    exact invoke_eq c next hn
  | .chained hr he c accepts callback executor =>
    have hproxy := callbackBase_eq hr he accepts executor hn fun input =>
      decorate_eq (callback input) input.onErrorPath next hn
    have hreturns : (callbackBase hr he accepts executor next fun input =>
        blockTry next (decorate (callback input) input.onErrorPath next)).Returns :=
      ⟨fun s => by rw [hproxy]; exact hn.settle _, hn.destroy⟩
    rw [invoke, resolve_eq c _ (invoke_eq c _ hreturns), Continuation.outcome]
    cases c.outcome with
    | none => rfl
    | some s => exact hproxy s

theorem decorate_eq (r : Returned V E) (errorPath : Bool) (next : Callback ε V E)
    (hn : next.Returns) :
    blockTry next (decorate r errorPath next) = next.settle (r.outcome errorPath) := by
  -- a handler that did not throw is not caught
  have hreturn : ∀ {m : Eff ε E Unit} {o : Outcome V E}, m = next.settle o →
      blockTry next m = next.settle o := by
    rintro m o rfl
    exact tryCatch_of_returns (hn.settle o) _
  have hnext : ∀ s, noexcept (next.call s) = next.call s :=
    fun s => noexcept_of_returns (hn.call s)
  match r with
  | .thrown e => rfl
  | .void =>
    cases errorPath with
    | true => exact hreturn rfl
    | false => exact hreturn (hnext (.value []))
  | .value v => exact hreturn (hnext (.value [v]))
  | .plainTag v => exact hreturn (hnext (.value [v]))
  | .pair v w => exact hreturn (hnext (.value [v, w]))
  | .tuple vs => exact hreturn (hnext (.value vs))
  | .result s =>
    refine hreturn ?_
    rw [decorate, promise_eq hn, submit_eq]
    rfl
  | .emptyResult => exact hreturn rfl
  | .cancellationResult => exact hreturn (hnext (.exception none))
  | .exceptionalResult e => exact hreturn (hnext (.exception e))
  | .continuable c =>
    have hc := invoke_eq c next hn
    have hr : Effect.Returns (invoke c next) := by rw [hc]; exact hn.settle _
    exact hreturn ((noexcept_of_returns hr).trans hc)

end

/-! ### The last handler -/

/-- The proxy of a handler without a result that `next` attaches in front of the final callback. It
holds both of them. -/
def handlerProxy (handler : Callback ε V E) : Callback ε V E :=
  let final : Callback ε V E := finalCallback
  let proxy := callbackBase .yes .forward (fun _ => true) .thisThread final fun input =>
    blockTry final do
      handler.call input
      decorate .void input.onErrorPath final
  { proxy with
    destroy := do
      proxy.destroy
      handler.destroy }

/-- `std::move(continuable).next(handler).done()`. -/
def nextDone (c : Continuation V E) (handler : Callback ε V E) : Eff ε E Unit :=
  noexcept (resolve c (handlerProxy handler) (invoke c (handlerProxy handler)))

section handler

variable {handler : Callback ε V E}

lemma bind_pure_of_returns {m : Eff ε E Unit} (h : Returns m) :
    (do m; pure () : Eff ε E Unit) = m := by
  obtain ⟨log, exit⟩ := m
  obtain rfl : exit = .ret () := h
  exact eff_ext (List.append_nil _) rfl

lemma handlerProxy_call (h : handler.Returns) (s : Signal V E) :
    (handlerProxy handler).call s = handler.call s := by
  have hvoid : decorate .void s.onErrorPath (finalCallback : Callback ε V E) = pure () := by
    cases s <;> rfl
  have hbody : blockTry (finalCallback : Callback ε V E) (do
      handler.call s
      decorate .void s.onErrorPath (finalCallback : Callback ε V E)) = handler.call s := by
    rw [hvoid, bind_pure_of_returns (h.call s)]
    exact tryCatch_of_returns (h.call s) _
  cases s with
  | value args =>
    have hargs : partialInvoke (fun _ => true) args = args := by
      unfold partialInvoke
      cases args.length <;> rfl
    simp only [handlerProxy, callbackBase, resultHandlerBase, onExecutor, hargs]
    exact hbody
  | exception e => exact hbody

lemma handlerProxy_settle (h : handler.Returns) (o : Outcome V E) :
    (handlerProxy handler).settle o = handler.settle o := by
  cases o with
  | none => rfl
  | some s => exact handlerProxy_call h s

lemma handlerProxy_returns (h : handler.Returns) : (handlerProxy handler).Returns where
  call s := by rw [handlerProxy_call h]; exact h.call s
  destroy := h.destroy

/-- **The last handler of a chain** is called with the outcome, or destroyed when there is none. -/
theorem nextDone_eq (c : Continuation V E) (h : handler.Returns) :
    nextDone c handler = handler.settle c.outcome := by
  rw [nextDone, resolve_eq c _ (invoke_eq c _ (handlerProxy_returns h)), handlerProxy_settle h]
  exact noexcept_of_returns (h.settle _)

end handler

/-! ### Records -/

/-- What is done to a callback that has the right to resolve. -/
inductive Use (V E : Type)
  | called (signal : Signal V E)
  | destroyed
  deriving DecidableEq

def Use.called? : Use V E → Option (Signal V E)
  | .called s => some s
  | .destroyed => none

def useOf : Outcome V E → Use V E
  | none => .destroyed
  | some s => .called s

/-- What a callback was resolved to. -/
def ending (us : List (Use V E)) : Outcome V E := (us.filterMap Use.called?).head?

@[simp] lemma ending_useOf (o : Outcome V E) : ending [useOf o] = o := by
  cases o <;> rfl

namespace Callback

def use (next : Callback ε V E) : Use V E → Eff ε E Unit
  | .called s => next.call s
  | .destroyed => next.destroy

def perform (next : Callback ε V E) : List (Use V E) → Eff ε E Unit
  | [] => pure ()
  | u :: us => do
    next.use u
    next.perform us

end Callback

lemma perform_useOf {next : Callback ε V E} (hn : next.Returns) (o : Outcome V E) :
    next.perform [useOf o] = next.settle o := by
  have huse : next.use (useOf o) = next.settle o := by
    cases o <;> rfl
  have hreturns : Returns (next.use (useOf o)) := by rw [huse]; exact hn.settle o
  exact (bind_pure_of_returns hreturns).trans huse

/-- A callback that records what is done to it. -/
def recorder : Callback (Use V E) V E where
  call s := emit (.called s)
  destroy := emit .destroyed

lemma recorder_returns : (recorder : Callback (Use V E) V E).Returns := ⟨fun _ => rfl, rfl⟩

lemma recorder_settle (o : Outcome V E) :
    (recorder : Callback (Use V E) V E).settle o = emit (useOf o) := by
  cases o <;> rfl

/-- What is done to the last handler of a chain. -/
def handlerUses (c : Continuation V E) : List (Use V E) := (nextDone c recorder).log

lemma handlerUses_eq (c : Continuation V E) : handlerUses c = [useOf c.outcome] := by
  rw [handlerUses, nextDone_eq c recorder_returns, recorder_settle]
  rfl

/-- Apart from its destruction, the last handler sees what a callback does that is logged by
`invoke_continuation`. -/
theorem called_handlerUses (c : Continuation V E) :
    (handlerUses c).filterMap Use.called? = Chain.finalCalls (Chain.invokeContinuation c).log := by
  rw [handlerUses_eq, (Chain.invokeContinuation_spec c).2.2]
  cases c.outcome <;> rfl

end Continuable.ChainDestruction
