import Continuable.ChainOutcome

/-!
Chains of links: a source with `then`, `fail`, `next` and `via` attached to it.

The outcome of the whole chain is a fold of one step per link over the outcome of the source,
and running it calls no handler twice.
-/

namespace Continuable.Chain

open Effect

variable {V E : Type}

/-- A source: lazy, ready, or a type erasure that holds a ready one. -/
inductive Source (V E : Type)
  | lazy (name : ℕ) (outcome : Outcome V E)
  | ready (name : ℕ) (result : Result V E)
  | erasedReady (name : ℕ) (result : Result V E)

namespace Source

def continuation : Source V E → Continuation V E
  | .lazy n o => .lazy n o
  | .ready n r => .ready n r
  | .erasedReady n r => .erased (.ready n r)

def outcome : Source V E → Outcome V E
  | .lazy _ o => o
  | .ready _ r => r.outcome
  | .erasedReady _ r => r.outcome

end Source

/-- The methods of `continuable_base` that attach a handler. -/
inductive Link (V E : Type)
  | then_ (accepts : ℕ → Bool) (callback : List V → Returned V E) (executor : Executor E)
  | fail (callback : Option E → Returned V E) (executor : Executor E)
  | next (accepts : ℕ → Bool) (callback : Signal V E → Returned V E) (executor : Executor E)
  | via (executor : Executor E)

/-- The callback of `then`; it is never called with an exception. -/
def onValues (callback : List V → Returned V E) : Signal V E → Returned V E
  | .value args => callback args
  | .exception _ => .void

/-- `strip_exception_arg`; the callback of `fail` is never called with values. -/
def stripExceptionArg (callback : Option E → Returned V E) : Signal V E → Returned V E
  | .value _ => .void
  | .exception e => callback e

/-- The callback of `via`: `make_result` on either path. -/
def passOn : Signal V E → Returned V E
  | .value args => .result (.value args)
  | .exception e => .exceptionalResult e

/-- `chain_continuation`, as the four methods call it. -/
def chainContinuation (c : Continuation V E) : Link V E → Continuation V E
  | .then_ accepts callback executor =>
    .chained .yes .no c accepts (onValues callback) executor
  | .fail callback executor =>
    .chained .no .forward c (fun _ => true) (stripExceptionArg callback) executor
  | .next accepts callback executor => .chained .yes .forward c accepts callback executor
  | .via executor => .chained .yes .forward c (fun _ => true) passOn executor

/-- The chain built by attaching the links in order. -/
def chain (source : Source V E) (links : List (Link V E)) : Continuation V E :=
  links.foldl chainContinuation source.continuation

/-! ### The fold -/

/-- What a link makes of the outcome before it: `then` is skipped on an exception, `fail` on
values, `next` takes both, `via` changes nothing, and a chain that never resolves stays so. -/
def Link.step (o : Outcome V E) : Link V E → Outcome V E
  | .then_ accepts callback executor =>
    match o with
    | some (.value args) =>
      executor.react ((callback (partialInvoke accepts args)).outcome false)
    | o => o
  | .fail callback executor =>
    match o with
    | some (.exception e) => executor.react ((callback e).outcome true)
    | o => o
  | .next accepts callback executor =>
    match o with
    | some (.value args) =>
      executor.react ((callback (.value (partialInvoke accepts args))).outcome false)
    | some (.exception e) => executor.react ((callback (.exception e)).outcome true)
    | none => none
  | .via executor => o.bind fun s => executor.react (some s)

lemma partialInvoke_all (args : List V) : partialInvoke (fun _ => true) args = args := by
  unfold partialInvoke
  cases args.length <;> simp [partialInvokeImpl]

lemma passOn_outcome (s : Signal V E) : (passOn s).outcome s.onErrorPath = some s := by
  cases s <;> rfl

lemma source_outcome (source : Source V E) : source.continuation.outcome = source.outcome := by
  cases source <;> rfl

lemma chainContinuation_outcome (c : Continuation V E) (l : Link V E) :
    (chainContinuation c l).outcome = l.step c.outcome := by
  cases l with
  | then_ accepts callback executor =>
    rcases h : c.outcome with _ | ⟨args | e⟩ <;>
      simp [chainContinuation, Continuation.outcome, h, handled, Link.step, onValues,
        Signal.onErrorPath]
  | fail callback executor =>
    rcases h : c.outcome with _ | ⟨args | e⟩ <;>
      simp [chainContinuation, Continuation.outcome, h, handled, Link.step, stripExceptionArg,
        Signal.onErrorPath]
  | next accepts callback executor =>
    rcases h : c.outcome with _ | ⟨args | e⟩ <;>
      simp [chainContinuation, Continuation.outcome, h, handled, Link.step, Signal.onErrorPath]
  | via executor =>
    rcases h : c.outcome with _ | ⟨args | e⟩ <;>
      simp [chainContinuation, Continuation.outcome, h, handled, Link.step, partialInvoke_all,
        passOn_outcome]

lemma foldl_outcome (c : Continuation V E) (links : List (Link V E)) :
    (links.foldl chainContinuation c).outcome = links.foldl Link.step c.outcome := by
  induction links generalizing c with
  | nil => rfl
  | cons l rest ih => simp only [List.foldl_cons, ih, chainContinuation_outcome]

/-! ### The handler calls -/

/-- The handlers a log says were called, by address. -/
def handlerCalls (log : List (Event V E)) : List Address :=
  log.filterMap fun
    | .handler a _ => some a
    | _ => none

/-- What a log says the final callback was called with. -/
def finalCalls (log : List (Event V E)) : List (Signal V E) :=
  log.filterMap fun
    | .final s => some s
    | _ => none

lemma handlerCalls_append (l m : List (Event V E)) :
    handlerCalls (l ++ m) = handlerCalls l ++ handlerCalls m := List.filterMap_append

lemma finalCalls_append (l m : List (Event V E)) :
    finalCalls (l ++ m) = finalCalls l ++ finalCalls m := List.filterMap_append

@[simp] lemma handlerCalls_started (n : ℕ) :
    handlerCalls ([.started n] : List (Event V E)) = [] := rfl

@[simp] lemma handlerCalls_handler (a : Address) (s : Signal V E) (l : List (Event V E)) :
    handlerCalls (.handler a s :: l) = a :: handlerCalls l := rfl

lemma isSuffix_of_cons {b : Branch} {a x : Address} (h : b :: a <:+ x) : a <:+ x :=
  (List.suffix_cons b a).trans h

lemma ne_of_cons_isSuffix {b : Branch} {a x : Address} (h : b :: a <:+ x) : x ≠ a := by
  rintro rfl
  have := h.length_le
  simp only [List.length_cons] at this
  omega

/-- Two different branches of one address have no address below them in common. -/
lemma not_isSuffix_both {a x : Address} (hi : Branch.inner :: a <:+ x)
    (hr : Branch.returned :: a <:+ x) : False := by
  have h := List.suffix_of_suffix_length_le hi hr (by simp)
  simpa using h.eq_of_length (by simp)

mutual

/-- The handlers a chain calls lie below its address, and none is called twice. -/
theorem Continuation.handlerCalls_trace (c : Continuation V E) (a : Address) :
    (∀ x ∈ handlerCalls (c.trace a), a <:+ x) ∧ (handlerCalls (c.trace a)).Nodup := by
  match c with
  | .lazy n o => simp [Continuation.trace]
  | .ready n r => simp [Continuation.trace]
  | .erased c => exact c.handlerCalls_trace a
  | .chained hr he c accepts callback executor =>
    obtain ⟨hin, hnd⟩ := c.handlerCalls_trace (.inner :: a)
    simp only [Continuation.trace, handlerCalls_append]
    have hsilent : (∀ x ∈ handlerCalls (c.trace (.inner :: a)) ++ [], a <:+ x) ∧
        (handlerCalls (c.trace (.inner :: a)) ++ []).Nodup := by
      rw [List.append_nil]
      exact ⟨fun x hx => isSuffix_of_cons (hin x hx), hnd⟩
    cases c.outcome with
    | none => exact hsilent
    | some s =>
    simp only
    cases handled hr he accepts s with
    | none => exact hsilent
    | some input =>
    cases executor.runs with
    | false => exact hsilent
    | true =>
      obtain ⟨hout, hnd'⟩ := (callback input).handlerCalls_trace (.returned :: a)
      simp only [if_true, handlerCalls_handler]
      refine ⟨fun x h => ?_, ?_⟩
      · rcases List.mem_append.mp h with h | h
        · exact isSuffix_of_cons (hin x h)
        · rcases List.mem_cons.mp h with rfl | h
          · exact List.suffix_refl _
          · exact isSuffix_of_cons (hout x h)
      · rw [List.nodup_append]
        refine ⟨hnd, List.nodup_cons.mpr ⟨fun h => ?_, hnd'⟩, ?_⟩
        · exact ne_of_cons_isSuffix (hout a h) rfl
        · rintro x hx₁ y hy rfl
          rcases List.mem_cons.mp hy with rfl | hy
          · exact ne_of_cons_isSuffix (hin _ hx₁) rfl
          · exact not_isSuffix_both (hin _ hx₁) (hout _ hy)

theorem Returned.handlerCalls_trace (r : Returned V E) (a : Address) :
    (∀ x ∈ handlerCalls (r.trace a), a <:+ x) ∧ (handlerCalls (r.trace a)).Nodup := by
  match r with
  | .continuable c => exact c.handlerCalls_trace a
  | .thrown _ | .void | .value _ | .plainTag _ | .pair _ _ | .tuple _ | .result _
  | .emptyResult | .cancellationResult | .exceptionalResult _ =>
    simp [Returned.trace, handlerCalls]

end

mutual

/-- Only the callback a chain is finished with logs a final call. -/
theorem Continuation.finalCalls_trace (c : Continuation V E) (a : Address) :
    finalCalls (c.trace a) = [] := by
  match c with
  | .lazy n o => rfl
  | .ready n r => rfl
  | .erased c => exact c.finalCalls_trace a
  | .chained hr he c accepts callback executor =>
    have hin := c.finalCalls_trace (.inner :: a)
    simp only [Continuation.trace, finalCalls_append, hin]
    cases c.outcome with
    | none => rfl
    | some s =>
    simp only
    cases handled hr he accepts s with
    | none => rfl
    | some input =>
    cases executor.runs with
    | false => rfl
    | true => exact (callback input).finalCalls_trace (.returned :: a)

theorem Returned.finalCalls_trace (r : Returned V E) (a : Address) :
    finalCalls (r.trace a) = [] := by
  match r with
  | .continuable c => exact c.finalCalls_trace a
  | .thrown _ | .void | .value _ | .plainTag _ | .pair _ _ | .tuple _ | .result _
  | .emptyResult | .cancellationResult | .exceptionalResult _ => rfl

end

/-- Invoking any continuation: it returns, calls no handler twice, and gives the final
callback its outcome. -/
theorem invokeContinuation_spec (c : Continuation V E) :
    (invokeContinuation c).exit = .ret () ∧
    (handlerCalls (invokeContinuation c).log).Nodup ∧
    finalCalls (invokeContinuation c).log = c.outcome.toList := by
  have hfinal : ∀ s : Signal V E, Returns (emit (.final s) : Run V E Unit) := fun _ => rfl
  have hinv := c.invoke_eq [] (fun s => emit (.final s)) hfinal
  have hret : Returns (c.invoke [] fun s => emit (.final s)) := by
    rw [hinv]; exact returns_deliver hfinal _
  have hrun : invokeContinuation c = _ := (noexcept_of_returns hret).trans hinv
  rw [hrun]
  refine ⟨returns_deliver hfinal _, ?_, ?_⟩
  · simp only [emitAll_bind, handlerCalls_append]
    cases c.outcome <;> simpa [deliver, emit, handlerCalls] using (c.handlerCalls_trace []).2
  · simp only [emitAll_bind, finalCalls_append, c.finalCalls_trace]
    cases c.outcome <;> rfl

/-- **A chain resolves to the fold of its links.** Running it returns, calls every handler at
most once, and calls the final callback with exactly the folded outcome, or not at all when
that is `none`. -/
theorem run_chain (source : Source V E) (links : List (Link V E)) :
    (invokeContinuation (chain source links)).exit = .ret () ∧
    (handlerCalls (invokeContinuation (chain source links)).log).Nodup ∧
    finalCalls (invokeContinuation (chain source links)).log =
      (links.foldl Link.step source.outcome).toList := by
  have h := invokeContinuation_spec (chain source links)
  rwa [chain, foldl_outcome, source_outcome] at h

end Continuable.Chain
