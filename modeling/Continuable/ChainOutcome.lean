import Continuable.Chain

/-!
What a chain resolves to, without callbacks: every link maps the outcome of the chain before
it to the outcome after it. Running a chain is shown to log its handlers, each once, and then
to call the final callback with the folded outcome, once or never.
-/

namespace Continuable.Chain

open Effect

variable {V E : Type}

/-- Whether the executor runs the work it is given. -/
def Executor.runs : Executor E → Bool
  | .thisThread => true
  | .custom .run => true
  | .custom _ => false

/-- The outcome of a handler dispatched through the executor that resolves to `o` when run. -/
def Executor.react (executor : Executor E) (o : Outcome V E) : Outcome V E :=
  match executor with
  | .thisThread => o
  | .custom .run => o
  | .custom (.reject e) => some (.exception e)
  | .custom .cancel => some (.exception none)
  | .custom .drop => none

/-- The input a link hands to its handler, or `none` when it forwards the signal. -/
def handled (hr : HandleResults) (he : HandleErrors) (accepts : ℕ → Bool) :
    Signal V E → Option (Signal V E)
  | .value args => if hr = .yes then some (.value (partialInvoke accepts args)) else none
  | .exception e => if he = .forward then some (.exception e) else none

mutual

/-- What a continuation resolves the callback it is invoked with to. -/
def Continuation.outcome : Continuation V E → Outcome V E
  | .lazy _ o => o
  | .ready _ r => r.outcome
  | .erased c => c.outcome
  | .chained hr he c accepts callback executor =>
    match c.outcome with
    | none => none
    | some s =>
      match handled hr he accepts s with
      | none => some s
      | some input =>
        executor.react ((callback input).outcome input.onErrorPath)

/-- What a handler resolves the next callback to; a `void` handler on the exception path
resolves nothing. -/
def Returned.outcome : Returned V E → Bool → Outcome V E
  | .thrown e, _ => some (.exception (some e))
  | .void, errorPath => if errorPath then none else some (.value [])
  | .value v, _ => some (.value [v])
  | .plainTag v, _ => some (.value [v])
  | .pair v w, _ => some (.value [v, w])
  | .tuple vs, _ => some (.value vs)
  | .result r, _ => r.outcome
  | .emptyResult, _ => none
  | .cancellationResult, _ => some (.exception none)
  | .exceptionalResult e, _ => some (.exception e)
  | .continuable c, _ => c.outcome

end

mutual

/-- What running a continuation logs before it resolves its callback. -/
def Continuation.trace : Continuation V E → Address → List (Event V E)
  | .lazy n _, _ => [.started n]
  | .ready n _, _ => [.started n]
  | .erased c, a => c.trace a
  | .chained hr he c accepts callback executor, a =>
    c.trace (.inner :: a) ++
      match c.outcome with
      | none => []
      | some s =>
        match handled hr he accepts s with
        | none => []
        | some input =>
          if executor.runs then
            .handler a input :: (callback input).trace (.returned :: a)
          else []

def Returned.trace : Returned V E → Address → List (Event V E)
  | .continuable c, a => c.trace a
  | _, _ => []

end

/-- Resolve a callback to an outcome. -/
def deliver (next : Callback V E) : Outcome V E → Run V E Unit
  | none => pure ()
  | some s => next s

@[simp] lemma deliver_none (next : Callback V E) : deliver next none = pure () := rfl
@[simp] lemma deliver_some (next : Callback V E) (s : Signal V E) :
    deliver next (some s) = next s := rfl

lemma submit_eq (next : Callback V E) (r : Result V E) :
    submit next r = deliver next r.outcome := by
  cases r <;> rfl

lemma returns_deliver {next : Callback V E} (hn : ∀ s, Returns (next s)) (o : Outcome V E) :
    Returns (deliver next o) := by
  cases o with
  | none => rfl
  | some s => exact hn s

lemma unpack_of_ready {c : Continuation V E} (h : c.isReady) :
    ∃ n r, c.unpack = some (n, r) ∧ c.outcome = r.outcome ∧
      ∀ a, c.trace a = [.started n] := by
  match c with
  | .ready n r => exact ⟨n, r, rfl, rfl, fun _ => rfl⟩
  | .erased c =>
    obtain ⟨n, r, hu, ho, ht⟩ := unpack_of_ready (c := c) h
    exact ⟨n, r, hu, by simpa [Continuation.outcome] using ho,
      fun a => by simpa [Continuation.trace] using ht a⟩
  | .lazy _ _ => simp [Continuation.isReady] at h
  | .chained .. => simp [Continuation.isReady] at h

/-- The specialization for ready continuations. -/
lemma eq_of_asReady {c : Continuation V E} {n : ℕ} {r : Result V E}
    (h : c.asReady = some (n, r)) : c = .ready n r := by
  cases c with
  | ready n' r' =>
    obtain ⟨rfl, rfl⟩ : n' = n ∧ r' = r := by simpa [Continuation.asReady] using h
    rfl
  | _ => simp [Continuation.asReady] at h

lemma resolve_eq (c : Continuation V E) (proxy : Callback V E) (a : Address)
    (m : Run V E Unit) (hm : m = emitAll (c.trace a) >>= fun _ => deliver proxy c.outcome) :
    c.resolve proxy m = emitAll (c.trace a) >>= fun _ => deliver proxy c.outcome := by
  unfold Continuation.resolve
  split
  · -- the specialization for ready continuations
    rename_i n r h
    rw [eq_of_asReady h, submit_eq]; rfl
  · by_cases hr : c.isReady
    · -- a ready continuation behind a type erasure
      obtain ⟨n, r, hu, ho, ht⟩ := unpack_of_ready hr
      rw [if_pos hr, hu, ho, ht]
      simp only [submit_eq]; rfl
    · rw [if_neg hr, hm]

lemma onExecutor_eq (executor : Executor E) {next : Callback V E}
    (hn : ∀ s, Returns (next s)) (es : List (Event V E)) (o : Outcome V E) :
    onExecutor executor next (emitAll es >>= fun _ => deliver next o) =
      emitAll (if executor.runs then es else []) >>= fun _ =>
        deliver next (executor.react o) := by
  have hr : Returns (emitAll es >>= fun _ => deliver next o) := returns_deliver hn o
  cases executor with
  | thisThread => rfl
  | custom r =>
    cases r with
    | run => exact noexcept_of_returns hr
    | reject e => exact noexcept_of_returns (hn _)
    | cancel => exact noexcept_of_returns (hn _)
    | drop => rfl

lemma blockTry_of_decorate {next : Callback V E} (hn : ∀ s, Returns (next s))
    (ev : Event V E) {m : Run V E Unit} {es : List (Event V E)} {o : Outcome V E}
    (hm : m = emitAll es >>= fun _ => deliver next o) :
    blockTry next (do emit ev; m) = emitAll (ev :: es) >>= fun _ => deliver next o := by
  have hr : Returns (do emit ev; m : Run V E Unit) := by rw [hm]; exact returns_deliver hn o
  rw [blockTry, tryCatch_of_returns hr, hm]; rfl

mutual

/-- **What running a continuation does**: it logs its trace, then resolves the callback to
its outcome. -/
theorem Continuation.invoke_eq (c : Continuation V E) (a : Address) (next : Callback V E)
    (hn : ∀ s, Returns (next s)) :
    c.invoke a next = emitAll (c.trace a) >>= fun _ => deliver next c.outcome := by
  match c with
  | .lazy n o => cases o <;> rfl
  | .ready n r =>
    simp only [Continuation.invoke, Continuation.trace, Continuation.outcome, submit_eq]; rfl
  | .erased c =>
    have hp : promise next = next := funext fun s => noexcept_of_returns (hn s)
    simp only [Continuation.invoke, Continuation.trace, Continuation.outcome, hp]
    exact c.invoke_eq a next hn
  | .chained hr he c accepts callback executor =>
    -- what the proxy does with a signal
    have hproxy : ∀ s, callbackBase hr he accepts executor next
        (fun input => blockTry next do
          emit (.handler a input)
          (callback input).decorate (.returned :: a) input.onErrorPath next) s =
        emitAll (match handled hr he accepts s with
          | none => []
          | some input => if executor.runs then
              .handler a input :: (callback input).trace (.returned :: a) else []) >>= fun _ =>
          deliver next (match handled hr he accepts s with
            | none => some s
            | some input => executor.react ((callback input).outcome input.onErrorPath)) := by
      intro s
      have hwork := fun input =>
        (callback input).decorate_eq (.handler a input) (.returned :: a) input.onErrorPath next hn
      cases s with
      | value args =>
        cases hr with
        | no => rfl
        | yes => exact (congrArg _ (hwork _)).trans (onExecutor_eq _ hn _ _)
      | exception e =>
        cases he with
        | no => rfl
        | forward => exact (congrArg _ (hwork _)).trans (onExecutor_eq _ hn _ _)
    simp only [Continuation.invoke]
    rw [resolve_eq c _ (.inner :: a) _ (c.invoke_eq (.inner :: a) _ fun s => by
      rw [hproxy]; exact returns_deliver hn _)]
    simp only [Continuation.trace, Continuation.outcome]
    cases c.outcome with
    | none => simp
    | some s =>
      simp only [deliver_some, hproxy]
      apply eff_ext <;> simp

/-- The decorated handler logs itself and what it returned, then resolves the next callback;
a throw is caught and forwarded. -/
theorem Returned.decorate_eq (r : Returned V E) (ev : Event V E) (a : Address) (p : Bool)
    (next : Callback V E) (hn : ∀ s, Returns (next s)) :
    blockTry next (do emit ev; r.decorate a p next) =
      emitAll (ev :: r.trace a) >>= fun _ => deliver next (r.outcome p) := by
  have hreturn : r.decorate a p next =
      (emitAll (r.trace a) >>= fun _ => deliver next (r.outcome p)) → _ :=
    blockTry_of_decorate hn ev
  have hnext : ∀ s, noexcept (next s) = next s := fun s => noexcept_of_returns (hn s)
  match r with
  | .thrown e => exact tryCatch_emitAll_throwing [ev] e _
  | .void =>
    cases p with
    | true => exact hreturn rfl
    | false => exact hreturn (hnext (.value []))
  | .value v => exact hreturn (hnext (.value [v]))
  | .plainTag v => exact hreturn (hnext (.value [v]))
  | .pair v w => exact hreturn (hnext (.value [v, w]))
  | .tuple vs => exact hreturn (hnext (.value vs))
  | .result s =>
    refine hreturn ?_
    simp only [Returned.decorate, hnext, submit_eq, Returned.outcome]; rfl
  | .emptyResult => exact hreturn rfl
  | .cancellationResult => exact hreturn (hnext (.exception none))
  | .exceptionalResult e => exact hreturn (hnext (.exception e))
  | .continuable c =>
    have hc := c.invoke_eq a next hn
    have hr : Returns (c.invoke a next) := by rw [hc]; exact returns_deliver hn _
    exact hreturn ((noexcept_of_returns hr).trans hc)

end

end Continuable.Chain
