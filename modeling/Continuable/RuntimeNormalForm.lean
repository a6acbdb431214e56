import Continuable.RuntimeHints
import Continuable.RuntimeLaws

/-!
What continuables are made of.

Everything a handler may return stands for a continuable, and an executor for a source that the work
waits for. Type erasures, ready continuations and `async` cannot be told from the continuables that
do without them, so there are sources, links whose handlers return continuables, and connections.
-/

namespace Continuable.Runtime

open Chain (HandleResults HandleErrors Reaction handled)
open Waiting (Wait)
open Waiting.Wait (now upon)

variable {V E : Type}

/-- A continuable that resolves right away. -/
def instant (outcome : Outcome V E) : Continuation V E := .lazy none outcome

/-- What an executor does with its work. -/
def reactBasic (reaction : Reaction E) (work : Continuation V E) : Continuation V E :=
  match reaction with
  | .run => work
  | .reject e => instant (some (.exception e))
  | .cancel => instant (some (.exception none))
  | .drop => instant none

/-- An executor that keeps its work is a source that the work is attached to. -/
def Executor.basic (executor : Executor E) (work : Continuation V E) : Continuation V E :=
  match executor with
  | .thisThread => work
  | .custom none reaction => reactBasic reaction work
  | .custom (some n) reaction =>
    .chained .yes .no (.lazy (some n) (some (.value []))) (fun _ => true)
      (fun _ => .continuable (reactBasic reaction work)) .thisThread

mutual

def Continuation.basic : Continuation V E → Continuation V E
  | .lazy event outcome => .lazy event outcome
  | .ready r => instant r.outcome
  | .erased c => c.basic
  | .async callback executor input =>
    executor.basic ((callback input).basic input.onErrorPath)
  | .chained hr he c accepts callback executor =>
    .chained hr he c.basic accepts (fun input =>
      .continuable (executor.basic ((callback input).basic input.onErrorPath))) .thisThread
  | .connected s members => .connected s (allBasic members)

/-- The continuable that the result of a handler stands for. -/
def Returned.basic : Returned V E → Bool → Continuation V E
  | .thrown e, _ => instant (some (.exception (some e)))
  | .void, errorPath => instant (if errorPath then none else some (.value []))
  | .value v, _ => instant (some (.value [v]))
  | .plainTag v, _ => instant (some (.value [v]))
  | .pair v w, _ => instant (some (.value [v, w]))
  | .tuple vs, _ => instant (some (.value vs))
  | .result r, _ => instant r.outcome
  | .emptyResult, _ => instant none
  | .cancellationResult, _ => instant (some (.exception none))
  | .exceptionalResult e, _ => instant (some (.exception e))
  | .continuable c, _ => c.basic

def allBasic : List (Continuation V E) → List (Continuation V E)
  | [] => []
  | c :: members => c.basic :: allBasic members

end

mutual

/-- Made of sources, links whose handlers return continuables, and connections. -/
def Continuation.IsBasic : Continuation V E → Prop
  | .lazy .. => True
  | .ready _ | .erased _ | .async .. => False
  | .chained _ _ c _ callback executor =>
    c.IsBasic ∧ (∀ input, (callback input).IsBasic) ∧ executor = .thisThread
  | .connected _ members => AllBasic members

def Returned.IsBasic : Returned V E → Prop
  | .continuable c => c.IsBasic
  | .thrown _ | .void | .value _ | .plainTag _ | .pair .. | .tuple _ | .result _ | .emptyResult
  | .cancellationResult | .exceptionalResult _ => False

def AllBasic : List (Continuation V E) → Prop
  | [] => True
  | c :: members => c.IsBasic ∧ AllBasic members

end

lemma Returned.basic_of_outcome {r : Returned V E} {errorPath : Bool} {o : Outcome V E}
    (h : r.outcome? errorPath = some o) : r.basic errorPath = instant o := by
  cases r with
  | continuable c => cases h
  | thrown _ | void | value _ | plainTag _ | pair _ _ | tuple _ | result _ | emptyResult
  | cancellationResult | exceptionalResult _ =>
    obtain rfl := Option.some.inj h
    rfl

/-! ### The form -/

lemma reactBasic_isBasic {work : Continuation V E} (h : work.IsBasic) (r : Reaction E) :
    (reactBasic r work).IsBasic := by
  cases r with
  | run => exact h
  | reject e => trivial
  | cancel => trivial
  | drop => trivial

lemma Executor.basic_isBasic {work : Continuation V E} (h : work.IsBasic) (executor : Executor E) :
    (executor.basic work).IsBasic := by
  rcases executor with _ | ⟨_ | n, r⟩
  · exact h
  · exact reactBasic_isBasic h r
  · exact ⟨trivial, fun _ => reactBasic_isBasic h r, rfl⟩

mutual

lemma Continuation.basic_isBasic (c : Continuation V E) : c.basic.IsBasic := by
  match c with
  | .lazy event outcome => trivial
  | .ready r => trivial
  | .erased c => exact Continuation.basic_isBasic c
  | .async callback executor input =>
    exact executor.basic_isBasic (Returned.basic_isBasic (callback input) input.onErrorPath)
  | .chained hr he c accepts callback executor =>
    exact ⟨Continuation.basic_isBasic c, fun input => executor.basic_isBasic
      (Returned.basic_isBasic (callback input) input.onErrorPath), rfl⟩
  | .connected s members => exact allBasic_isBasic members

lemma Returned.basic_isBasic (r : Returned V E) (errorPath : Bool) :
    (r.basic errorPath).IsBasic := by
  match r with
  | .continuable c => exact Continuation.basic_isBasic c
  | .thrown _ | .void | .value _ | .plainTag _ | .pair .. | .tuple _ | .result _ | .emptyResult
  | .cancellationResult | .exceptionalResult _ => trivial

lemma allBasic_isBasic (members : List (Continuation V E)) : AllBasic (allBasic members) := by
  match members with
  | [] => trivial
  | c :: members => exact ⟨Continuation.basic_isBasic c, allBasic_isBasic members⟩

end

/-! ### The meaning -/

lemma reactBasic_meaning (r : Reaction E) (work : Continuation V E) :
    (reactBasic r work).meaning = react r work.meaning := by
  cases r <;> rfl

lemma Executor.basic_meaning (executor : Executor E) (work : Continuation V E) :
    (executor.basic work).meaning = executor.meaning work.meaning := by
  rcases executor with _ | ⟨_ | n, r⟩
  · rfl
  · exact reactBasic_meaning r work
  · calc ((Executor.custom (some n) r).basic work).meaning
      _ = (upon (happens n) (.called (.value []))).bind
            (link .yes .no (fun _ => true) .thisThread fun _ => (reactBasic r work).meaning) := rfl
      _ = (upon (happens n) ()).bind fun _ => (reactBasic r work).meaning := Wait.upon_bind ..
      _ = (upon (happens n) ()).bind fun _ => react r work.meaning := by
        rw [reactBasic_meaning r work]

/-- An executor may as well be part of the handler. -/
lemma link_thisThread (hr : HandleResults) (he : HandleErrors) (accepts : ℕ → Bool)
    (executor : Executor E) (handler : Signal V E → Meaning V E) :
    link hr he accepts .thisThread (fun input => executor.meaning (handler input)) =
      link hr he accepts executor handler := by
  funext u
  cases u with
  | destroyed => rfl
  | called s =>
    rw [link, link]
    cases handled hr he accepts s with
    | none => rfl
    | some input => rfl

mutual

lemma Continuation.basic_meaning (c : Continuation V E) : c.basic.meaning = c.meaning := by
  match c with
  | .lazy event outcome => rfl
  | .ready r => rfl
  | .erased c => exact Continuation.basic_meaning c
  | .async callback executor input =>
    rw [Continuation.basic, executor.basic_meaning,
      Returned.basic_meaning (callback input) input.onErrorPath, Continuation.meaning]
  | .chained hr he c accepts callback executor =>
    have hhandler : (fun input : Signal V E => (executor.basic
        ((callback input).basic input.onErrorPath)).meaning) =
        fun input => executor.meaning ((callback input).meaning input.onErrorPath) := by
      funext input
      rw [executor.basic_meaning, Returned.basic_meaning (callback input) input.onErrorPath]
    calc (Continuation.chained hr he c accepts callback executor).basic.meaning
      _ = c.basic.meaning.bind (link hr he accepts .thisThread fun input =>
            (executor.basic ((callback input).basic input.onErrorPath)).meaning) := rfl
      _ = c.meaning.bind (link hr he accepts executor fun input =>
            (callback input).meaning input.onErrorPath) := by
        rw [hhandler, link_thisThread, Continuation.basic_meaning c]
      _ = (Continuation.chained hr he c accepts callback executor).meaning := rfl
  | .connected s members =>
    rw [Continuation.basic, Continuation.meaning, Continuation.meaning, allBasic_meanings members]

lemma Returned.basic_meaning (r : Returned V E) (errorPath : Bool) :
    (r.basic errorPath).meaning = r.meaning errorPath := by
  match r with
  | .void => cases errorPath <;> rfl
  | .continuable c => exact Continuation.basic_meaning c
  | .thrown _ | .value _ | .plainTag _ | .pair .. | .tuple _ | .result _ | .emptyResult
  | .cancellationResult | .exceptionalResult _ => rfl

lemma allBasic_meanings (members : List (Continuation V E)) :
    meanings (allBasic members) = meanings members := by
  match members with
  | [] => rfl
  | c :: members =>
    rw [allBasic, meanings, meanings, Continuation.basic_meaning c, allBasic_meanings members]

end

/-! ### The hint -/

section hints

variable {T : Type} [DecidableEq T] {hasType : V → T → Prop}

lemma reactBasic_hasHint {work : Continuation V E} {hint : List T}
    (h : work.HasHint hasType hint) (r : Reaction E) :
    (reactBasic r work).HasHint hasType hint := by
  cases r with
  | run => exact h
  | reject e => trivial
  | cancel => trivial
  | drop => trivial

lemma Executor.basic_hasHint {work : Continuation V E} {hint : List T}
    (h : work.HasHint hasType hint) (executor : Executor E) :
    (executor.basic work).HasHint hasType hint := by
  rcases executor with _ | ⟨_ | n, r⟩
  · exact h
  · exact reactBasic_hasHint h r
  · refine ⟨[], .nil, ⟨.continuable hint, fun _ _ _ => ?_, rfl⟩, fun herror => ?_⟩
    · exact ⟨hint, reactBasic_hasHint h r, rfl⟩
    · cases herror

lemma Returned.basic_hasHint_of_outcome {r : Returned V E} {errorPath : Bool} {o : Outcome V E}
    {hint : List T} (ho : r.outcome? errorPath = some o) (h : Fits hasType hint o) :
    (r.basic errorPath).HasHint hasType hint := by
  rw [r.basic_of_outcome ho]
  exact h

mutual

lemma Continuation.basic_hasHint {c : Continuation V E} {hint : List T}
    (h : c.HasHint hasType hint) : c.basic.HasHint hasType hint := by
  match c with
  | .lazy event outcome => exact h
  | .ready r => exact h
  | .erased c => exact Continuation.basic_hasHint (c := c) h
  | .async callback executor input =>
    obtain ⟨ty, hty, rfl⟩ := h
    exact executor.basic_hasHint (Returned.basic_hasHint hty input.onErrorPath)
  | .chained hr he c accepts callback executor =>
    obtain ⟨current, hc, ⟨ty, hty, rfl⟩, herror⟩ := h
    refine ⟨current, Continuation.basic_hasHint hc,
      ⟨.continuable ty.hint, fun hyes args hargs => ?_, ?_⟩,
      fun hforward => ⟨.continuable (nextHintOf hr ty current), .inr rfl, fun e => ?_⟩⟩
    · exact ⟨ty.hint, executor.basic_hasHint
        (Returned.basic_hasHint (hty hyes args hargs) false), rfl⟩
    · cases hr <;> rfl
    · obtain ⟨ty', hsilent | hsame, hty'⟩ := herror hforward
      · obtain ⟨o, ho, hfits⟩ := exists_of_silent (hty' e) hsilent
        exact ⟨_, executor.basic_hasHint
          (Returned.basic_hasHint_of_outcome ho (hfits _)), rfl⟩
      · rw [← hsame]
        exact ⟨_, executor.basic_hasHint (Returned.basic_hasHint (hty' e) true), rfl⟩
  | .connected s members =>
    obtain ⟨hints, hmembers, hs⟩ := h
    exact ⟨hints, allBasic_haveHints hmembers, hs⟩

lemma Returned.basic_hasHint {r : Returned V E} {ty : ReturnTy T} (h : r.HasType hasType ty)
    (errorPath : Bool) : (r.basic errorPath).HasHint hasType ty.hint := by
  match r with
  | .continuable c =>
    obtain ⟨hint, hc, rfl⟩ := h
    exact Continuation.basic_hasHint (c := c) hc
  | .thrown _ | .void | .value _ | .plainTag _ | .pair _ _ | .tuple _ | .result _
  | .emptyResult | .cancellationResult | .exceptionalResult _ =>
    exact Returned.basic_hasHint_of_outcome rfl (fits_of_hasType h errorPath rfl)

lemma allBasic_haveHints {members : List (Continuation V E)} {hints : List (List T)}
    (h : HaveHints hasType members hints) : HaveHints hasType (allBasic members) hints := by
  match members with
  | [] => exact h
  | c :: members =>
    obtain ⟨hint, rest, hc, hrest, rfl⟩ := h
    exact ⟨hint, rest, Continuation.basic_hasHint hc, allBasic_haveHints hrest, rfl⟩

end

end hints

/-- **Every continuable is made of sources, links and connections.** In every run, it does with its
callback what the continuable does that has no type erasures, ready continuations, executors or
`async` in it, and whose handlers return nothing but continuables; it has the same hints, too. -/
theorem basic_equivalent (c : Continuation V E) :
    c.basic.IsBasic ∧ Equivalent c c.basic ∧
      ∀ (T : Type) [DecidableEq T] (hasType : V → T → Prop) (hint : List T),
        c.HasHint hasType hint → c.basic.HasHint hasType hint :=
  ⟨c.basic_isBasic, equivalent_iff.2 c.basic_meaning.symm,
    fun _ _ _ _ h => Continuation.basic_hasHint h⟩

end Continuable.Runtime
