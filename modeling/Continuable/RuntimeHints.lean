import Continuable.AnyPacks
import Continuable.RuntimeMeaning

/-!
Signature hints.

The annotation of a continuable lists the types of what its callback is called with. It is computed
from the types that the handlers return and from the annotations of the members of connections. A
continuable that has a hint never calls its callback with anything else.
-/

namespace Continuable.Runtime

open Any (deduceSameHints deduceSameHints_some)
open Chain (HandleResults HandleErrors Reaction handled partialInvoke)
open ChainDestruction (Use useOf)
open Operators (Strategy)
open Waiting (Wait)
open Waiting.Wait (now upon gather)

variable {V E T : Type}

/-! ### Hints -/

/-- The type that a handler returns. -/
inductive ReturnTy (T : Type)
  | void
  | value (t : T)
  | plainTag (t : T)
  | pair (first second : T)
  | tuple (ts : List T)
  | result (ts : List T)
  | emptyResult
  | cancellationResult
  | exceptionalResult
  | continuable (hint : List T)

namespace ReturnTy

/-- `invoker::hint`, as the overloads of `decoration::invoker_of` set it. -/
def hint : ReturnTy T → List T
  | .void => []
  | .value t => [t]
  | .plainTag t => [t]
  | .pair t u => [t, u]
  | .tuple ts => ts
  | .result ts => ts
  | .emptyResult => []
  | .cancellationResult => []
  | .exceptionalResult => []
  | .continuable hint => hint

/-- The invoker passes no values on when an error handler returns. -/
def silent : ReturnTy T → Bool
  | .void | .emptyResult | .cancellationResult | .exceptionalResult => true
  | .value _ | .plainTag _ | .pair .. | .tuple _ | .result _ | .continuable _ => false

end ReturnTy

/-- `next_hint_of`. -/
def nextHintOf (hr : HandleResults) (ty : ReturnTy T) (current : List T) : List T :=
  match hr with
  | .yes => ty.hint
  | .no => current

/-- The signature of a finalized connection: `hint_of_data`, or what the `result_deducer`
deduces. -/
def signature [DecidableEq T] (s : Strategy) (hints : List (List T)) : Option (List T) :=
  match s with
  | .all => some hints.flatten
  | .any => deduceSameHints (hints.map some)

/-! ### Continuables with hints -/

variable (hasType : V → T → Prop)

/-- The values of an outcome have the types of the hint. -/
def Fits (hint : List T) : Outcome V E → Prop
  | some (.value vs) => List.Forall₂ hasType vs hint
  | some (.exception _) | none => True

variable [DecidableEq T]

mutual

/-- The parts of a continuable fit together: sources resolve with values of their hints, and
handlers return values of their types when they are called with values of theirs. -/
def Continuation.HasHint : Continuation V E → List T → Prop
  | .lazy _ outcome, hint => Fits hasType hint outcome
  | .ready r, hint => Fits hasType hint r.outcome
  | .erased c, hint => c.HasHint hint
  | .async callback _ input, hint => ∃ ty, (callback input).HasType ty ∧ ty.hint = hint
  | .chained hr he c accepts callback _, hint =>
    ∃ current, c.HasHint current ∧
      (∃ ty, (hr = .yes → ∀ args, List.Forall₂ hasType args current →
        (callback (.value (partialInvoke accepts args))).HasType ty) ∧
          nextHintOf hr ty current = hint) ∧
      (he = .forward → ∃ ty : ReturnTy T, (ty.silent = true ∨ ty.hint = hint) ∧
        ∀ e, (callback (.exception e)).HasType ty)
  | .connected s members, hint => ∃ hints, HaveHints members hints ∧ signature s hints = some hint

/-- Exceptions may be thrown by handlers of all types. -/
def Returned.HasType : Returned V E → ReturnTy T → Prop
  | .thrown _, _ => True
  | .void, ty => ty = .void
  | .value v, ty => ∃ t, hasType v t ∧ ty = .value t
  | .plainTag v, ty => ∃ t, hasType v t ∧ ty = .plainTag t
  | .pair v w, ty => ∃ t u, hasType v t ∧ hasType w u ∧ ty = .pair t u
  | .tuple vs, ty => ∃ ts, List.Forall₂ hasType vs ts ∧ ty = .tuple ts
  | .result r, ty => ∃ ts, Fits hasType ts r.outcome ∧ ty = .result ts
  | .emptyResult, ty => ty = .emptyResult
  | .cancellationResult, ty => ty = .cancellationResult
  | .exceptionalResult _, ty => ty = .exceptionalResult
  | .continuable c, ty => ∃ hint, c.HasHint hint ∧ ty = .continuable hint

def HaveHints : List (Continuation V E) → List (List T) → Prop
  | [], hints => hints = []
  | c :: members, hints =>
      ∃ hint rest, c.HasHint hint ∧ HaveHints members rest ∧ hints = hint :: rest

end

/-! ### What is sent -/

/-- Only values of the types of the hint are sent. -/
def Sends (w : Meaning V E) (hint : List T) : Prop :=
  ∀ l vs, w.known l = some (.called (.value vs)) → List.Forall₂ hasType vs hint

variable {hasType}

omit [DecidableEq T]

lemma sends_now_value {vs : List V} {hint : List T} (h : List.Forall₂ hasType vs hint) :
    Sends (E := E) hasType (now (.called (.value vs))) hint := by
  intro l ws hl
  cases hl
  exact h

lemma sends_now_exception (e : Option E) (hint : List T) :
    Sends hasType (now (.called (.exception e))) hint := fun _ _ hl => by cases hl

lemma sends_now_destroyed (hint : List T) :
    Sends (E := E) hasType (now .destroyed) hint := fun _ _ hl => by cases hl

lemma sends_now_useOf {o : Outcome V E} {hint : List T} (h : Fits hasType hint o) :
    Sends hasType (now (useOf o)) hint := by
  rcases o with _ | vs | e
  · exact sends_now_destroyed hint
  · exact sends_now_value h
  · exact sends_now_exception e hint

lemma sends_of_outcome {r : Returned V E} {errorPath : Bool} {o : Outcome V E} {hint : List T}
    (ho : r.outcome? errorPath = some o) (h : Fits hasType hint o) :
    Sends hasType (r.meaning errorPath) hint := by
  rw [r.meaning_of_outcome ho]
  exact sends_now_useOf h

lemma sends_upon_useOf {o : Outcome V E} {hint : List T} (h : Fits hasType hint o)
    (p : ℕ → Bool) : Sends hasType (upon p (useOf o)) hint := by
  intro l vs hl
  simp only [upon] at hl
  split_ifs at hl
  exact sends_now_useOf h [] vs hl

lemma sends_bind {α : Type} {w : Wait ℕ α} {f : α → Meaning V E} {hint : List T}
    (h : ∀ a l, w.known l = some a → Sends hasType (f a) hint) :
    Sends hasType (w.bind f) hint := by
  intro l vs hl
  obtain ⟨a, ⟨l', ha⟩, m, hm⟩ := Wait.exists_of_bind hl
  exact h a l' ha m vs hm

lemma sends_react {w : Meaning V E} {hint : List T} (h : Sends hasType w hint) (r : Reaction E) :
    Sends hasType (react r w) hint := by
  cases r with
  | run => exact h
  | reject e => exact sends_now_exception e hint
  | cancel => exact sends_now_exception none hint
  | drop => exact sends_now_destroyed hint

lemma sends_executor {w : Meaning V E} {hint : List T} (h : Sends hasType w hint)
    (executor : Executor E) : Sends hasType (executor.meaning w) hint := by
  rcases executor with _ | ⟨_ | n, r⟩
  · exact h
  · exact sends_react h r
  · exact sends_bind fun _ _ _ => sends_react h r

lemma sends_link {hr : HandleResults} {he : HandleErrors} {accepts : ℕ → Bool}
    {executor : Executor E} {handler : Signal V E → Meaning V E} {current hint : List T}
    {w : Meaning V E} (hw : Sends hasType w current)
    (hno : hr = .no → current = hint)
    (hyes : hr = .yes → ∀ args, List.Forall₂ hasType args current →
      Sends hasType (handler (.value (partialInvoke accepts args))) hint)
    (herror : he = .forward → ∀ e, Sends hasType (handler (.exception e)) hint) :
    Sends hasType (w.bind (link hr he accepts executor handler)) hint := by
  refine sends_bind fun u l hl => ?_
  rcases u with (vs | e) | _
  · have hvs := hw l vs hl
    cases hr with
    | no => exact sends_now_value (hno rfl ▸ hvs)
    | yes => exact sends_executor (hyes rfl vs hvs) executor
  · cases he with
    | no => exact sends_now_exception e hint
    | forward => exact sends_executor (herror rfl e) executor
  · exact sends_now_destroyed hint

/-! ### Connections -/

/-- What a member did to its callback fits its hint. -/
def Answer (hasType : V → T → Prop) (i : Option (Use V E)) (hint : List T) : Prop :=
  ∀ vs, i = some (.called (.value vs)) → List.Forall₂ hasType vs hint

lemma forall₂_of_collected {ins : List (Option (Use V E))} {hints : List (List T)}
    (h : List.Forall₂ (Answer hasType) ins hints) (hall : ins.all Option.isSome = true)
    {vs : List V} (hvs : collected (ins.filterMap id) = some vs) :
    List.Forall₂ hasType vs hints.flatten := by
  induction h generalizing vs with
  | nil =>
    obtain rfl : [] = vs := Option.some.inj hvs
    exact .nil
  | @cons i hint ins hints hi _ ih =>
    rw [List.all_cons, Bool.and_eq_true] at hall
    obtain ⟨u, rfl⟩ := Option.isSome_iff_exists.1 hall.1
    rw [filterMap_some_cons] at hvs
    rcases u with (ws | e) | _
    · obtain ⟨rest, hrest, rfl⟩ := Option.map_eq_some_iff.1 hvs
      exact List.rel_append (hi ws rfl) (ih hall.2 hrest)
    · cases hvs
    · cases hvs

lemma forall₂_of_verdict [DecidableEq T] {s : Strategy} {ins : List (Option (Use V E))}
    {hints : List (List T)} {hint : List T} (h : List.Forall₂ (Answer hasType) ins hints)
    (hs : signature s hints = some hint) {vs : List V}
    (hv : verdict s true ins = some (.called (.value vs))) : List.Forall₂ hasType vs hint := by
  cases s with
  | all =>
    obtain rfl := Option.some.inj hs
    rcases Option.or_eq_some_iff.1 hv with hfind | ⟨-, hconclude⟩
    · cases List.find?_some hfind
    · split_ifs at hconclude with hall
      cases hc : collected (ins.filterMap id) with
      | none =>
        rw [conclude, hc] at hconclude
        cases hconclude
      | some ws =>
        rw [conclude, hc] at hconclude
        cases hconclude
        exact forall₂_of_collected h hall hc
  | any =>
    rcases Option.or_eq_some_iff.1 hv with hfind | ⟨-, hconclude⟩
    · obtain ⟨i, hi, rfl⟩ := List.mem_filterMap.1 (List.mem_of_find?_eq_some hfind)
      obtain ⟨hint', hmem, hanswer⟩ := exists_of_forall₂ h hi
      have hsame : some hint' = some hint :=
        (deduceSameHints_some hs).2 (some hint') (List.mem_map_of_mem hmem)
      cases hsame
      exact hanswer vs rfl
    · split_ifs at hconclude
      cases hconclude

lemma sends_gather [DecidableEq T] {s : Strategy} {ws : List (Meaning V E)}
    {hints : List (List T)} {hint : List T} (h : List.Forall₂ (Sends hasType) ws hints)
    (hs : signature s hints = some hint) :
    Sends hasType (gather (verdict s true) ws) hint := by
  intro l vs hl
  obtain ⟨m, hm⟩ := Wait.exists_of_gather hl
  have hanswers : List.Forall₂ (Answer hasType) (ws.map fun w => w.known m) hints := by
    rw [List.forall₂_map_left_iff]
    exact h.imp fun w hint hw => hw m
  exact forall₂_of_verdict hanswers hs hm

/-! ### Soundness -/

section soundness

variable [DecidableEq T]

lemma fits_of_hasType {r : Returned V E} {ty : ReturnTy T} (h : r.HasType hasType ty)
    (errorPath : Bool) {o : Outcome V E} (ho : r.outcome? errorPath = some o) :
    Fits hasType ty.hint o := by
  cases r with
  | continuable c => cases ho
  | void =>
    obtain rfl := h
    obtain rfl := Option.some.inj ho
    cases errorPath with
    | true => trivial
    | false => exact .nil
  | value v | plainTag v =>
    obtain ⟨t, hv, rfl⟩ := h
    obtain rfl := Option.some.inj ho
    exact .cons hv .nil
  | pair v w =>
    obtain ⟨t, u, hv, hw, rfl⟩ := h
    obtain rfl := Option.some.inj ho
    exact .cons hv (.cons hw .nil)
  | tuple vs =>
    obtain ⟨ts, hvs, rfl⟩ := h
    obtain rfl := Option.some.inj ho
    exact hvs
  | result r =>
    obtain ⟨ts, hfits, rfl⟩ := h
    obtain rfl := Option.some.inj ho
    exact hfits
  | thrown e | emptyResult | cancellationResult | exceptionalResult e =>
    obtain rfl := Option.some.inj ho
    trivial

/-- An error handler of such a type does not come to values. -/
lemma exists_of_silent {r : Returned V E} {ty : ReturnTy T} (h : r.HasType hasType ty)
    (hsilent : ty.silent = true) :
    ∃ o, r.outcome? true = some o ∧ ∀ hint, Fits hasType hint o := by
  cases r with
  | thrown e | void | emptyResult | cancellationResult | exceptionalResult e =>
    exact ⟨_, rfl, fun _ => trivial⟩
  | value v | plainTag v =>
    obtain ⟨t, -, rfl⟩ := h
    cases hsilent
  | pair v w =>
    obtain ⟨t, u, -, -, rfl⟩ := h
    cases hsilent
  | tuple vs | result r | continuable c =>
    obtain ⟨ts, -, rfl⟩ := h
    cases hsilent

mutual

lemma sends_of_hasHint {c : Continuation V E} {hint : List T} (h : c.HasHint hasType hint) :
    Sends hasType c.meaning hint := by
  match c with
  | .lazy none outcome => exact sends_now_useOf h
  | .lazy (some n) outcome => exact sends_upon_useOf h (happens n)
  | .ready r => exact sends_now_useOf h
  | .erased c => exact sends_of_hasHint (c := c) h
  | .async callback executor input =>
    obtain ⟨ty, hty, rfl⟩ := h
    exact sends_executor (sends_of_hasType hty input.onErrorPath) executor
  | .chained hr he c accepts callback executor =>
    obtain ⟨current, hc, ⟨ty, hty, rfl⟩, herror⟩ := h
    refine sends_link (sends_of_hasHint hc) (fun hno => ?_) (fun hyes args hargs => ?_)
      (fun hforward e => ?_)
    · rw [hno, nextHintOf]
    · subst hyes
      exact sends_of_hasType (hty rfl args hargs) false
    · obtain ⟨ty', hsilent | hsame, hty'⟩ := herror hforward
      · obtain ⟨o, ho, hfits⟩ := exists_of_silent (hty' e) hsilent
        exact sends_of_outcome ho (hfits _)
      · rw [← hsame]
        exact sends_of_hasType (hty' e) true
  | .connected s members =>
    obtain ⟨hints, hmembers, hs⟩ := h
    exact sends_gather (sends_of_haveHints hmembers) hs

lemma sends_of_hasType {r : Returned V E} {ty : ReturnTy T} (h : r.HasType hasType ty)
    (errorPath : Bool) : Sends hasType (r.meaning errorPath) ty.hint := by
  match r with
  | .continuable c =>
    obtain ⟨hint, hc, rfl⟩ := h
    exact sends_of_hasHint (c := c) hc
  | .thrown _ | .void | .value _ | .plainTag _ | .pair _ _ | .tuple _ | .result _
  | .emptyResult | .cancellationResult | .exceptionalResult _ =>
    exact sends_of_outcome rfl (fits_of_hasType h errorPath rfl)

lemma sends_of_haveHints {members : List (Continuation V E)} {hints : List (List T)}
    (h : HaveHints hasType members hints) :
    List.Forall₂ (Sends hasType) (meanings members) hints := by
  match members with
  | [] =>
    obtain rfl := h
    exact .nil
  | c :: members =>
    obtain ⟨hint, rest, hc, hrest, rfl⟩ := h
    exact .cons (sends_of_hasHint hc) (sends_of_haveHints hrest)

end

/-- **Annotations are right.** In every run, a continuable whose parts fit together calls its
callback with values of the types that its signature hint lists, or with an exception. -/
theorem called_of_hasHint {c : Continuation V E} {hint : List T} (h : c.HasHint hasType hint)
    (events : List ℕ) {vs : List V} (hcalled : .called (.value vs) ∈ uses c events) :
    List.Forall₂ hasType vs hint := by
  rw [uses_eq_meaning] at hcalled
  exact sends_of_hasHint h events vs (Option.mem_toList.1 hcalled)

end soundness

/-- A lazy source and a chain behind a ready continuable, connected. -/
def lazyAndReady : Continuation (Bool ⊕ ℕ) ℕ :=
  .connected .all [.lazy (some 0) (some (.value [.inl true])),
    .chained .yes .no (.ready (.value [.inr 1])) (fun _ => true)
      (fun _ => .pair (.inl false) (.inr 2)) .thisThread]

lemma lazyAndReady_hasHint :
    lazyAndReady.HasHint (fun v t => v.isLeft = t) [true, true, false] := by
  refine ⟨[[true], [true, false]], ⟨_, _, ?_, ⟨_, _, ?_, rfl, rfl⟩, rfl⟩, rfl⟩
  · exact .cons rfl .nil
  · refine ⟨[false], .cons rfl .nil, ⟨.pair true false, fun _ _ _ => ?_, rfl⟩, fun h => ?_⟩
    · exact ⟨true, false, rfl, rfl, rfl⟩
    · cases h

theorem called_of_hasHint_lazyAndReady :
    List.Forall₂ (fun (v : Bool ⊕ ℕ) t => v.isLeft = t) [.inl true, .inl false, .inr 2]
      [true, true, false] :=
  called_of_hasHint lazyAndReady_hasHint [0]
    (by rw [show uses lazyAndReady [0] =
      [.called (.value [.inl true, .inl false, .inr 2])] from rfl]; exact List.mem_singleton_self _)

end Continuable.Runtime
