import Continuable.RuntimeSubmitter
import Continuable.Waiting

/-!
What a continuable means.

The meaning of a continuable is what its callback is used for, and when: a link goes on with what
the continuation before it comes to, and a connection gathers what its members come to. What is left
of a continuable after some events means what is left of its meaning.
-/

namespace Continuable.Runtime

open Chain (HandleResults HandleErrors Reaction handled)
open ChainDestruction (Use useOf)
open Operators (Strategy)
open Waiting (Wait)
open Waiting.Wait (now upon gather)

variable {V E : Type}

abbrev Meaning (V E : Type) := Wait ℕ (Use V E)

/-- The event happens. -/
def happens (n e : ℕ) : Bool := n = e

def react (reaction : Reaction E) (work : Meaning V E) : Meaning V E :=
  match reaction with
  | .run => work
  | .reject e => now (.called (.exception e))
  | .cancel => now (.called (.exception none))
  | .drop => now .destroyed

def Executor.meaning (executor : Executor E) (work : Meaning V E) : Meaning V E :=
  match executor with
  | .thisThread => work
  | .custom none reaction => react reaction work
  | .custom (some n) reaction => (upon (happens n) ()).bind fun _ => react reaction work

/-- What a link makes of the use of its proxy. -/
def link (hr : HandleResults) (he : HandleErrors) (accepts : ℕ → Bool) (executor : Executor E)
    (handler : Signal V E → Meaning V E) : Use V E → Meaning V E
  | .destroyed => now .destroyed
  | .called s =>
    match handled hr he accepts s with
    | none => now (.called s)
    | some input => executor.meaning (handler input)

mutual

def Continuation.meaning : Continuation V E → Meaning V E
  | .lazy none outcome => now (useOf outcome)
  | .lazy (some n) outcome => upon (happens n) (useOf outcome)
  | .ready r => now (useOf r.outcome)
  | .erased c => c.meaning
  | .async callback executor input =>
    executor.meaning ((callback input).meaning input.onErrorPath)
  | .chained hr he c accepts callback executor =>
    c.meaning.bind (link hr he accepts executor fun input =>
      (callback input).meaning input.onErrorPath)
  | .connected s members => gather (verdict s true) (meanings members)

def Returned.meaning : Returned V E → Bool → Meaning V E
  | .thrown e, _ => now (.called (.exception (some e)))
  | .void, errorPath => now (if errorPath then .destroyed else .called (.value []))
  | .value v, _ => now (.called (.value [v]))
  | .plainTag v, _ => now (.called (.value [v]))
  | .pair v w, _ => now (.called (.value [v, w]))
  | .tuple vs, _ => now (.called (.value vs))
  | .result r, _ => now (useOf r.outcome)
  | .emptyResult, _ => now .destroyed
  | .cancellationResult, _ => now (.called (.exception none))
  | .exceptionalResult e, _ => now (.called (.exception e))
  | .continuable c, _ => c.meaning

def meanings : List (Continuation V E) → List (Meaning V E)
  | [] => []
  | c :: members => c.meaning :: meanings members

end

/-- What a handler comes to by itself, if it returns no continuable. -/
def Returned.outcome? : Returned V E → Bool → Option (Outcome V E)
  | .thrown e, _ => some (some (.exception (some e)))
  | .void, errorPath => some (if errorPath then none else some (.value []))
  | .value v, _ => some (some (.value [v]))
  | .plainTag v, _ => some (some (.value [v]))
  | .pair v w, _ => some (some (.value [v, w]))
  | .tuple vs, _ => some (some (.value vs))
  | .result r, _ => some r.outcome
  | .emptyResult, _ => some none
  | .cancellationResult, _ => some (some (.exception none))
  | .exceptionalResult e, _ => some (some (.exception e))
  | .continuable _, _ => none

lemma Returned.meaning_of_outcome {r : Returned V E} {errorPath : Bool} {o : Outcome V E}
    (h : r.outcome? errorPath = some o) : r.meaning errorPath = now (useOf o) := by
  cases r with
  | void =>
    obtain rfl := Option.some.inj h
    cases errorPath <;> rfl
  | continuable c => cases h
  | thrown _ | value _ | plainTag _ | pair _ _ | tuple _ | result _ | emptyResult
  | cancellationResult | exceptionalResult _ =>
    obtain rfl := Option.some.inj h
    rfl

/-! ### What is left of a continuable -/

namespace Node

/-- Induction over nodes, with the hypothesis for everything inside. -/
@[elab_as_elim]
theorem induct {motive : Node V E → Prop} (used : ∀ u, motive (.used u))
    (lazy : ∀ n o, motive (.lazy n o)) (queued : ∀ n r c i, motive (.queued n r c i))
    (chained : ∀ hr he accepts callback executor inner handed, motive inner →
      (∀ m ∈ handed, motive m) →
      motive (.chained hr he accepts callback executor inner handed))
    (connected : ∀ shared members, (∀ m ∈ members, motive m) →
      motive (.connected shared members)) : ∀ n, motive n
  | .used u => used u
  | .lazy n o => lazy n o
  | .queued n r c i => queued n r c i
  | .chained hr he accepts callback executor inner handed =>
    chained hr he accepts callback executor inner handed
      (induct used lazy queued chained connected inner)
      fun m _ => induct used lazy queued chained connected m
  | .connected shared members =>
    connected shared members fun m _ => induct used lazy queued chained connected m

mutual

def meaning : Node V E → Meaning V E
  | .used u => now u
  | .lazy n outcome => upon (happens n) (useOf outcome)
  | .queued n reaction callback input =>
    (upon (happens n) ()).bind fun _ =>
      react reaction ((callback input).meaning input.onErrorPath)
  | .chained hr he accepts callback executor inner handed =>
    match allMeanings handed with
    | [] => inner.meaning.bind (link hr he accepts executor fun input =>
        (callback input).meaning input.onErrorPath)
    | w :: _ => w
  | .connected shared members =>
    match shared.uses with
    | [] => gather (verdict shared.submitter.strategy true) (allMeanings members)
    | u :: _ => now u

def allMeanings : List (Node V E) → List (Meaning V E)
  | [] => []
  | m :: nodes => m.meaning :: allMeanings nodes

end

/-- What the members did to their callbacks. -/
def statuses (members : List (Node V E)) : List (Option (Use V E)) :=
  members.map fun m => m.uses.head?

mutual

/-- A link hands its next callback over when its proxy is used, and a submitter keeps track of its
members. -/
def Valid : Node V E → Prop
  | .used _ | .lazy .. | .queued .. => True
  | .chained _ _ _ _ _ inner handed =>
    inner.Valid ∧ AllValid handed ∧ handed.length = inner.uses.length
  | .connected shared members =>
    AllValid members ∧
      ∃ o, Tracks shared.submitter.strategy true members.length shared (statuses members) o

def AllValid : List (Node V E) → Prop
  | [] => True
  | m :: nodes => m.Valid ∧ AllValid nodes

end

lemma allValid_iff {nodes : List (Node V E)} : AllValid nodes ↔ ∀ m ∈ nodes, m.Valid := by
  induction nodes with
  | nil => simp [AllValid]
  | cons m nodes ih => simp [AllValid, ih]

lemma allMeanings_eq (nodes : List (Node V E)) : allMeanings nodes = nodes.map meaning := by
  induction nodes with
  | nil => rfl
  | cons m nodes ih => rw [allMeanings, ih, List.map_cons]

lemma resolveAll_eq (n : ℕ) (nodes : List (Node V E)) :
    resolveAll n nodes = nodes.map (resolve n) := by
  induction nodes with
  | nil => rfl
  | cons m nodes ih => rw [resolveAll, ih, List.map_cons]

lemma length_uses {m : Node V E} (h : m.Valid) : m.uses.length ≤ 1 := by
  induction m using induct with
  | used u => exact Nat.le_refl 1
  | lazy n o => exact Nat.zero_le 1
  | queued n r c i => exact Nat.zero_le 1
  | chained hr he accepts callback executor inner handed ihinner ihhanded =>
    obtain ⟨hinner, hhanded, hlength⟩ := h
    have hone := ihinner hinner
    rcases handed with _ | ⟨m, _ | ⟨m', handed⟩⟩
    · exact Nat.zero_le 1
    · have hm := ihhanded m (List.mem_singleton_self m) (allValid_iff.1 hhanded m (by simp))
      simpa [uses, allUses] using hm
    · simp only [List.length_cons] at hlength
      omega
  | connected shared members _ =>
    obtain ⟨-, o, ho⟩ := h
    cases o with
    | none => rw [uses, ho.uses]; exact Nat.zero_le 1
    | some x => rw [uses, ho.uses]; exact Nat.le_refl 1

lemma uses_eq {m : Node V E} (h : m.Valid) : m.uses = m.uses.head?.toList := by
  have hlength := length_uses h
  rcases hu : m.uses with _ | ⟨u, _ | ⟨u', us⟩⟩
  · rfl
  · rfl
  · simp [hu] at hlength

lemma known_nil {m : Node V E} (h : m.Valid) : m.meaning.known [] = m.uses.head? := by
  induction m using induct with
  | used u => rfl
  | lazy n o => rfl
  | queued n r c i => rfl
  | chained hr he accepts callback executor inner handed ihinner ihhanded =>
    obtain ⟨hinner, hhanded, hlength⟩ := h
    rcases handed with _ | ⟨m, handed⟩
    · have huses : inner.uses = [] := List.length_eq_zero_iff.1 hlength.symm
      have hnone : inner.meaning.known [] = none := by rw [ihinner hinner, huses]; rfl
      exact Wait.bind_known_nil hnone
    · have hone := length_uses hinner
      obtain rfl : handed = [] := by
        rw [← hlength, List.length_cons] at hone
        exact List.length_eq_zero_iff.1 (by omega)
      have hm := ihhanded m (by simp) (allValid_iff.1 hhanded m (by simp))
      simpa [meaning, allMeanings, uses, allUses] using hm
  | connected shared members ih =>
    obtain ⟨hmembers, o, ho⟩ := h
    cases o with
    | none =>
      have hheads : (allMeanings members).map (fun w => w.known []) = statuses members := by
        rw [allMeanings_eq, List.map_map]
        exact List.map_congr_left fun m hm => ih m hm (allValid_iff.1 hmembers m hm)
      rw [meaning, uses, ho.uses]
      simp only [Wait.gather_nil, hheads, List.head?_nil]
      exact ho.verdict
    | some x => rw [meaning, uses, ho.uses]; rfl

end Node

/-! ### One step -/

section links

variable {hr : HandleResults} {he : HandleErrors} {accepts : ℕ → Bool}
  {callback : Signal V E → Returned V E} {executor : Executor E}

/-- A node that does what a meaning says. -/
structure Represents (m : Node V E) (w : Meaning V E) : Prop where
  valid : m.Valid
  meaning : m.meaning = w

lemma represents_used (u : Use V E) : Represents (.used u) (now u) := ⟨trivial, rfl⟩

lemma Represents.known_nil {m : Node V E} {w : Meaning V E} (h : Represents m w) :
    w.known [] = m.uses.head? := by
  rw [← h.meaning]
  exact m.known_nil h.valid

lemma Represents.perform {m : Node V E} {w : Meaning V E} (h : Represents m w)
    (reaction : Reaction E) : Represents (perform reaction m) (react reaction w) := by
  cases reaction with
  | run => exact h
  | reject e => exact represents_used _
  | cancel => exact represents_used _
  | drop => exact represents_used _

lemma Represents.onExecutor {m : Node V E} {input : Signal V E}
    (h : Represents m ((callback input).meaning input.onErrorPath)) (executor : Executor E) :
    Represents (onExecutor executor callback input m)
      (executor.meaning ((callback input).meaning input.onErrorPath)) := by
  rcases executor with _ | ⟨_ | n, reaction⟩
  · exact h
  · exact h.perform reaction
  · exact ⟨trivial, rfl⟩

/-- What the handlers of a link come to is represented by the nodes that they become. -/
def Invokes (callback : Signal V E → Returned V E) : Prop :=
  ∀ input, Represents ((callback input).decorate input.onErrorPath)
    ((callback input).meaning input.onErrorPath)

lemma callbackBase_represents (h : Invokes callback) (u : Use V E) :
    Represents
      (callbackBase hr he accepts callback executor
        (fun input => (callback input).decorate input.onErrorPath) u)
      (link hr he accepts executor (fun input =>
        (callback input).meaning input.onErrorPath) u) := by
  cases u with
  | destroyed => exact represents_used _
  | called s =>
    rw [callbackBase, link]
    cases handled hr he accepts s with
    | none => exact represents_used _
    | some input => exact (h input).onExecutor executor

/-- A link that has handed its next callback over, if its proxy was used. -/
lemma Represents.chained {inner : Node V E} {w : Meaning V E} (h : Represents inner w)
    (hc : Invokes callback) :
    Represents
      (.chained hr he accepts callback executor inner
        (inner.uses.map (callbackBase hr he accepts callback executor fun input =>
          (callback input).decorate input.onErrorPath)))
      (w.bind (link hr he accepts executor fun input =>
        (callback input).meaning input.onErrorPath)) := by
  have hnil := h.known_nil
  rw [inner.uses_eq h.valid]
  cases hu : inner.uses.head? with
  | none =>
    have hnone : inner.uses = [] := List.head?_eq_none_iff.1 hu
    refine ⟨⟨h.valid, trivial, by simp [hnone]⟩, ?_⟩
    rw [← h.meaning]
    rfl
  | some u =>
    have hnode : Represents
        (callbackBase hr he accepts callback executor
          (fun input => (callback input).decorate input.onErrorPath) u)
        (link hr he accepts executor (fun input =>
          (callback input).meaning input.onErrorPath) u) := callbackBase_represents hc u
    have hone : inner.uses = [u] := by rw [inner.uses_eq h.valid, hu]; rfl
    rw [hu] at hnil
    refine ⟨⟨h.valid, ⟨hnode.valid, trivial⟩, by simp [hone]⟩, ?_⟩
    rw [Wait.bind_of_some hnil]
    exact hnode.meaning

end links

lemma known_statuses {members : List (Node V E)} (hm : ∀ m ∈ members, m.Valid) :
    (members.map Node.meaning).map (fun w => w.known []) = Node.statuses members := by
  rw [List.map_map]
  exact List.map_congr_left fun m hmem => m.known_nil (hm m hmem)

lemma represents_connected {s : Strategy} {shared : Shared V E} {members : List (Node V E)}
    (hm : ∀ m ∈ members, m.Valid)
    (h : Tracks s true members.length shared (Node.statuses members)
      (verdict s true (Node.statuses members))) :
    Represents (.connected shared members)
      (gather (verdict s true) (members.map Node.meaning)) := by
  cases hv : verdict s true (Node.statuses members) with
  | none =>
    rw [hv] at h
    refine ⟨⟨Node.allValid_iff.2 hm, none, by rw [h.strategy]; exact h⟩, ?_⟩
    rw [Node.meaning, h.uses, h.strategy, Node.allMeanings_eq]
  | some x =>
    rw [hv] at h
    refine ⟨⟨Node.allValid_iff.2 hm, some x, by rw [h.strategy]; exact h⟩, ?_⟩
    have hnow : (gather (verdict s true) (members.map Node.meaning)).known [] = some x := by
      rw [Wait.gather_nil, known_statuses hm, hv]
    rw [Node.meaning, h.uses, Wait.eq_now hnow]

/-! ### Starting a continuable -/

lemma meaning_of_ready {c : Continuation V E} {r : Result V E} (h : c.unpack = some r) :
    c.meaning = now (useOf r.outcome) := by
  match c with
  | .ready r' =>
    obtain rfl : r' = r := Option.some.inj h
    rfl
  | .erased c => exact meaning_of_ready (c := c) h
  | .lazy .. | .async .. | .chained .. | .connected .. => cases h

lemma source_represents {c : Continuation V E} {m : Node V E} (h : Represents m c.meaning) :
    Represents (source c m) c.meaning := by
  unfold source
  split
  · rename_i r _ hr
    rw [meaning_of_ready hr]
    exact represents_used _
  · exact h

lemma represents_dispatch (s : Strategy) {nodes : List (Node V E)} (hm : ∀ m ∈ nodes, m.Valid) :
    Represents
      (.connected ((Shared.init s nodes.length).dispatch 0 (nodes.map Node.uses)) nodes)
      (gather (verdict s true) (nodes.map Node.meaning)) := by
  have hone : ∀ us ∈ nodes.map Node.uses, us.length ≤ 1 := by
    intro us hus
    obtain ⟨m, hmem, rfl⟩ := List.mem_map.1 hus
    exact Node.length_uses (hm m hmem)
  have hstatuses : (nodes.map Node.uses).map List.head? = Node.statuses nodes := by
    rw [List.map_map]
    rfl
  have hdispatch := (init_open s nodes.length).dispatch hone (by simp)
  rw [List.nil_append, hstatuses] at hdispatch
  exact represents_connected hm hdispatch

mutual

/-- **A continuable that is started** is represented by its node. -/
theorem Continuation.start_represents (c : Continuation V E) : Represents c.start c.meaning := by
  match c with
  | .lazy none o => exact represents_used _
  | .lazy (some n) o => exact ⟨trivial, rfl⟩
  | .ready r => exact represents_used _
  | .erased c => exact c.start_represents
  | .async callback executor input =>
    exact ((callback input).decorate_represents input.onErrorPath).onExecutor executor
  | .chained hr he c accepts callback executor =>
    exact (source_represents c.start_represents).chained fun input =>
      (callback input).decorate_represents input.onErrorPath
  | .connected s members =>
    obtain ⟨hvalid, hmeanings⟩ := startAll_represents members
    rw [Continuation.meaning, ← hmeanings]
    exact represents_dispatch s hvalid

theorem Returned.decorate_represents (r : Returned V E) (errorPath : Bool) :
    Represents (r.decorate errorPath) (r.meaning errorPath) := by
  match r with
  | .continuable c => exact c.start_represents
  | .thrown _ | .void | .value _ | .plainTag _ | .pair _ _ | .tuple _ | .result _
  | .emptyResult | .cancellationResult | .exceptionalResult _ => exact represents_used _

theorem startAll_represents (members : List (Continuation V E)) :
    (∀ m ∈ startAll members, m.Valid) ∧
      (startAll members).map Node.meaning = meanings members := by
  match members with
  | [] => exact ⟨by simp [startAll], rfl⟩
  | c :: members =>
    have hc := c.start_represents
    obtain ⟨hvalid, hmeanings⟩ := startAll_represents members
    rw [startAll, meanings, List.map_cons, hc.meaning, hmeanings]
    exact ⟨List.forall_mem_cons.2 ⟨hc.valid, hvalid⟩, rfl⟩

end

/-! ### Events -/

namespace Node

lemma fed_newUses {n : ℕ} {members : List (Node V E)} (hm : ∀ m ∈ members, m.Valid)
    (hr : ∀ m ∈ members, Represents (m.resolve n) (m.meaning.after n)) :
    Fed (statuses members) (statuses (members.map (resolve n)))
      (newUses members (members.map (resolve n))) := by
  induction members with
  | nil => exact .nil
  | cons m members ih =>
    obtain ⟨hvalid, hmrest⟩ := List.forall_mem_cons.1 hm
    obtain ⟨hresolve, hrrest⟩ := List.forall_mem_cons.1 hr
    have hrest := ih hmrest hrrest
    have hknown := m.known_nil hvalid
    have hnew := hresolve.known_nil
    have hnewuses := (m.resolve n).uses_eq hresolve.valid
    change Fed (m.uses.head? :: statuses members)
      ((m.resolve n).uses.head? :: statuses (members.map (resolve n)))
      ((m.resolve n).uses.drop m.uses.length :: newUses members (members.map (resolve n)))
    rw [m.uses_eq hvalid]
    cases hu : m.uses.head? with
    | some u =>
      -- the callback was used before
      rw [hu] at hknown
      rw [Wait.eq_now hknown] at hnew
      rw [hnewuses, ← hnew]
      exact .same (some u) hrest
    | none =>
      rw [hnewuses]
      cases (m.resolve n).uses.head? with
      | none => exact .same none hrest
      | some u => exact .uses u hrest

/-- **An event leaves of a node what is left of its meaning.** -/
theorem resolve_represents (n : ℕ) {m : Node V E} (h : m.Valid) :
    Represents (m.resolve n) (m.meaning.after n) := by
  induction m using induct with
  | used u => exact represents_used u
  | lazy k o =>
    rw [resolve, meaning, Wait.upon_after]
    simp only [happens, decide_eq_true_eq]
    split_ifs
    · exact represents_used _
    · exact ⟨trivial, rfl⟩
  | queued k reaction callback input =>
    rw [resolve, meaning, Wait.bind_after rfl, Wait.upon_after]
    simp only [happens, decide_eq_true_eq]
    split_ifs
    · rw [Wait.now_bind]
      exact ((callback input).decorate_represents input.onErrorPath).perform reaction
    · exact ⟨trivial, rfl⟩
  | chained hr he accepts callback executor inner handed ihinner ihhanded =>
    obtain ⟨hinner, hhanded, hlength⟩ := h
    have hresolve := ihinner hinner
    have hone := length_uses hinner
    rcases handed with _ | ⟨m, handed⟩
    · -- the proxy was not used before this event
      have huses : inner.uses = [] := List.length_eq_zero_iff.1 hlength.symm
      have hnone : inner.meaning.known [] = none := by rw [known_nil hinner, huses]; rfl
      rw [resolve, meaning, allMeanings, Wait.bind_after hnone, huses]
      exact hresolve.chained fun input => (callback input).decorate_represents input.onErrorPath
    · obtain rfl : handed = [] := by
        rw [← hlength, List.length_cons] at hone
        exact List.length_eq_zero_iff.1 (by omega)
      have hm := ihhanded m (by simp) (allValid_iff.1 hhanded m (by simp))
      -- the proxy is not used again
      have hknown := known_nil hinner
      obtain ⟨u, hu⟩ := List.length_eq_one_iff.1 hlength.symm
      rw [hu] at hknown
      have hstays := hresolve.known_nil
      rw [Wait.eq_now hknown] at hstays
      have huses : (inner.resolve n).uses = [u] := by
        rw [uses_eq hresolve.valid, ← hstays]
        rfl
      rw [resolve, hu, huses]
      exact ⟨⟨hresolve.valid, ⟨hm.valid, trivial⟩, by rw [huses]; rfl⟩, hm.meaning⟩
  | connected shared members ih =>
    obtain ⟨hmembers, o, ho⟩ := h
    have hvalid := allValid_iff.1 hmembers
    have hr : ∀ m ∈ members, Represents (m.resolve n) (m.meaning.after n) :=
      fun m hm => ih m hm (hvalid m hm)
    have hvalid' : ∀ m ∈ members.map (resolve n), m.Valid := by
      intro m hm
      obtain ⟨m', hm', rfl⟩ := List.mem_map.1 hm
      exact (hr m' hm').valid
    have hfed := fed_newUses hvalid hr
    have hlength : (statuses members).length = members.length := List.length_map ..
    rw [resolve, resolveAll_eq]
    cases o with
    | none =>
      have hmeanings : (members.map meaning).map (fun w => w.after n) =
          (members.map (resolve n)).map meaning := by
        rw [List.map_map, List.map_map]
        exact List.map_congr_left fun m hm => (hr m hm).meaning.symm
      have hreceive := Open.receive (P := []) ho hfed hlength
      rw [← List.length_map (f := resolve n)] at hreceive
      have hnone : verdict shared.submitter.strategy true
          ((members.map meaning).map fun w => w.known []) = none := by
        rw [known_statuses hvalid]
        exact ho.verdict
      rw [meaning, ho.uses, allMeanings_eq]
      simp only
      rw [Wait.gather_after hnone, hmeanings]
      exact represents_connected hvalid' hreceive
    | some x =>
      -- the downstream callback is not used again
      have hreceive : Closed shared.submitter.strategy
          (shared.receive 0 (newUses members (members.map (resolve n))))
          (statuses (members.map (resolve n))) x := by
        rcases ho.settled with hflag | hall
        · have hflagged : Flagged shared.submitter.strategy shared x := ⟨rfl, ho.uses, hflag⟩
          exact (hflagged.receive 0 _).closed _
        · rw [hfed.receive_of_all hall, eq_of_extends hfed.extends hall]
          exact ho
      refine ⟨⟨allValid_iff.2 hvalid', some x, ?_⟩, ?_⟩
      · rw [hreceive.strategy]
        exact hreceive
      · rw [meaning, meaning, hreceive.uses, ho.uses]
        rfl

end Node

/-- **The meaning of a continuable is what is seen of its runs**: its callback is used at most once,
for what the meaning has come to. -/
theorem uses_eq_meaning (c : Continuation V E) (events : List ℕ) :
    uses c events = (c.meaning.known events).toList := by
  have hrun : ∀ (m : Node V E) (w : Meaning V E), Represents m w →
      (Schedule.run (fun node n => node.resolve n) m events).uses = (w.known events).toList := by
    intro m w h
    induction events generalizing m w with
    | nil => rw [Schedule.run_nil, h.known_nil]; exact m.uses_eq h.valid
    | cons n events ih =>
      have hstep := m.resolve_represents n h.valid
      rw [h.meaning] at hstep
      exact ih _ _ hstep
  exact hrun _ _ c.start_represents

end Continuable.Runtime
