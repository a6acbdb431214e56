import Continuable.OperatorVerdicts

/-!
The submitters of a tree after a history.

They are in the state that the verdicts of the nodes say: the counter of a submitter counts the
members it created callbacks for that have no values yet, its flag says whether it has a verdict,
and its boxes hold the values.
-/

namespace Continuable.Operators

variable {C V E : Type}

/-- What the callback of a node is called with when its verdict changes. -/
def newly (old new : Option (Signal V E)) : Option (Signal V E) :=
  match old with
  | none => new
  | some _ => none

/-- Of a member: whether the dispatch has come to it, and its verdict. -/
structure Status (V E : Type) where
  entered : Bool
  verdict : Option (Signal V E)

namespace Status

/-- A callback was created, and no values have come in. -/
def outstanding (x : Status V E) : Bool :=
  x.entered && !(x.verdict matches some (.value _))

def values (x : Status V E) : List V :=
  match x.verdict with
  | some (.value vs) => vs
  | _ => []

end Status

/-- The submitter of a connection whose members have these states. -/
def submitterAt (s : Strategy) (called : Bool) (dispatched : Bool) (l : List (Status V E)) :
    Submitter V E :=
  match s with
  | .all => ⟨.all, (if dispatched then 0 else 1) + l.countP Status.outstanding, called,
      l.map Status.values⟩
  | .any => ⟨.any, 1, called, l.map fun _ => []⟩

def phase (name p : ℕ) : Phase :=
  if p ≤ name then .idle else if p = name + 1 then .running else .returned

mutual

/-- The state of a continuable after a history. -/
def Continuation.nodeAt (first : ℕ) (h : History V E) : Continuation C → Node V E
  | .leaf _ => .leaf first (phase first (position h)) (leafVerdict first h).isSome
  | .finalized s members =>
    .connection
      (submitterAt s ((Continuation.finalized s members).verdict first h).isSome
        (reached (first + sizes members) h) (statuses first h members))
      (reached first h) (reached (first + sizes members) h) (nodesAt first h members)

def nodesAt (first : ℕ) (h : History V E) : List (Continuation C) → List (Node V E)
  | [] => []
  | c :: members => c.nodeAt first h :: nodesAt (first + c.size) h members

def statuses (first : ℕ) (h : History V E) : List (Continuation C) → List (Status V E)
  | [] => []
  | c :: members =>
    ⟨reached first h, c.verdict first h⟩ :: statuses (first + c.size) h members

end

lemma statuses_verdicts (first : ℕ) (h : History V E) (members : List (Continuation C)) :
    (statuses first h members).map Status.verdict = (verdicts first members).map fun v => v h := by
  induction members generalizing first with
  | nil => rfl
  | cons c members ih => simp only [statuses, verdicts, List.map_cons, ih]

/-! ### The submitter -/

section submitter

variable {s : Strategy} {d : Bool} {v : Option (Signal V E)}

/-- The verdict of a connection, once it takes account of its members. -/
def settle (s : Strategy) (d : Bool) (v : Option (Signal V E)) (l : List (Status V E)) :
    Option (Signal V E) :=
  v.or (combine s d (l.map Status.verdict))

/-- The verdict takes account of the members. -/
def Absorbed (s : Strategy) (d : Bool) (v : Option (Signal V E)) (l : List (Status V E)) : Prop :=
  settle s d v l = v

lemma newly_or (v x : Option (Signal V E)) :
    newly v (v.or x) = if v.isSome then none else x := by
  cases v <;> rfl

lemma callOnce_eq (s : Submitter V E) (signal : Signal V E) (v : Option (Signal V E))
    (hv : s.flag = v.isSome) :
    s.callOnce signal =
      ({ s with flag := (v.or (some signal)).isSome }, newly v (v.or (some signal))) := by
  obtain ⟨strategy, left, flag, boxes⟩ := s
  obtain rfl : flag = v.isSome := hv
  cases v <;> simp [Submitter.callOnce, newly]

lemma allValues_of_count {l : List (Status V E)} (he : ∀ x ∈ l, x.entered = true)
    (hc : l.countP Status.outstanding = 0) :
    allValues (l.map Status.verdict) = some (l.map Status.values).flatten := by
  induction l with
  | nil => rfl
  | cons x l ih =>
    obtain ⟨hx, hl⟩ := List.forall_mem_cons.1 he
    obtain ⟨entered, verdict⟩ := x
    obtain rfl : entered = true := hx
    rcases verdict with _ | ⟨vs | e⟩
    · simp [Status.outstanding] at hc
    · simp only [List.countP_cons, Status.outstanding] at hc
      simp only [List.map_cons, allValues, ih hl (by simpa using hc), Option.map_some,
        Status.values, List.flatten_cons]
    · simp [Status.outstanding] at hc

lemma count_of_allValues {l : List (Status V E)} {vs : List V}
    (h : allValues (l.map Status.verdict) = some vs) : l.countP Status.outstanding = 0 := by
  induction l generalizing vs with
  | nil => rfl
  | cons x l ih =>
    obtain ⟨entered, verdict⟩ := x
    rcases verdict with _ | ⟨ws | e⟩
    · cases h
    · simp only [List.map_cons, allValues, Option.map_eq_some_iff] at h
      obtain ⟨us, hus, -⟩ := h
      rw [List.countP_cons, ih hus]
      simp [Status.outstanding]
    · cases h

lemma completeOne_eq {l : List (Status V E)}
    (hexc : v = none → firstException (l.map Status.verdict) = none)
    (he : d = true → ∀ x ∈ l, x.entered = true) :
    (⟨.all, (if d then 0 else 1) + l.countP Status.outstanding + 1, v.isSome,
      l.map Status.values⟩ : Submitter V E).completeOne =
      (submitterAt .all (settle .all d v l).isSome d l, newly v (settle .all d v l)) := by
  simp only [Submitter.completeOne, Nat.add_sub_cancel]
  by_cases hz : (if d then 0 else 1) + l.countP Status.outstanding = 0
  · obtain ⟨rfl, hcount⟩ : d = true ∧ l.countP Status.outstanding = 0 := by
      cases d
      · simp at hz
      · simpa using hz
    have hvalues := allValues_of_count (he rfl) hcount
    have hsettle : settle .all true v l = v.or (some (.value (l.map Status.values).flatten)) := by
      cases v with
      | some _ => rfl
      | none => rw [settle, combine, hexc rfl, hvalues]; rfl
    rw [if_pos hz, hsettle, callOnce_eq _ _ v rfl, submitterAt]
  · have hsettle : settle .all d v l = v := by
      cases hv : v with
      | some _ => rfl
      | none =>
        rw [settle, combine, hexc hv, Option.none_or, Option.none_or]
        cases d with
        | false => rfl
        | true =>
          cases hall : allValues (l.map Status.verdict) with
          | none => rfl
          | some vs => exact absurd (by simpa using count_of_allValues hall) hz
    rw [if_neg hz, hsettle, submitterAt]
    cases v <;> rfl

lemma entered_replace {pre post : List (Status V E)} {entered : Bool}
    {old : Option (Signal V E)} (new : Option (Signal V E))
    (he : ∀ x ∈ pre ++ ⟨entered, old⟩ :: post, x.entered = true) :
    ∀ x ∈ pre ++ ⟨entered, new⟩ :: post, x.entered = true := by
  simp only [List.forall_mem_append, List.forall_mem_cons] at he ⊢
  exact he

lemma combine_of_absorbed {l : List (Status V E)} (ha : Absorbed s d v l) (hv : v = none) :
    combine s d (l.map Status.verdict) = none := by
  subst hv
  simpa [Absorbed, settle] using ha

lemma not_exception_of_absorbed {l : List (Status V E)} (ha : Absorbed .all d v l)
    (hv : v = none) : firstException (l.map Status.verdict) = none :=
  (Option.or_eq_none_iff.1 (combine_of_absorbed ha hv)).1

lemma settle_of_passed {l : List (Status V E)} {signal : Signal V E}
    (h : v = none → combine s d (l.map Status.verdict) = some signal) :
    settle s d v l = v.or (some signal) := by
  cases v with
  | some _ => rfl
  | none => rw [settle, h rfl]

lemma receive_eq {pre post : List (Status V E)} (ha : Absorbed s d v (pre ++ ⟨true, none⟩ :: post))
    (he : d = true → ∀ x ∈ pre ++ ⟨true, none⟩ :: post, x.entered = true) (signal : Signal V E) :
    (submitterAt s v.isSome d (pre ++ ⟨true, none⟩ :: post)).receive pre.length signal =
      let l := pre ++ ⟨true, some signal⟩ :: post
      (submitterAt s (settle s d v l).isSome d l, newly v (settle s d v l)) := by
  cases s with
  | any =>
    have hsettle : settle .any d v (pre ++ ⟨true, some signal⟩ :: post) = v.or (some signal) := by
      refine settle_of_passed fun hv => ?_
      have hpre := combine_of_absorbed ha hv
      rw [List.map_append, combine, firstResolved_append, Option.or_eq_none_iff] at hpre
      rw [List.map_append, combine, firstResolved_append, hpre.1]
      rfl
    simp only [submitterAt, Submitter.receive]
    rw [hsettle, callOnce_eq _ _ v rfl]
    simp
  | all =>
    have hexc := not_exception_of_absorbed ha
    cases signal with
    | value vs =>
      have hcount : (pre ++ ⟨true, none⟩ :: post).countP Status.outstanding =
          (pre ++ ⟨true, some (.value vs)⟩ :: post : List (Status V E)).countP
            Status.outstanding + 1 := by
        simp only [List.countP_append, List.countP_cons, Status.outstanding]
        simp
        omega
      have hboxes : ((pre ++ ⟨true, none⟩ :: post).map Status.values).set pre.length vs =
          (pre ++ ⟨true, some (.value vs)⟩ :: post).map Status.values := by
        simp [Status.values]
      have hexc' : v = none → firstException ((pre ++ ⟨true, some (.value vs)⟩ :: post).map
          Status.verdict) = none := by
        intro hv
        simpa [firstException_append, firstException] using hexc hv
      simp only [submitterAt, Submitter.receive, hcount, hboxes]
      exact completeOne_eq hexc' fun hd => entered_replace _ (he hd)
    | exception e =>
      have hsettle : settle .all d v (pre ++ ⟨true, some (.exception e)⟩ :: post) =
          v.or (some (.exception e)) := by
        refine settle_of_passed fun hv => ?_
        have hpre := hexc hv
        rw [List.map_append, firstException_append, Option.or_eq_none_iff] at hpre
        rw [List.map_append, combine, firstException_append, hpre.1]
        rfl
      have hcount : (pre ++ ⟨true, none⟩ :: post).countP Status.outstanding =
          (pre ++ ⟨true, some (.exception e)⟩ :: post : List (Status V E)).countP
            Status.outstanding := by
        simp [Status.outstanding]
      have hboxes : (pre ++ ⟨true, none⟩ :: post).map Status.values =
          (pre ++ ⟨true, some (.exception e)⟩ :: post).map Status.values := by
        simp [Status.values]
      simp only [submitterAt, Submitter.receive]
      rw [hsettle, callOnce_eq _ _ v rfl, hcount, hboxes]

lemma createCallback_eq (called : Bool) (pre post : List (Status V E)) :
    (submitterAt s called false (pre ++ ⟨false, none⟩ :: post)).createCallback =
      submitterAt s called false (pre ++ ⟨true, none⟩ :: post) := by
  cases s with
  | any => simp [submitterAt, Submitter.createCallback]
  | all =>
    simp only [submitterAt, Submitter.createCallback, List.countP_append, List.countP_cons,
      Status.outstanding, List.map_append, List.map_cons, Status.values]
    simp
    omega

lemma accept_eq {l : List (Status V E)} (ha : Absorbed s false v l)
    (he : ∀ x ∈ l, x.entered = true) :
    (submitterAt s v.isSome false l).accept =
      (submitterAt s (settle s true v l).isSome true l, newly v (settle s true v l)) := by
  cases s with
  | any =>
    have hsettle : settle .any true v l = v := ha
    rw [hsettle]
    cases v <;> rfl
  | all =>
    have h := completeOne_eq (v := v) (d := true) (not_exception_of_absorbed ha) fun _ => he
    rw [← h]
    simp [submitterAt, Submitter.accept, Nat.add_comm]

lemma newly_self (v : Option (Signal V E)) : newly v v = none := by
  cases v <;> rfl

lemma receiveFrom_eq {pre post : List (Status V E)} {entered : Bool}
    {old new : Option (Signal V E)} (hon : old = none ∨ new = old)
    (hentered : old ≠ new → entered = true)
    (ha : Absorbed s d v (pre ++ ⟨entered, old⟩ :: post))
    (he : d = true → ∀ x ∈ pre ++ ⟨entered, old⟩ :: post, x.entered = true) :
    (submitterAt s v.isSome d (pre ++ ⟨entered, old⟩ :: post)).receiveFrom pre.length
        (newly old new) =
      let l := pre ++ ⟨entered, new⟩ :: post
      (submitterAt s (settle s d v l).isSome d l, newly v (settle s d v l)) := by
  have hsame : ∀ o : Option (Signal V E), Absorbed s d v (pre ++ ⟨entered, o⟩ :: post) →
      ((submitterAt s v.isSome d (pre ++ ⟨entered, o⟩ :: post), none) :
        Submitter V E × Option (Signal V E)) =
      let l := pre ++ ⟨entered, o⟩ :: post
      (submitterAt s (settle s d v l).isSome d l, newly v (settle s d v l)) := by
    intro o ho
    rw [Absorbed] at ho
    simp only [ho, newly_self]
  rcases old with _ | t
  · rcases new with _ | t
    · exact hsame none ha
    · obtain rfl := hentered (by simp)
      exact receive_eq ha he t
  · obtain rfl : new = some t := by simpa using hon
    exact hsame (some t) ha

lemma absorbed_settle (l : List (Status V E)) : Absorbed s d (settle s d v l) l := by
  rw [Absorbed, settle, settle, Option.or_assoc, Option.or_self]

lemma settle_settle {pre post post' : List (Status V E)} {e : Bool} (e' : Bool)
    {old new : Option (Signal V E)} (hon : old = none ∨ new = old)
    (ha : Absorbed s d v (pre ++ ⟨e, old⟩ :: post))
    (hpost : Extends (post.map Status.verdict) (post'.map Status.verdict)) :
    settle s d (settle s d v (pre ++ ⟨e', new⟩ :: post)) (pre ++ ⟨e', new⟩ :: post') =
      settle s d v (pre ++ ⟨e', new⟩ :: post') := by
  simp only [settle, List.map_append, List.map_cons]
  cases hv : v with
  | some t => rfl
  | none =>
    have hold := combine_of_absorbed ha hv
    rw [Option.none_or, Option.none_or]
    rw [List.map_append, List.map_cons] at hold
    cases hc : combine s d (pre.map Status.verdict ++ new :: post.map Status.verdict) with
    | none => rw [Option.none_or]
    | some r =>
      rcases hon with rfl | rfl
      · rw [combine_stable hold hc hpost, Option.or_self]
      · rw [hold] at hc
        cases hc

lemma newly_settle {l m : List (Status V E)} {d' : Bool}
    (h : settle s d' (settle s d v l) m = settle s d' v m) :
    (newly v (settle s d v l)).or (newly (settle s d v l) (settle s d' v m)) =
      newly v (settle s d' v m) := by
  cases v with
  | some t => rfl
  | none =>
    rw [← h, settle, settle, Option.none_or]
    cases combine s d (l.map Status.verdict) <;> rfl

end submitter

end Continuable.Operators
