import Continuable.OperatorTrees

/-!
What the members of a connection amount to.

The verdict of a continuable, after a history of dispatches and resolutions, is what its callback
has been called with. It is read off the verdicts of the members alone; counters, flags and boxes
only keep track of it.
-/

namespace Continuable.Operators

variable {C V E : Type}

/-- The actions so far, the latest one first. -/
abbrev History (V E : Type) := List (Action V E)

/-- The number of operands that were started, and one more when the dispatch has returned. -/
def position : History V E → ℕ
  | [] => 0
  | .proceed :: h => position h + 1
  | .resolve _ _ :: h => position h

@[simp] lemma position_nil : position ([] : History V E) = 0 := rfl

@[simp] lemma position_proceed (h : History V E) :
    position (.proceed :: h) = position h + 1 := rfl

@[simp] lemma position_resolve (i : ℕ) (s : Signal V E) (h : History V E) :
    position (.resolve i s :: h) = position h := rfl

/-- The dispatch has come to the operand. -/
def reached (name : ℕ) (h : History V E) : Bool := name < position h

@[simp] lemma reached_resolve (name i : ℕ) (s : Signal V E) (h : History V E) :
    reached name (.resolve i s :: h) = reached name h := rfl

lemma reached_eq_true {name : ℕ} {h : History V E} : reached name h = true ↔ name < position h :=
  decide_eq_true_iff

lemma reached_eq_false {name : ℕ} {h : History V E} :
    reached name h = false ↔ position h ≤ name := by
  rw [← Bool.not_eq_true, reached_eq_true, Nat.not_lt]

/-! ### Putting verdicts together -/

def firstException : List (Option (Signal V E)) → Option (Signal V E)
  | [] => none
  | some (.exception e) :: _ => some (.exception e)
  | none :: l | some (.value _) :: l => firstException l

def allValues : List (Option (Signal V E)) → Option (List V)
  | [] => some []
  | some (.value vs) :: l => (allValues l).map (vs ++ ·)
  | none :: _ | some (.exception _) :: _ => none

def firstResolved : List (Option (Signal V E)) → Option (Signal V E)
  | [] => none
  | some s :: _ => some s
  | none :: l => firstResolved l

/-- What a connection makes of the verdicts of its members: with `any` the first of them, with
`all` the first exception, or all the values once the dispatch has returned. -/
def combine (s : Strategy) (dispatched : Bool) (l : List (Option (Signal V E))) :
    Option (Signal V E) :=
  match s with
  | .all => (firstException l).or (if dispatched then (allValues l).map .value else none)
  | .any => firstResolved l

/-- Some verdicts came in. -/
def Extends (old new : List (Option (Signal V E))) : Prop :=
  List.Forall₂ (fun o n => o = none ∨ n = o) old new

lemma firstException_append (l m : List (Option (Signal V E))) :
    firstException (l ++ m) = (firstException l).or (firstException m) := by
  induction l with
  | nil => rfl
  | cons o l ih => rcases o with _ | ⟨_ | _⟩ <;> simp [firstException, ih]

lemma firstResolved_append (l m : List (Option (Signal V E))) :
    firstResolved (l ++ m) = (firstResolved l).or (firstResolved m) := by
  induction l with
  | nil => rfl
  | cons o l ih => rcases o with _ | s <;> simp [firstResolved, ih]

lemma allValues_append (l m : List (Option (Signal V E))) :
    allValues (l ++ m) = (allValues l).bind fun vs => (allValues m).map (vs ++ ·) := by
  induction l with
  | nil => simp [allValues]
  | cons o l ih =>
    rcases o with _ | ⟨vs | e⟩
    · rfl
    · simp only [List.cons_append, allValues, ih]
      cases allValues l <;> cases allValues m <;> simp
    · rfl

lemma eq_of_allValues {old new : List (Option (Signal V E))} {vs : List V}
    (h : allValues old = some vs) (he : Extends old new) : new = old := by
  induction he generalizing vs with
  | nil => rfl
  | @cons o n old new hon hrest ih =>
    rcases o with _ | ⟨ws | e⟩
    · cases h
    · simp only [allValues, Option.map_eq_some_iff] at h
      obtain ⟨us, hus, -⟩ := h
      rcases hon with hon | rfl
      · cases hon
      · rw [ih hus]
    · cases h

lemma combine_stable {s : Strategy} {d : Bool} {pre old new : List (Option (Signal V E))}
    {x : Option (Signal V E)} {r : Signal V E}
    (hnone : combine s d (pre ++ none :: old) = none)
    (hsome : combine s d (pre ++ x :: old) = some r) (he : Extends old new) :
    combine s d (pre ++ x :: new) = some r := by
  cases s with
  | any =>
    simp only [combine, firstResolved_append, Option.or_eq_none_iff] at hnone hsome ⊢
    rw [hnone.1] at hsome ⊢
    rcases x with _ | x
    · rw [firstResolved] at hsome hnone
      rw [hnone.2] at hsome
      cases hsome
    · simpa [firstResolved] using hsome
  | all =>
    simp only [combine, firstException_append, Option.or_eq_none_iff] at hnone hsome ⊢
    obtain ⟨⟨hpre, hold⟩, -⟩ := hnone
    rw [firstException] at hold
    rcases x with _ | ⟨vs | e⟩
    · -- nothing came in, so there are no values either
      simp only [hpre, firstException, hold, allValues_append, allValues] at hsome
      cases d <;> simp at hsome
    · simp only [hpre, firstException, hold, Option.none_or] at hsome
      cases d with
      | false => cases hsome
      | true =>
        have hnew : new = old := by
          simp only [if_true, Option.map_eq_some_iff] at hsome
          obtain ⟨us, hus, -⟩ := hsome
          rw [allValues_append, Option.bind_eq_some_iff] at hus
          obtain ⟨_, -, hus⟩ := hus
          rw [Option.map_eq_some_iff] at hus
          obtain ⟨_, hus, -⟩ := hus
          rw [allValues, Option.map_eq_some_iff] at hus
          obtain ⟨_, hus, -⟩ := hus
          exact eq_of_allValues hus he
        rw [hnew]
        simpa [hpre, firstException, hold] using hsome
    · simpa [hpre, firstException] using hsome

/-! ### Verdicts -/

/-- An operand resolves once, after it was started. -/
def leafVerdict (name : ℕ) : History V E → Option (Signal V E)
  | [] => none
  | .proceed :: h => leafVerdict name h
  | .resolve i s :: h =>
    (leafVerdict name h).or (if i = name ∧ name < position h then some s else none)

/-- The verdict of a connection, whose operands end before `stop`, over those of its members. -/
def connectionVerdict (s : Strategy) (stop : ℕ)
    (members : List (History V E → Option (Signal V E))) :
    History V E → Option (Signal V E)
  | [] => none
  | a :: h => (connectionVerdict s stop members h).or
    (combine s (reached stop (a :: h)) (members.map fun v => v (a :: h)))

mutual

def Continuation.verdict (first : ℕ) : Continuation C → History V E → Option (Signal V E)
  | .leaf _ => leafVerdict first
  | .finalized s members =>
    connectionVerdict s (first + sizes members) (verdicts first members)

def verdicts (first : ℕ) : List (Continuation C) → List (History V E → Option (Signal V E))
  | [] => []
  | c :: members => c.verdict first :: verdicts (first + c.size) members

end

/-- Induction over continuables, with the hypothesis for every member. -/
@[elab_as_elim, induction_eliminator]
theorem Continuation.induct {motive : Continuation C → Prop} (leaf : ∀ o, motive (.leaf o))
    (finalized : ∀ s members, (∀ c ∈ members, motive c) → motive (.finalized s members)) :
    ∀ c, motive c
  | .leaf o => leaf o
  | .finalized s members => finalized s members fun c _ => induct leaf finalized c

lemma combine_of_none (s : Strategy) {l : List (Option (Signal V E))} (hl : ∀ o ∈ l, o = none) :
    combine s false l = none := by
  have hexc : firstException l = none ∧ firstResolved l = none := by
    induction l with
    | nil => exact ⟨rfl, rfl⟩
    | cons o l ih =>
      obtain rfl := hl o (List.mem_cons_self ..)
      exact ih fun o ho => hl o (List.mem_cons_of_mem _ ho)
  cases s with
  | all => simp [combine, hexc.1]
  | any => exact hexc.2

section connectionVerdict

variable {s : Strategy} {first stop : ℕ} {members : List (History V E → Option (Signal V E))}

lemma connectionVerdict_of_idle (hs : first ≤ stop)
    (hm : ∀ v ∈ members, ∀ h, position h ≤ first → v h = none) {h : History V E}
    (hp : position h ≤ first) : connectionVerdict s stop members h = none := by
  induction h with
  | nil => rfl
  | cons a h ih =>
    have hph : position h ≤ first := by
      cases a with
      | proceed => rw [position_proceed] at hp; omega
      | resolve i s => exact hp
    rw [connectionVerdict, ih hph, Option.none_or, reached_eq_false.2 (by omega)]
    refine combine_of_none s fun o ho => ?_
    obtain ⟨v, hv, rfl⟩ := List.mem_map.1 ho
    exact hm v hv _ hp

/-- The verdict takes account of what has come in. -/
lemma connectionVerdict_absorbs (hm : ∀ v ∈ members, v [] = none) (h : History V E) :
    (connectionVerdict s stop members h).or
      (combine s (reached stop h) (members.map fun v => v h)) =
      connectionVerdict s stop members h := by
  cases h with
  | nil =>
    rw [connectionVerdict, Option.none_or, reached_eq_false.2 (Nat.zero_le _)]
    refine combine_of_none s fun o ho => ?_
    obtain ⟨v, hv, rfl⟩ := List.mem_map.1 ho
    exact hm v hv
  | cons a h => rw [connectionVerdict, Option.or_assoc, Option.or_self]

end connectionVerdict

lemma mem_verdicts {first : ℕ} {members : List (Continuation C)}
    {v : History V E → Option (Signal V E)} (hv : v ∈ verdicts first members) :
    ∃ c ∈ members, ∃ k, first ≤ k ∧ k + c.size ≤ first + sizes members ∧ v = c.verdict k := by
  induction members generalizing first with
  | nil => cases hv
  | cons c members ih =>
    rw [verdicts, List.mem_cons] at hv
    rcases hv with rfl | hv
    · exact ⟨c, List.mem_cons_self .., first, Nat.le_refl _, by rw [sizes]; omega, rfl⟩
    · obtain ⟨c', hc', k, hk, hstop, rfl⟩ := ih hv
      exact ⟨c', List.mem_cons_of_mem _ hc', k, by omega, by rw [sizes]; omega, rfl⟩

lemma Continuation.verdict_of_idle (c : Continuation C) {first : ℕ} {h : History V E}
    (hp : position h ≤ first) : c.verdict first h = none := by
  induction c generalizing first h with
  | leaf =>
    rw [Continuation.verdict]
    induction h with
    | nil => rfl
    | cons a h ih =>
      cases a with
      | proceed => exact ih (by rw [position_proceed] at hp; omega)
      | resolve i s =>
        rw [position_resolve] at hp
        rw [leafVerdict, ih hp, if_neg (by omega), Option.none_or]
  | finalized s members ih =>
    rw [Continuation.verdict]
    refine connectionVerdict_of_idle (by omega) (fun v hv h hp => ?_) hp
    obtain ⟨c, hc, k, hk, -, rfl⟩ := mem_verdicts hv
    exact ih c hc (by omega)

lemma verdicts_nil (first : ℕ) (members : List (Continuation C)) :
    ∀ v ∈ verdicts first members, v ([] : History V E) = none := by
  intro v hv
  obtain ⟨c, -, k, -, -, rfl⟩ := mem_verdicts hv
  exact c.verdict_of_idle (Nat.zero_le _)

lemma Continuation.verdict_cons (c : Continuation C) {first : ℕ} {h : History V E}
    {s : Signal V E} (hs : c.verdict first h = some s) (a : Action V E) :
    c.verdict first (a :: h) = some s := by
  cases c with
  | leaf =>
    rw [Continuation.verdict] at hs ⊢
    cases a with
    | proceed => exact hs
    | resolve i t => rw [leafVerdict, hs, Option.some_or]
  | finalized t members =>
    rw [Continuation.verdict] at hs ⊢
    rw [connectionVerdict, hs, Option.some_or]

/-- The dispatch does not touch what it has not come to or has left. -/
lemma Continuation.verdict_proceed (c : Continuation C) {first : ℕ} {h : History V E}
    (hp : position h < first ∨ first + c.size < position h) :
    c.verdict first (.proceed :: h) = c.verdict first h := by
  rcases hp with hp | hp
  · rw [c.verdict_of_idle (by rw [position_proceed]; omega), c.verdict_of_idle (by omega)]
  · induction c generalizing first with
    | leaf => rfl
    | finalized s members ih =>
      rw [Continuation.size] at hp
      have hmembers : ((verdicts first members).map fun v => v (.proceed :: h)) =
          (verdicts first members).map fun v => v h := by
        refine List.map_congr_left fun v hv => ?_
        obtain ⟨c, hc, k, -, hstop, rfl⟩ := mem_verdicts hv
        exact ih c hc (by omega)
      have hstop : reached (first + sizes members) (.proceed :: h) =
          reached (first + sizes members) h := by
        rw [reached_eq_true.2 hp, reached_eq_true.2 (by rw [position_proceed]; omega)]
      rw [Continuation.verdict, connectionVerdict, hmembers, hstop,
        connectionVerdict_absorbs (verdicts_nil first members)]

end Continuable.Operators
