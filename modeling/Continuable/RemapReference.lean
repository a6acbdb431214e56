import Continuable.Remapping

/-!
What mapping a pack means.

Every accepted leaf is replaced, at every depth. What a node holds afterwards is spliced into it;
a node whose elements all map to nothing vanishes, which is decided by the types. Nodes without
an accepted leaf type below them stay as they are.
-/

namespace Continuable.Packs

variable {L : Type} {V : L → Type}

section acceptance

variable (accepts : L → Bool)

mutual

/-- Some leaf type below the type is accepted. -/
def touched : Ty L → Bool
  | .leaf l => accepts l
  | .tupleLike _ ts => touchedAny ts
  | .array t _ | .container t => touched t

def touchedAny : List (Ty L) → Bool
  | [] => false
  | t :: ts => touched t || touchedAny ts

end

mutual

/-- The type consists of accepted leaf types, without empty tuples. -/
def entire : Ty L → Bool
  | .leaf l => accepts l
  | .tupleLike _ ts => !ts.isEmpty && entireAll ts
  | .array t _ | .container t => entire t

def entireAll : List (Ty L) → Bool
  | [] => true
  | t :: ts => entire t && entireAll ts

end

mutual

/-- Every node above an accepted leaf type has an element whose type is entirely accepted, and is
not an array of size zero. -/
def covered : Ty L → Bool
  | .leaf _ => true
  | .tupleLike b ts =>
    !touched accepts (.tupleLike b ts) || (ts.any (entire accepts) && coveredAll ts)
  | .array t n => !touched accepts t || (entire accepts t && n != 0 && covered t)
  | .container t => !touched accepts t || (entire accepts t && covered t)

def coveredAll : List (Ty L) → Bool
  | [] => true
  | t :: ts => covered t && coveredAll ts

end

@[simp] lemma touchedAny_eq_any (ts : List (Ty L)) :
    touchedAny accepts ts = ts.any (touched accepts) := by
  induction ts with
  | nil => rfl
  | cons t ts ih => simp [touchedAny, ih]

@[simp] lemma entireAll_eq_all (ts : List (Ty L)) :
    entireAll accepts ts = ts.all (entire accepts) := by
  induction ts with
  | nil => rfl
  | cons t ts ih => simp [entireAll, ih]

@[simp] lemma coveredAll_eq_all (ts : List (Ty L)) :
    coveredAll accepts ts = ts.all (covered accepts) := by
  induction ts with
  | nil => rfl
  | cons t ts ih => simp [coveredAll, ih]

end acceptance

section reference

variable (m : Mapper L V)

/-- The node is made of what its elements map to, or vanishes. -/
def splice {α : Type} (make : List α → α) (args : List (Mapped α)) : Mapped α :=
  match args.flatMap Mapped.undecorate with
  | [] => .spread []
  | l => .one (make l)

/-- The type of an array whose elements map to a list of types, which are the same. -/
def arrayOf (n : ℕ) : List (Ty L) → Mapped (Ty L)
  | [] => .spread []
  | u :: us => .one (.array u (n * (us.length + 1)))

mutual

/-- The type a type maps to. -/
def referenceTy : Ty L → Mapped (Ty L)
  | .leaf l => (m.type l).getD (.one (.leaf l))
  | .tupleLike b ts =>
    if touchedAny m.accepts ts then splice (.tupleLike b) (referenceTys ts)
    else .one (.tupleLike b ts)
  | .array t n =>
    if touched m.accepts t then arrayOf n (referenceTy t).undecorate else .one (.array t n)
  | .container t =>
    if touched m.accepts t then remapContainerTy (referenceTy t) else .one (.container t)

def referenceTys : List (Ty L) → List (Mapped (Ty L))
  | [] => []
  | t :: ts => referenceTy t :: referenceTys ts

end

/-- An array of values, whose type is the first one of the list. -/
def arrayHolding : List (Ty L) → List (Pack L V) → Mapped (Pack L V)
  | [], _ => .spread []
  | u :: _, ps => .one (.array u ps)

mutual

/-- What a pack maps to. -/
def reference : Pack L V → Mapped (Pack L V)
  | .leaf l v => if m.accepts l then m.call l v else .one (.leaf l v)
  | .tupleLike b ps =>
    if touchedAny m.accepts (Pack.tys ps) then splice (.tupleLike b) (referenceAll ps)
    else .one (.tupleLike b ps)
  | .array t ps =>
    if touched m.accepts t then
      arrayHolding (referenceTy m t).undecorate ((referenceAll ps).flatMap Mapped.undecorate)
    else .one (.array t ps)
  | .container t ps =>
    if touched m.accepts t then remapContainer (referenceTy m t) (referenceAll ps)
    else .one (.container t ps)

def referenceAll : List (Pack L V) → List (Mapped (Pack L V))
  | [] => []
  | p :: ps => reference p :: referenceAll ps

end

@[simp] lemma referenceTys_eq_map (ts : List (Ty L)) :
    referenceTys m ts = ts.map (referenceTy m) := by
  induction ts with
  | nil => rfl
  | cons t ts ih => simp [referenceTys, ih]

@[simp] lemma referenceAll_eq_map (ps : List (Pack L V)) :
    referenceAll m ps = ps.map (reference m) := by
  induction ps with
  | nil => rfl
  | cons p ps ih => simp [referenceAll, ih]

/-- The whole pack maps to a value if it is one object, else to a tuple; to nothing if nothing is
left. -/
def referencePack (ps : List (Pack L V)) : Option (Pack L V) :=
  match ps with
  | [p] => unpackOrVoid (reference m p)
  | ps => tupelizeOrVoid (referenceAll m ps)

/-- The leaves of a pack that the mapper accepts. -/
def Pack.accepted (p : Pack L V) : List ((l : L) × V l) := p.leaves.filter fun x => m.accepts x.1

/-- What the mapper returns fits into the nodes around it: a pair gets two values or none, an
array gets values of one type. -/
def Fits : Ty L → Prop
  | .leaf _ => True
  | .tupleLike b ts => (∀ t ∈ ts, Fits t) ∧
    ((ts.map (referenceTy m)).flatMap Mapped.undecorate = [] ∨
      b.fits ((ts.map (referenceTy m)).flatMap Mapped.undecorate).length)
  | .array t _ => Fits t ∧
    ∀ u ∈ (referenceTy m t).undecorate, ∀ w ∈ (referenceTy m t).undecorate, u = w
  | .container t => Fits t

end reference

/-! ### Types without accepted leaf types -/

section untouched

variable {accepts : L → Bool} {m : Mapper L V}

lemma touched_of_entire {t : Ty L} (h : entire accepts t = true) : touched accepts t = true := by
  induction t with
  | leaf l => exact h
  | tupleLike b ts ih =>
    simp only [entire, entireAll_eq_all, Bool.and_eq_true, Bool.not_eq_true',
      List.isEmpty_eq_false_iff, List.all_eq_true] at h
    obtain ⟨hne, hall⟩ := h
    obtain ⟨t, ht⟩ := List.exists_mem_of_ne_nil ts hne
    simp only [touched, touchedAny_eq_any, List.any_eq_true]
    exact ⟨t, ht, ih t ht (hall t ht)⟩
  | array t n ih => exact ih h
  | container t ih => exact ih h

lemma covered_of_untouched {t : Ty L} (h : touched accepts t = false) :
    covered accepts t = true := by
  cases t with
  | leaf l => rfl
  | tupleLike b ts => simp [covered, h]
  | array t n =>
    simp only [touched] at h
    simp [covered, h]
  | container t =>
    simp only [touched] at h
    simp [covered, h]

lemma referenceTy_of_untouched {t : Ty L} (h : touched m.accepts t = false) :
    referenceTy m t = .one t := by
  cases t with
  | leaf l =>
    simp only [touched, Mapper.accepts, Option.isSome_eq_false_iff, Option.isNone_iff_eq_none] at h
    simp [referenceTy, h]
  | tupleLike b ts =>
    simp only [touched] at h
    simp only [referenceTy, h, Bool.false_eq_true, if_false]
  | array t n =>
    simp only [touched] at h
    simp [referenceTy, h]
  | container t =>
    simp only [touched] at h
    simp [referenceTy, h]

end untouched

end Continuable.Packs
