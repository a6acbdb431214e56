import Mathlib.Data.List.Basic

/-!
Packs of nested tuple-like objects and homogeneous containers, and their types.

The elements of an array and of a container have one type, which is part of the pack, because
the traversals decide by the types what they do with a node, also where it is empty.
-/

namespace Continuable.Packs

/-- The class template of a tuple-like object that takes the types of its elements. -/
inductive Base
  | tuple
  | pair
  deriving DecidableEq

/-- Whether the template can be instantiated with a number of types. -/
def Base.fits : Base → ℕ → Bool
  | .tuple, _ => true
  | .pair, n => n = 2

/-- Types over the leaf types `L`. An array is a `std::array`. -/
inductive Ty (L : Type)
  | leaf (l : L)
  | tupleLike (base : Base) (elements : List (Ty L))
  | array (element : Ty L) (size : ℕ)
  | container (element : Ty L)

inductive Pack (L : Type) (V : L → Type)
  | leaf (l : L) (v : V l)
  | tupleLike (base : Base) (elements : List (Pack L V))
  | array (element : Ty L) (elements : List (Pack L V))
  | container (element : Ty L) (elements : List (Pack L V))

variable {L : Type} {V : L → Type}

namespace Ty

/-- Induction over types, with the hypothesis for every element of a tuple-like type. -/
@[elab_as_elim, induction_eliminator]
theorem induct {motive : Ty L → Prop} (leaf : ∀ l, motive (.leaf l))
    (tupleLike : ∀ base elements, (∀ t ∈ elements, motive t) → motive (.tupleLike base elements))
    (array : ∀ element size, motive element → motive (.array element size))
    (container : ∀ element, motive element → motive (.container element)) : ∀ t, motive t
  | .leaf l => leaf l
  | .tupleLike base elements =>
    tupleLike base elements fun t _ => induct leaf tupleLike array container t
  | .array element size => array element size (induct leaf tupleLike array container element)
  | .container element => container element (induct leaf tupleLike array container element)

mutual

def decEq [DecidableEq L] : (t u : Ty L) → Decidable (t = u)
  | .leaf l, .leaf k => decidable_of_iff (l = k) (by simp)
  | .tupleLike b ts, .tupleLike c us =>
    match decEqList ts us with
    | isTrue h => decidable_of_iff (b = c) (by simp [h])
    | isFalse h => isFalse (by simp [h])
  | .array t n, .array u k =>
    match decEq t u with
    | isTrue h => decidable_of_iff (n = k) (by simp [h])
    | isFalse h => isFalse (by simp [h])
  | .container t, .container u =>
    match decEq t u with
    | isTrue h => isTrue (by rw [h])
    | isFalse h => isFalse (by simp [h])
  | .leaf _, .tupleLike .. | .leaf _, .array .. | .leaf _, .container .. => isFalse (by simp)
  | .tupleLike .., .leaf _ | .tupleLike .., .array .. | .tupleLike .., .container .. =>
    isFalse (by simp)
  | .array .., .leaf _ | .array .., .tupleLike .. | .array .., .container .. => isFalse (by simp)
  | .container _, .leaf _ | .container _, .tupleLike .. | .container _, .array .. =>
    isFalse (by simp)

def decEqList [DecidableEq L] : (ts us : List (Ty L)) → Decidable (ts = us)
  | [], [] => isTrue rfl
  | [], _ :: _ | _ :: _, [] => isFalse (by simp)
  | t :: ts, u :: us =>
    match decEq t u, decEqList ts us with
    | isTrue h, isTrue hs => isTrue (by rw [h, hs])
    | isFalse h, _ => isFalse (by simp [h])
    | _, isFalse hs => isFalse (by simp [hs])

end

instance [DecidableEq L] : DecidableEq (Ty L) := decEq

end Ty

namespace Pack

/-- Induction over packs, with the hypothesis for every element of a node. -/
@[elab_as_elim, induction_eliminator]
theorem induct {motive : Pack L V → Prop} (leaf : ∀ l v, motive (.leaf l v))
    (tupleLike : ∀ base elements, (∀ p ∈ elements, motive p) → motive (.tupleLike base elements))
    (array : ∀ element elements, (∀ p ∈ elements, motive p) → motive (.array element elements))
    (container : ∀ element elements, (∀ p ∈ elements, motive p) →
      motive (.container element elements)) : ∀ p, motive p
  | .leaf l v => leaf l v
  | .tupleLike base elements =>
    tupleLike base elements fun p _ => induct leaf tupleLike array container p
  | .array element elements =>
    array element elements fun p _ => induct leaf tupleLike array container p
  | .container element elements =>
    container element elements fun p _ => induct leaf tupleLike array container p

mutual

def ty : Pack L V → Ty L
  | .leaf l _ => .leaf l
  | .tupleLike b ps => .tupleLike b (tys ps)
  | .array t ps => .array t ps.length
  | .container t _ => .container t

def tys : List (Pack L V) → List (Ty L)
  | [] => []
  | p :: ps => ty p :: tys ps

end

@[simp] lemma tys_eq_map (ps : List (Pack L V)) : tys ps = ps.map ty := by
  induction ps with
  | nil => rfl
  | cons p ps ih => simp [tys, ih]

mutual

def leaves : Pack L V → List ((l : L) × V l)
  | .leaf l v => [⟨l, v⟩]
  | .tupleLike _ ps | .array _ ps | .container _ ps => leavesOf ps

def leavesOf : List (Pack L V) → List ((l : L) × V l)
  | [] => []
  | p :: ps => leaves p ++ leavesOf ps

end

@[simp] lemma leavesOf_eq_flatMap (ps : List (Pack L V)) : leavesOf ps = ps.flatMap leaves := by
  induction ps with
  | nil => rfl
  | cons p ps ih => simp [leavesOf, ih]

end Pack

/-- The leaf types are allowed ones, arrays are allowed or there are none, and every pair has
two elements. -/
def Ty.Allowed (leafs : L → Prop) (arrays : Prop) : Ty L → Prop
  | .leaf l => leafs l
  | .tupleLike b ts => b.fits ts.length ∧ ∀ t ∈ ts, Allowed leafs arrays t
  | .array t _ => arrays ∧ Allowed leafs arrays t
  | .container t => Allowed leafs arrays t

/-- The type of a pack as C++ can build it. -/
abbrev Ty.WellFormed : Ty L → Prop := Ty.Allowed (fun _ => True) True

/-- The elements of every array and container have the type the node says. -/
def Pack.WellTyped : Pack L V → Prop
  | .leaf _ _ => True
  | .tupleLike b ps => b.fits ps.length ∧ ∀ p ∈ ps, WellTyped p
  | .array t ps | .container t ps => t.WellFormed ∧ ∀ p ∈ ps, ty p = t ∧ WellTyped p

@[simp] lemma Pack.wellTyped_leaf (l : L) (v : V l) : (Pack.leaf l v).WellTyped := by
  simp [WellTyped]

lemma Pack.WellTyped.ty_wellFormed {p : Pack L V} (h : p.WellTyped) : p.ty.WellFormed := by
  induction p with
  | leaf l v => simp [ty, Ty.Allowed]
  | tupleLike b ps ih =>
    simp only [WellTyped] at h
    simp only [ty, tys_eq_map, Ty.Allowed, List.length_map, List.mem_map]
    refine ⟨h.1, ?_⟩
    rintro _ ⟨p, hp, rfl⟩
    exact ih p hp (h.2 p hp)
  | array t ps =>
    simp only [WellTyped] at h
    simp only [ty, Ty.Allowed]
    exact ⟨trivial, h.1⟩
  | container t ps =>
    simp only [WellTyped] at h
    simp only [ty, Ty.Allowed]
    exact h.1

/-- A pack as C++ can build it. -/
abbrev TypedPack (L : Type) (V : L → Type) := { p : Pack L V // p.WellTyped }

end Continuable.Packs
