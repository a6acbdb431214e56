import Mathlib.Data.Multiset.AddSub
import Continuable.PackTypes

/-!
`map_pack`.

Two recursions over the types decide what happens to a node. The strict one, `traversor`,
accepts a node only if the mapper accepts everything below; `try_traversor` routes elements
through that are not accepted, and asks the strict one which nodes it has to map.
-/

namespace Continuable.Packs

/-- What a mapper returns: one value, or a `spread_box`. -/
inductive Mapped (α : Type)
  | one (a : α)
  | spread (l : List α)

namespace Mapped

variable {α β : Type}

def undecorate : Mapped α → List α
  | .one a => [a]
  | .spread l => l

def map (f : α → β) : Mapped α → Mapped β
  | .one a => .one (f a)
  | .spread l => .spread (l.map f)

@[simp] lemma undecorate_map (f : α → β) (r : Mapped α) :
    (r.map f).undecorate = r.undecorate.map f := by
  cases r with
  | one a => rfl
  | spread l => rfl

lemma eq_one_of_map {f : α → β} {r : Mapped α} {b : β} (h : r.map f = .one b) :
    ∃ a, r = .one a := by
  cases r with
  | one a => exact ⟨a, rfl⟩
  | spread l => cases h

lemma eq_spread_nil_of_map {f : α → β} {r : Mapped α} (h : r.map f = .spread []) :
    r = .spread [] := by
  cases r with
  | one a => cases h
  | spread l => simpa [map] using h

end Mapped

variable {L : Type} {V : L → Type}

def Ty.unpack : Mapped (Ty L) → Ty L
  | .one t => t
  | .spread ts => .tupleLike .tuple ts

def Pack.unpack : Mapped (Pack L V) → Pack L V
  | .one p => p
  | .spread ps => .tupleLike .tuple ps

/-- A mapper: what it returns for the leaf types it accepts, and what for their values. -/
structure Mapper (L : Type) (V : L → Type) where
  type : L → Option (Mapped (Ty L))
  call : ∀ l, V l → Mapped (Pack L V)
  formed : ∀ l r, type l = some r → ∀ t ∈ r.undecorate, t.WellFormed
  typed : ∀ l (v : V l) r, type l = some r → (call l v).map Pack.ty = r ∧
    ∀ p ∈ (call l v).undecorate, p.WellTyped

/-- `flat_tupelize_to`, which fails if the template does not take that many types. -/
def flatTupelizeTo {α : Type} (base : Base) (make : List α → α) (args : List (Mapped α)) :
    Option (Mapped α) :=
  match args.flatMap Mapped.undecorate with
  | [] => some (.spread [])
  | l => if base.fits l.length then some (.one (make l)) else none

/-- `flat_arraylize_to`: the array has the type of its first element. -/
def flatArraylizeTo {α : Type} (make : α → List α → α) (args : List (Mapped α)) : Mapped α :=
  match args.flatMap Mapped.undecorate with
  | [] => .spread []
  | a :: l => .one (make a (a :: l))

/-- Whether the mapper can be invoked with values of a leaf type. -/
def Mapper.accepts (m : Mapper L V) (l : L) : Bool := (m.type l).isSome

/-! ### The types -/

/-- The type of a container whose elements map to a type. -/
def remapContainerTy : Mapped (Ty L) → Mapped (Ty L)
  | .spread [] => .spread []
  | r => .one (.container (Ty.unpack r))

section types

variable (m : Mapper L V)

mutual

/-- The type `traversor` returns for a type it can be invoked with. -/
def traverseTy : Ty L → Option (Mapped (Ty L))
  | .leaf l => m.type l
  | .tupleLike b ts =>
    let args := traverseTys ts
    if args.any Option.isSome && args.all Option.isSome then
      flatTupelizeTo b (.tupleLike b) args.reduceOption
    else none
  | .array t n => (traverseTy t).map fun r =>
    flatArraylizeTo (fun u us => .array u us.length) (List.replicate n r)
  | .container t => (traverseTy t).map remapContainerTy

def traverseTys : List (Ty L) → List (Option (Mapped (Ty L)))
  | [] => []
  | t :: ts => traverseTy t :: traverseTys ts

end

/-- `is_effective_t`. -/
def isEffective (t : Ty L) : Bool := (traverseTy m t).isSome

mutual

/-- The type `try_traversor` returns. -/
def tryTraverseTy : Ty L → Mapped (Ty L)
  | .leaf l => (m.type l).getD (.one (.leaf l))
  | .tupleLike b ts =>
    if ts.any (isEffective m) then
      (flatTupelizeTo b (.tupleLike b) (tryTraverseTys ts)).getD (.one (.tupleLike b ts))
    else .one (.tupleLike b ts)
  | .array t n =>
    if isEffective m t then
      flatArraylizeTo (fun u us => .array u us.length) (List.replicate n (tryTraverseTy t))
    else .one (.array t n)
  | .container t =>
    if isEffective m t then remapContainerTy (tryTraverseTy t) else .one (.container t)

def tryTraverseTys : List (Ty L) → List (Mapped (Ty L))
  | [] => []
  | t :: ts => tryTraverseTy t :: tryTraverseTys ts

end

@[simp] lemma traverseTys_eq_map (ts : List (Ty L)) : traverseTys m ts = ts.map (traverseTy m) := by
  induction ts with
  | nil => rfl
  | cons t ts ih => simp [traverseTys, ih]

@[simp] lemma tryTraverseTys_eq_map (ts : List (Ty L)) :
    tryTraverseTys m ts = ts.map (tryTraverseTy m) := by
  induction ts with
  | nil => rfl
  | cons t ts ih => simp [tryTraverseTys, ih]

variable [DecidableEq L]

mutual

/-- Whether the bodies can be instantiated: the elements of an array must have one type. -/
def compiles : Ty L → Bool
  | .leaf _ => true
  | .tupleLike b ts =>
    !(ts.any (isEffective m) &&
      (flatTupelizeTo b (.tupleLike b) (tryTraverseTys m ts)).isSome) || compilesAll ts
  | .array t n =>
    !(isEffective m t && n != 0) || (compiles t &&
      (tryTraverseTy m t).undecorate.all fun u => (tryTraverseTy m t).undecorate.all (u = ·))
  | .container t => !isEffective m t || compiles t

def compilesAll : List (Ty L) → Bool
  | [] => true
  | t :: ts => compiles t && compilesAll ts

end

@[simp] lemma compilesAll_eq_all (ts : List (Ty L)) :
    compilesAll m ts = ts.all (compiles m) := by
  induction ts with
  | nil => rfl
  | cons t ts ih => simp [compilesAll, ih]

end types

/-! ### The values -/

/-- `remap_container`; an empty mapping is known from the type of the elements. -/
def remapContainer : Mapped (Ty L) → List (Mapped (Pack L V)) → Mapped (Pack L V)
  | .spread [], _ => .spread []
  | r, args => .one (.container (Ty.unpack r) (args.map Pack.unpack))

section values

variable (m : Mapper L V)

mutual

/-- `try_traverse`, with the leaves the mapper is called with. The order of the calls in a
tuple-like object is not specified. -/
def tryTraverse : Pack L V → Mapped (Pack L V) × Multiset ((l : L) × V l)
  | .leaf l v => if m.accepts l then (m.call l v, {⟨l, v⟩}) else (.one (.leaf l v), 0)
  | .tupleLike b ps =>
    if (Pack.tys ps).any (isEffective m) then
      let args := tryTraverseAll ps
      match flatTupelizeTo b (.tupleLike b) args.1 with
      | some r => (r, args.2)
      | none => (.one (.tupleLike b ps), 0)
    else (.one (.tupleLike b ps), 0)
  | .array t ps =>
    if isEffective m t then
      let args := tryTraverseAll ps
      (flatArraylizeTo (fun p ps => .array p.ty ps) args.1, args.2)
    else (.one (.array t ps), 0)
  | .container t ps =>
    if isEffective m t then
      let args := tryTraverseAll ps
      (remapContainer (tryTraverseTy m t) args.1, args.2)
    else (.one (.container t ps), 0)

def tryTraverseAll : List (Pack L V) → List (Mapped (Pack L V)) × Multiset ((l : L) × V l)
  | [] => ([], 0)
  | p :: ps =>
    let r := tryTraverse p
    let rs := tryTraverseAll ps
    (r.1 :: rs.1, r.2 + rs.2)

end

/-- `unpack_or_void`. -/
def unpackOrVoid : Mapped (Pack L V) → Option (Pack L V)
  | .spread [] => none
  | r => some (Pack.unpack r)

/-- `tupelize_or_void`. -/
def tupelizeOrVoid (args : List (Mapped (Pack L V))) : Option (Pack L V) :=
  match args.flatMap Mapped.undecorate with
  | [] => none
  | ps => some (.tupleLike .tuple ps)

/-- `map_pack`, if it compiles: what it returns, which may be `void`, and the calls of the
mapper. -/
def mapPack [DecidableEq L] (ps : List (Pack L V)) :
    Option (Option (Pack L V) × Multiset ((l : L) × V l)) :=
  if (Pack.tys ps).all (compiles m) then
    match ps with
    | [p] =>
      let r := tryTraverse m p
      some (unpackOrVoid r.1, r.2)
    | ps =>
      let rs := tryTraverseAll m ps
      some (tupelizeOrVoid rs.1, rs.2)
  else none

end values

end Continuable.Packs
