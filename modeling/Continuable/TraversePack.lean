import Continuable.RemapReference

/-!
`traverse_pack`.

Where `map_pack` quietly passes a node on that the strict recursion does not accept, the traversal
does not compile: the return type of its remappers names an element type that is not accepted.
Arrays never compile once they hold something accepted.
-/

namespace Continuable.Packs

variable {L : Type} {V : L → Type}

/-- Whether `traversor` can be invoked, if it compiles to ask. -/
inductive Invocable
  | no
  | yes
  | error
  deriving DecidableEq

/-- `is_effective_any_of_t`, which stops at the first effective type. -/
def effectiveAnyOf : List Invocable → Invocable
  | [] => .no
  | .no :: l => effectiveAnyOf l
  | i :: _ => i

section types

variable (accepts : L → Bool)

mutual

def traversor : Ty L → Invocable
  | .leaf l => if accepts l then .yes else .no
  | .tupleLike _ ts =>
    let l := traversorAll ts
    match effectiveAnyOf l with
    | .yes => if l.all (· = .yes) then .yes else .error
    | i => i
  | .array t _ => if traversor t = .no then .no else .error
  | .container t => traversor t

def traversorAll : List (Ty L) → List Invocable
  | [] => []
  | t :: ts => traversor t :: traversorAll ts

end

mutual

/-- Whether `try_traversor` compiles. -/
def traverses : Ty L → Bool
  | .leaf _ => true
  | .tupleLike _ ts =>
    match effectiveAnyOf (traversorAll accepts ts) with
    | .error => false
    | .no => true
    | .yes => traversesAll ts
  | .array t _ => traversor accepts t = .no
  | .container t =>
    match traversor accepts t with
    | .error => false
    | .no => true
    | .yes => traverses t

def traversesAll : List (Ty L) → Bool
  | [] => true
  | t :: ts => traverses t && traversesAll ts

end

mutual

/-- The first element of every node that is above an accepted leaf type consists of accepted leaf
types only. -/
def leading : Ty L → Bool
  | .leaf _ => true
  | .tupleLike _ ts => (ts.find? (touched accepts)).all (entire accepts) && leadingAll ts
  | .array t _ => !touched accepts t
  | .container t => !touched accepts t || (entire accepts t && leading t)

def leadingAll : List (Ty L) → Bool
  | [] => true
  | t :: ts => leading t && leadingAll ts

end

@[simp] lemma traversorAll_eq_map (ts : List (Ty L)) :
    traversorAll accepts ts = ts.map (traversor accepts) := by
  induction ts with
  | nil => rfl
  | cons t ts ih => simp [traversorAll, ih]

@[simp] lemma traversesAll_eq_all (ts : List (Ty L)) :
    traversesAll accepts ts = ts.all (traverses accepts) := by
  induction ts with
  | nil => rfl
  | cons t ts ih => simp [traversesAll, ih]

@[simp] lemma leadingAll_eq_all (ts : List (Ty L)) :
    leadingAll accepts ts = ts.all (leading accepts) := by
  induction ts with
  | nil => rfl
  | cons t ts ih => simp [leadingAll, ih]

end types

section values

variable (accepts : L → Bool) (visit : ∀ l, V l → V l)

mutual

/-- `try_traverse`: what the visitor makes of the pack, and the leaves it visits in order. -/
def traverse : Pack L V → Pack L V × List ((l : L) × V l)
  | .leaf l v => if accepts l then (.leaf l (visit l v), [⟨l, v⟩]) else (.leaf l v, [])
  | .tupleLike b ps =>
    if effectiveAnyOf (traversorAll accepts (Pack.tys ps)) = .yes then
      let r := traverseAll ps
      (.tupleLike b r.1, r.2)
    else (.tupleLike b ps, [])
  | .array t ps => (.array t ps, [])
  | .container t ps =>
    if traversor accepts t = .yes then
      let r := traverseAll ps
      (.container t r.1, r.2)
    else (.container t ps, [])

def traverseAll : List (Pack L V) → List (Pack L V) × List ((l : L) × V l)
  | [] => ([], [])
  | p :: ps =>
    let r := traverse p
    let rs := traverseAll ps
    (r.1 :: rs.1, r.2 ++ rs.2)

end

/-- `traverse_pack` of one object, if it compiles. -/
def traversePack (p : Pack L V) : Option (Pack L V × List ((l : L) × V l)) :=
  if traverses accepts p.ty then some (traverse accepts visit p) else none

end values

/-- The visitor where it is invoked. -/
def visitAccepted (accepts : L → Bool) (visit : ∀ l, V l → V l) (l : L) (v : V l) : V (id l) :=
  if accepts l then visit l v else v

end Continuable.Packs
