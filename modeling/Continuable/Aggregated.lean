import Continuable.AsyncTraversalSpec
import Continuable.ConnectionPacks
import Continuable.TraversePack

/-!
The packs that `when_all` and `when_seq` work on.

Four traversals follow each other: the continuables are prepared, put into boxes, dispatched, and
the boxes replaced by what was assigned to them. Each decides by the types which nodes it
reaches.
-/

namespace Continuable.Aggregated

open Packs Connection

variable {P : Type} {D : P → Type}

/-- Continuables that resolve with values. -/
abbrev LeafVal (D : P → Type) := Connection.LeafVal D (Values D)

abbrev ConnPack (D : P → Type) := Connection.ConnPack D (Values D)

/-- `spread_this`, or the only value itself. -/
def spreadThis {α : Type} : List α → Mapped α
  | [a] => .one a
  | l => .spread l

lemma spreadThis_map {α β : Type} (f : α → β) (l : List α) :
    (spreadThis l).map f = spreadThis (l.map f) := by
  match l with
  | [] => rfl
  | [a] => rfl
  | a :: b :: l => rfl

@[simp] lemma spreadThis_undecorate {α : Type} (l : List α) : (spreadThis l).undecorate = l := by
  match l with
  | [] => rfl
  | [a] => rfl
  | a :: b :: l => rfl

/-! ### The mappers -/

section boxes

variable [∀ p, Inhabited (D p)]

def boxTy : LeafTy P → LeafTy P
  | .continuable args => .box args
  | l => l

def boxVal : (l : LeafTy P) → LeafVal D l → LeafVal D (boxTy l)
  | .continuable args, c => (⟨c, Values.default args⟩ : Box (Values D args) (Values D args))
  | .plain _, v => v
  | .box _, b => b

def continuableBoxPacker : Mapper (LeafTy P) (LeafVal D) where
  type l := if isContinuable l then some (.one (.leaf (boxTy l))) else none
  call l v := .one (.leaf (boxTy l) (boxVal l v))
  formed l r h := by
    split_ifs at h
    cases h
    simp [Mapped.undecorate, Ty.Allowed]
  typed l v r h := by
    split_ifs at h
    cases h
    exact ⟨rfl, List.forall_mem_singleton.2 (Pack.wellTyped_leaf _ _)⟩

end boxes

def continuableBoxUnpacker : Mapper (LeafTy P) (LeafVal D) where
  type
    | .box args => some (spreadThis (resultTys args))
    | _ => none
  call
    | .box _, b => spreadThis (Box.slot b).packs
    | l, v => .one (.leaf l v)
  formed l r h := by
    cases l with
    | box args =>
      cases h
      rw [spreadThis_undecorate]
      exact resultTys_wellFormed args
    | plain p | continuable args => cases h
  typed l v r h := by
    cases l with
    | box args =>
      cases h
      rw [spreadThis_undecorate, spreadThis_map, Values.packs_ty]
      exact ⟨rfl, Values.packs_wellTyped _⟩
    | plain p | continuable args => cases h

/-! ### The dispatch -/

inductive Strategy
  | all
  | seq

/-- The continuable resolved and its values were assigned to the box. -/
def assign : (l : LeafTy P) → LeafVal D l → LeafVal D l
  | .box _, b => Box.mk (Box.continuable b) (Box.continuable b).resolution
  | .plain _, v => v
  | .continuable _, c => c

mutual

/-- The pack as the asynchronous traversal sees it. -/
def untyped : ConnPack D → Traversal.Pack ((l : LeafTy P) × LeafVal D l)
  | .leaf l v => .leaf ⟨l, v⟩
  | .tupleLike _ ps => .tuple (untypedAll ps)
  | .array _ ps | .container _ ps => .container (untypedAll ps)

def untypedAll : List (ConnPack D) → List (Traversal.Pack ((l : LeafTy P) × LeafVal D l))
  | [] => []
  | p :: ps => untyped p :: untypedAll ps

end

/-- The pack after every continuable that was started resolved, and the boxes it was started
from. The sequential dispatch visits what an asynchronous traversal does. -/
def dispatch : Strategy → ConnPack D →
    Option (ConnPack D × List ((l : LeafTy P) × LeafVal D l))
  | .all, p => traversePack isBox assign p
  | .seq, p => some (p.mapLeaves id (visitAccepted isBox assign),
      Traversal.acceptedLeaves (fun x => isBox x.1) [untyped p])

/-- `finalize_data`: the arguments of the callback. -/
def finalizeData : Option (ConnPack D) → Option (List (ConnPack D))
  | none => some []
  | some (.tupleLike .tuple ps) => some ps
  | some _ => none

/-- `when_all` and `when_seq` of the arguments, if every continuable that is started resolves
with values: what the callback is called with, and the boxes that were dispatched. -/
def connection [DecidableEq P] [∀ p, Inhabited (D p)] (strategy : Strategy)
    (args : List (ConnPack D)) :
    Option (List (ConnPack D) × List ((l : LeafTy P) × LeafVal D l)) := do
  let prepared ← mapPack prepareContinuables [.tupleLike .tuple args]
  let prepared ← prepared.1
  let boxed ← mapPack continuableBoxPacker [prepared]
  let boxed ← boxed.1
  let dispatched ← dispatch strategy boxed
  let unboxed ← mapPack continuableBoxUnpacker [dispatched.1]
  let arguments ← finalizeData unboxed.1
  some (arguments, dispatched.2)

end Continuable.Aggregated
