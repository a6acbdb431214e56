import Continuable.RenamingMappers

/-!
The packs that are given to a connection, and `prepare_continuables`.
-/

namespace Continuable.Connection

open Packs

/-- Plain types, continuables by the types of their results, and their boxes. -/
inductive LeafTy (P : Type)
  | plain (p : P)
  | continuable (args : List P)
  | box (args : List P)
  deriving DecidableEq

/-- Values of the types in a list. -/
inductive Values {P : Type} (D : P → Type) : List P → Type
  | nil : Values D []
  | cons {p : P} {ps : List P} (v : D p) (vs : Values D ps) : Values D (p :: ps)

/-- A continuable of the pack, with what it resolves with. -/
structure Source (R : Type) where
  resolution : R
  frozen : Bool
  materialized : Bool

/-- `continuable_box`. -/
structure Box (R S : Type) where
  continuable : Source R
  slot : S

/-- The values of the leaf types, if a continuable resolves with an `R` of its result types. -/
def LeafVal {P : Type} (D : P → Type) (R : List P → Type) : LeafTy P → Type
  | .plain p => D p
  | .continuable args => Source (R args)
  | .box args => Box (R args) (Values D args)

abbrev ConnTy (P : Type) := Ty (LeafTy P)

abbrev ConnPack {P : Type} (D : P → Type) (R : List P → Type) := Pack (LeafTy P) (LeafVal D R)

variable {P : Type} {D : P → Type} {R : List P → Type}

def isContinuable : LeafTy P → Bool
  | .continuable _ => true
  | _ => false

def isBox : LeafTy P → Bool
  | .box _ => true
  | _ => false

def resultTys (args : List P) : List (ConnTy P) := args.map fun p => .leaf (.plain p)

lemma resultTys_wellFormed (args : List P) : ∀ t ∈ resultTys args, t.WellFormed := by
  simp [resultTys, Ty.Allowed]

namespace Values

/-- Values that were default constructed. -/
def default [∀ p, Inhabited (D p)] : (args : List P) → Values D args
  | [] => .nil
  | _ :: args => .cons Inhabited.default (default args)

def packs : {args : List P} → Values D args → List (ConnPack D R)
  | _, .nil => []
  | p :: _, .cons v vs => .leaf (.plain p) v :: packs vs

lemma packs_ty {args : List P} (vs : Values D args) :
    (vs.packs (R := R)).map Pack.ty = resultTys args := by
  induction vs with
  | nil => rfl
  | cons v vs ih => rw [packs, List.map_cons, ih]; rfl

lemma packs_wellTyped {args : List P} (vs : Values D args) :
    ∀ p ∈ vs.packs (R := R), p.WellTyped := by
  induction vs with
  | nil => simp [packs]
  | cons v vs ih =>
    rw [packs]
    exact List.forall_mem_cons.2 ⟨Pack.wellTyped_leaf _ _, ih⟩

end Values

/-- What is given to a connection: nested tuples, pairs and containers over continuables and
plain values. -/
abbrev Argument {P : Type} (D : P → Type) (R : List P → Type) :=
  { p : ConnPack D R // p.WellTyped ∧ p.ty.Allowed (fun l => isBox l = false) False }

/-- The tuple of the arguments. -/
def root (args : List (Argument D R)) : ConnPack D R := .tupleLike .tuple (args.map Subtype.val)

/-- The continuables among leaves. -/
def sources (leaves : List ((l : LeafTy P) × LeafVal D R l)) :
    List ((args : List P) × Source (R args)) :=
  leaves.filterMap fun
    | ⟨.continuable args, c⟩ => some ⟨args, c⟩
    | _ => none

def continuables (p : ConnPack D R) : List ((args : List P) × Source (R args)) := sources p.leaves

lemma mem_of_mem_sources {leaves : List ((l : LeafTy P) × LeafVal D R l)}
    {c : (args : List P) × Source (R args)} (h : c ∈ sources leaves) :
    ⟨.continuable c.1, c.2⟩ ∈ leaves := by
  obtain ⟨⟨l, v⟩, hmem, heq⟩ := List.mem_filterMap.1 h
  cases l with
  | continuable args =>
    obtain rfl := Option.some.inj heq
    exact hmem
  | plain p | box args => cases heq

lemma sources_filter (leaves : List ((l : LeafTy P) × LeafVal D R l)) :
    sources (leaves.filter fun x => isContinuable x.1) = sources leaves := by
  unfold sources
  rw [List.filterMap_filter]
  refine List.filterMap_congr fun x _ => ?_
  obtain ⟨l, v⟩ := x
  cases l <;> rfl

/-- The continuable is frozen, and materialized by `finish`. -/
def Source.prepare {R : Type} (c : Source R) : Source R :=
  { c with frozen := true, materialized := true }

def prepareContinuables : Mapper (LeafTy P) (LeafVal D R) where
  type l := if isContinuable l then some (.one (.leaf l)) else none
  call
    | .continuable args, c => .one (.leaf (.continuable args) (Source.prepare c))
    | l, v => .one (.leaf l v)
  formed l r h := by
    split_ifs at h
    cases h
    simp [Mapped.undecorate, Ty.Allowed]
  typed l v r h := by
    split_ifs at h
    cases h
    cases l with
    | continuable args =>
      exact ⟨rfl, List.forall_mem_singleton.2 (Pack.wellTyped_leaf _ _)⟩
    | plain p | box args => contradiction

@[simp] lemma prepareContinuables_accepts :
    (prepareContinuables : Mapper (LeafTy P) (LeafVal D R)).accepts = isContinuable := by
  funext l
  cases l <;> rfl

def prepareVal : (l : LeafTy P) → LeafVal D R l → LeafVal D R (id l)
  | .continuable _, c => Source.prepare c
  | .plain _, v => v
  | .box _, b => b

lemma prepareContinuables_renames :
    Renames (prepareContinuables : Mapper (LeafTy P) (LeafVal D R)) id prepareVal where
  type l := by cases l <;> rfl
  leaf l v := by cases l <;> rfl

lemma root_wellTyped (args : List (Argument D R)) : (root args).WellTyped := by
  simp only [root, Pack.WellTyped, Base.fits, List.mem_map, true_and]
  rintro _ ⟨p, -, rfl⟩
  exact p.2.1

lemma root_allowed (args : List (Argument D R)) :
    (root args).ty.Allowed (fun l => isBox l = false) False := by
  simp only [root, ty_tupleLike, Ty.Allowed, Base.fits, List.mem_map, true_and]
  rintro _ ⟨_, ⟨p, -, rfl⟩, rfl⟩
  exact p.2.2

/-- The pack after `prepare_continuables`. -/
def prepared (args : List (Argument D R)) : ConnPack D R := (root args).mapLeaves id prepareVal

lemma prepared_wellTyped (args : List (Argument D R)) : (prepared args).WellTyped :=
  Pack.wellTyped_mapLeaves (root_wellTyped args)

lemma prepared_ty (args : List (Argument D R)) : (prepared args).ty = (root args).ty := by
  rw [prepared, Pack.ty_mapLeaves, Ty.mapLeaves_id]

lemma continuables_prepared (args : List (Argument D R)) :
    continuables (prepared args) =
      (continuables (root args)).map fun c => ⟨c.1, c.2.prepare⟩ := by
  unfold continuables sources prepared
  rw [Pack.leaves_mapLeaves, List.filterMap_map, List.map_filterMap]
  refine List.filterMap_congr fun x _ => ?_
  obtain ⟨l, v⟩ := x
  cases l <;> rfl

end Continuable.Connection
