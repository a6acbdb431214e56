import Continuable.Aggregated
import Continuable.TraversePackCoverage

/-!
When `when_all` and `when_seq` hand on the results of their continuables.

The boxes are a renaming of the continuables, so unboxing them is resolving the continuables,
wherever all four traversals reach them.
-/

namespace Continuable.Aggregated

open Packs Connection

variable {P : Type} {D : P → Type}

abbrev Argument (D : P → Type) := Connection.Argument D (Values D)

/-! ### What is expected -/

/-- A continuable stands for its results, and a box for those of its continuable. -/
def resolver : Mapper (LeafTy P) (LeafVal D) where
  type
    | .continuable args | .box args => some (spreadThis (resultTys args))
    | .plain _ => none
  call
    | .continuable _, c => spreadThis (Source.resolution c).packs
    | .box _, b => spreadThis (Box.continuable b).resolution.packs
    | .plain p, v => .one (.leaf (.plain p) v)
  formed l r h := by
    cases l with
    | continuable args | box args =>
      cases h
      rw [spreadThis_undecorate]
      exact resultTys_wellFormed args
    | plain p => cases h
  typed l v r h := by
    cases l with
    | continuable args | box args =>
      cases h
      rw [spreadThis_undecorate, spreadThis_map, Values.packs_ty]
      exact ⟨rfl, Values.packs_wellTyped _⟩
    | plain p => cases h

/-- The arguments with every continuable replaced by its results. -/
def expected (args : List (Argument D)) : Option (List (ConnPack D)) :=
  finalizeData (unpackOrVoid (reference resolver (root args)))

/-- The continuables in boxes. -/
def boxed (leaves : List ((l : LeafTy P) × LeafVal D l)) :
    List ((args : List P) × Source (Values D args)) :=
  leaves.filterMap fun
    | ⟨.box args, b⟩ => some ⟨args, Box.continuable b⟩
    | _ => none

/-- The callback is called with what is expected, after every continuable of the pack was frozen,
materialized and started, once and in order. -/
def Works [DecidableEq P] [∀ p, Inhabited (D p)] (strategy : Strategy)
    (args : List (Argument D)) : Prop :=
  ∃ arguments started,
    connection strategy (args.map Subtype.val) = some (arguments, started) ∧
    expected args = some arguments ∧
    boxed started = (continuables (root args)).map fun c => ⟨c.1, c.2.prepare⟩

/-- The types whose nodes every traversal of the strategy reaches. -/
def reaches : Strategy → ConnTy P → Bool
  | .all => leading isContinuable
  | .seq => covered isContinuable

/-! ### The mappers rename leaves -/

@[simp] lemma continuableBoxUnpacker_accepts :
    (continuableBoxUnpacker : Mapper (LeafTy P) (LeafVal D)).accepts = isBox := by
  funext l
  cases l <;> rfl

section boxes

variable [∀ p, Inhabited (D p)]

@[simp] lemma continuableBoxPacker_accepts :
    (continuableBoxPacker : Mapper (LeafTy P) (LeafVal D)).accepts = isContinuable := by
  funext l
  cases l <;> rfl

lemma continuableBoxPacker_renames :
    Renames (continuableBoxPacker : Mapper (LeafTy P) (LeafVal D)) boxTy boxVal where
  type l := by cases l <;> rfl
  leaf l v := by cases l <;> rfl

/-- A prepared continuable in a box that its results were assigned to. -/
def dispatchedVal (l : LeafTy P) (v : LeafVal D l) : LeafVal D (boxTy l) :=
  visitAccepted isBox assign (boxTy l) (boxVal l (prepareVal l v))

lemma unpacker_fuses :
    Fuses resolver (continuableBoxUnpacker : Mapper (LeafTy P) (LeafVal D)) boxTy
      dispatchedVal where
  accepts := by funext l; cases l <;> rfl
  type l := by cases l <;> rfl
  leaf l v := by cases l <;> rfl

end boxes

/-! ### The dispatch -/

@[simp] lemma untypedAll_eq_map (ps : List (ConnPack D)) : untypedAll ps = ps.map untyped := by
  induction ps with
  | nil => rfl
  | cons p ps ih => simp [untypedAll, ih]

lemma acceptedLeaves_eq_flatMap {α : Type} (accepts : α → Bool) (ps : List (Traversal.Pack α)) :
    Traversal.acceptedLeaves accepts ps = ps.flatMap (Traversal.Pack.accepted accepts) := by
  induction ps with
  | nil => rfl
  | cons p ps ih => simp [Traversal.acceptedLeaves, ih]

lemma accepted_untyped (p : ConnPack D) :
    (untyped p).accepted (fun x => isBox x.1) = p.leaves.filter fun x => isBox x.1 := by
  induction p using Pack.induct with
  | leaf l v =>
    simp only [untyped, Traversal.Pack.accepted, Pack.leaves]
    cases hl : isBox l <;> simp [hl]
  | tupleLike b ps ih | array t ps ih | container t ps ih =>
    simp only [untyped, untypedAll_eq_map, Traversal.Pack.accepted, acceptedLeaves_eq_flatMap,
      Pack.leaves, Pack.leavesOf_eq_flatMap, List.flatMap_map, List.filter_flatMap]
    exact List.flatMap_congr ih

lemma dispatch_seq (p : ConnPack D) :
    dispatch .seq p = some (p.mapLeaves id (visitAccepted isBox assign),
      p.leaves.filter fun x => isBox x.1) := by
  simp [dispatch, Traversal.acceptedLeaves, accepted_untyped]

lemma dispatch_all {leafs : LeafTy P → Prop} {p : ConnPack D} (hp : p.WellTyped)
    (ha : p.ty.Allowed leafs False) (h : leading isBox p.ty = true) :
    dispatch .all p = some (p.mapLeaves id (visitAccepted isBox assign),
      p.leaves.filter fun x => isBox x.1) := by
  simp only [dispatch, traversePack]
  rw [if_pos (by rw [traverses_eq_leading ha, h]), traverse_of_leading hp ha h]

/-! ### Where the traversals reach everything -/

lemma isBox_boxTy (l : LeafTy P) (hl : isBox l = false) : isBox (boxTy l) = isContinuable l := by
  cases l with
  | box args => cases hl
  | plain p | continuable args => rfl

lemma covered_of_reaches {strategy : Strategy} {t : ConnTy P} (h : reaches strategy t = true) :
    covered isContinuable t = true := by
  cases strategy with
  | all => exact covered_of_leading h
  | seq => exact h

lemma exists_expected (args : List (Argument D)) : ∃ arguments, expected args = some arguments := by
  unfold expected root
  simp only [reference]
  split_ifs
  · unfold splice
    split
    · exact ⟨_, rfl⟩
    · exact ⟨_, rfl⟩
  · exact ⟨_, rfl⟩

section reached

variable [∀ p, Inhabited (D p)] {strategy : Strategy} {args : List (Argument D)}

/-- The pack after `box_continuables`. -/
def boxes (args : List (Argument D)) : ConnPack D := (prepared args).mapLeaves boxTy boxVal

lemma boxes_wellTyped (args : List (Argument D)) : (boxes args).WellTyped :=
  Pack.wellTyped_mapLeaves (prepared_wellTyped args)

lemma boxes_ty (args : List (Argument D)) : (boxes args).ty = (root args).ty.mapLeaves boxTy := by
  rw [boxes, Pack.ty_mapLeaves, prepared_ty]

lemma boxes_allowed (args : List (Argument D)) :
    (boxes args).ty.Allowed (fun _ => True) False := by
  rw [boxes_ty]
  exact Ty.allowed_mapLeaves (Ty.allowed_mono (fun _ _ => trivial) (root_allowed args))

lemma dispatch_boxes (h : reaches strategy (root args).ty = true) :
    dispatch strategy (boxes args) = some ((root args).mapLeaves boxTy dispatchedVal,
      (boxes args).leaves.filter fun x => isBox x.1) := by
  have hassigned : (boxes args).mapLeaves id (visitAccepted isBox assign) =
      (root args).mapLeaves boxTy dispatchedVal := by
    rw [boxes, prepared, Pack.mapLeaves_mapLeaves, Pack.mapLeaves_mapLeaves]
    rfl
  cases strategy with
  | seq => rw [dispatch_seq, hassigned]
  | all =>
    rw [dispatch_all (boxes_wellTyped args) (boxes_allowed args), hassigned]
    rw [boxes_ty, leading_mapLeaves_of isBox_boxTy (root_allowed args)]
    exact h

lemma boxed_boxes (args : List (Argument D)) :
    boxed ((boxes args).leaves.filter fun x => isBox x.1) =
      (continuables (root args)).map fun c => ⟨c.1, c.2.prepare⟩ := by
  have hleaves := Pack.leaves_allowed (root_wellTyped args) (root_allowed args)
  rw [boxes, prepared, Pack.leaves_mapLeaves, Pack.leaves_mapLeaves, continuables, sources]
  generalize (root args).leaves = l at hleaves ⊢
  induction l with
  | nil => rfl
  | cons x l ih =>
    have ih := ih fun y hy => hleaves y (List.mem_cons_of_mem x hy)
    obtain ⟨l, v⟩ := x
    cases l with
    | box args => exact absurd (hleaves _ List.mem_cons_self) (by simp [isBox])
    | plain p => exact ih
    | continuable args => exact congrArg (List.cons _) ih

variable [DecidableEq P]

theorem works_of_reaches (h : reaches strategy (root args).ty = true)
    (hfits : Fits (resolver : Mapper (LeafTy P) (LeafVal D)) (root args).ty) :
    Works strategy args := by
  have hp := root_wellTyped args
  have hc := covered_of_reaches h
  obtain ⟨arguments, hexpected⟩ := exists_expected args
  have hprepare := mapPack_of_renames prepareContinuables_renames hp
    (by rw [prepareContinuables_accepts, hc])
  have hbox := mapPack_of_renames continuableBoxPacker_renames (prepared_wellTyped args)
    (by rw [continuableBoxPacker_accepts, prepared_ty, hc])
  have hunbox := mapPack_of_covered (m := continuableBoxUnpacker)
    (p := (root args).mapLeaves boxTy dispatchedVal) (Pack.wellTyped_mapLeaves hp)
    (by rw [continuableBoxUnpacker_accepts, Pack.ty_mapLeaves,
      covered_mapLeaves_of isBox_boxTy (root_allowed args), hc])
    (by rw [Pack.ty_mapLeaves, unpacker_fuses.fits_iff]; exact hfits)
  rw [unpacker_fuses.reference_eq hp] at hunbox
  rw [← prepared] at hprepare
  rw [← boxes] at hbox
  refine ⟨arguments, _, ?_, hexpected, boxed_boxes args⟩
  unfold expected at hexpected
  rw [root] at hprepare
  simp only [connection, hprepare, hbox, dispatch_boxes h, hunbox, hexpected, Option.bind_eq_bind,
    Option.bind_some]

end reached

end Continuable.Aggregated
