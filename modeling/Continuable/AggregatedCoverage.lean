import Continuable.AggregatedResults
import Continuable.RemapLeftovers

/-!
`when_all` and `when_seq` hand on the right results only if every traversal reaches every node
that is above a continuable.

What a traversal does not reach stays in the pack: a continuable that was not put into a box is
still a continuable after the last traversal.
-/

namespace Continuable.Aggregated

open Packs Connection

variable {P : Type} {D : P → Type} {strategy : Strategy} {args : List (Argument D)}

lemma mapPack_one [DecidableEq P] {m : Mapper (LeafTy P) (LeafVal D)} {leafs : LeafTy P → Prop}
    {p : ConnPack D} (hp : p.WellTyped) (ha : p.ty.Allowed leafs False) {u : ConnTy P}
    (hu : tryTraverseTy m p.ty = .one u) :
    ∃ q calls, mapPack m [p] = some (some q, calls) ∧ q.ty = u ∧ q.WellTyped := by
  have hc : compiles m p.ty = true := compiles_of_allowed ha
  have hty := tryTraverse_ty (m := m) hp
  rw [hu] at hty
  obtain ⟨q, hq⟩ := Mapped.eq_one_of_map hty
  rw [hq] at hty
  refine ⟨q, (tryTraverse m p).2, ?_, Mapped.one.inj hty, ?_⟩
  · unfold mapPack
    rw [if_pos (by simpa [Pack.tys] using hc)]
    simp only [hq, unpackOrVoid, Pack.unpack]
  · refine wellTyped_tryTraverse hp hc q ?_
    rw [hq]
    exact List.mem_singleton_self q

lemma dispatch_some {p : ConnPack D} {leafs : LeafTy P → Prop} (hp : p.WellTyped)
    (ha : p.ty.Allowed leafs False) {r : ConnPack D × List ((l : LeafTy P) × LeafVal D l)}
    (h : dispatch strategy p = some r) :
    (r.1.ty = p.ty ∧ r.1.WellTyped) ∧ (strategy = .all → leading isBox p.ty = true) := by
  have hkept : ∀ {g : ∀ l : LeafTy P, LeafVal D l → LeafVal D (id l)},
      (p.mapLeaves id g).ty = p.ty ∧ (p.mapLeaves id g).WellTyped :=
    ⟨by rw [Pack.ty_mapLeaves, Ty.mapLeaves_id], Pack.wellTyped_mapLeaves hp⟩
  cases strategy with
  | seq =>
    rw [dispatch_seq] at h
    obtain rfl := Option.some.inj h
    exact ⟨hkept, fun h => by cases h⟩
  | all =>
    -- The traversal of `when_all` compiles only where it reaches everything.
    have hleading : leading isBox p.ty = true := by
      rw [← traverses_eq_leading ha]
      simp only [dispatch, traversePack] at h
      split_ifs at h with htraverses
      exact htraverses
    rw [dispatch_all hp ha hleading] at h
    obtain rfl := Option.some.inj h
    exact ⟨hkept, fun _ => hleading⟩

lemma eq_of_finalizeData {r : Mapped (ConnPack D)} {arguments : List (ConnPack D)}
    (h : finalizeData (unpackOrVoid r) = some arguments) :
    r = .spread arguments ∨ r = .one (.tupleLike .tuple arguments) := by
  match r with
  | .spread [] =>
    rw [← Option.some.inj h]
    exact Or.inl rfl
  | .spread (p :: ps) =>
    rw [← Option.some.inj h]
    exact Or.inl rfl
  | .one (.tupleLike .tuple ps) =>
    rw [← Option.some.inj h]
    exact Or.inr rfl
  | .one (.tupleLike .pair ps) | .one (.leaf l v) | .one (.array t ps) | .one (.container t ps) =>
    cases h

lemma touchedIn_of_finalizeData {accepts : LeafTy P → Bool} {r : Mapped (ConnPack D)}
    {arguments : List (ConnPack D)} (h : finalizeData (unpackOrVoid r) = some arguments) :
    TouchedIn accepts (r.map Pack.ty) ↔ ∃ p ∈ arguments, touched accepts p.ty = true := by
  rcases eq_of_finalizeData h with rfl | rfl
  · simp [TouchedIn, Mapped.map, Mapped.undecorate]
  · simp [TouchedIn, Mapped.map, Mapped.undecorate, Pack.ty, touched, touchedAny_eq_any]

lemma wellTyped_of_finalizeData {r : Mapped (ConnPack D)} {arguments : List (ConnPack D)}
    (h : finalizeData (unpackOrVoid r) = some arguments) :
    (∀ q ∈ r.undecorate, q.WellTyped) ↔ ∀ p ∈ arguments, p.WellTyped := by
  rcases eq_of_finalizeData h with rfl | rfl
  · simp [Mapped.undecorate]
  · simp [Mapped.undecorate, Pack.WellTyped, Base.fits]

lemma not_touchedIn_resolver (t : ConnTy P) :
    ¬ TouchedIn isContinuable (referenceTy (resolver : Mapper (LeafTy P) (LeafVal D)) t) := by
  refine not_touchedIn_referenceTy ?_ ?_ t
  · rintro l r hr ⟨u, hu, htouched⟩
    cases l with
    | plain p => cases hr
    | continuable args | box args =>
      cases hr
      rw [spreadThis_undecorate] at hu
      obtain ⟨p, -, rfl⟩ := List.mem_map.1 hu
      cases htouched
  · intro l hl
    cases l with
    | continuable args => rfl
    | plain p | box args => cases hl

lemma isContinuable_not_unpacked (l : LeafTy P) (hl : isContinuable l = true) :
    (continuableBoxUnpacker : Mapper (LeafTy P) (LeafVal D)).type l = none := by
  cases l with
  | continuable args => rfl
  | plain p | box args => cases hl

section works

variable [∀ p, Inhabited (D p)] [DecidableEq P]

lemma connection_some {arguments : List (ConnPack D)}
    {started : List ((l : LeafTy P) × LeafVal D l)}
    (h : connection strategy (args.map Subtype.val) = some (arguments, started)) :
    ∃ u q, tryTraverseTy (continuableBoxPacker : Mapper (LeafTy P) (LeafVal D)) (root args).ty =
        .one u ∧
      q.ty = u ∧ q.WellTyped ∧ u.Allowed (fun _ => True) False ∧
      (strategy = .all → leading isBox u = true) ∧
      finalizeData (unpackOrVoid (tryTraverse continuableBoxUnpacker q).1) = some arguments := by
  have ha := root_allowed args
  obtain ⟨prepared, calls, hprepare, hty, hwt⟩ := mapPack_one (root_wellTyped args) ha
    (tryTraverseTy_of_keeps prepareContinuables_renames.type ha)
  rw [← hty] at ha
  obtain ⟨u, hu⟩ := (continuableBoxPacker_renames (D := D)).tryTraverseTy_one ha
  obtain ⟨boxed, calls', hbox, rfl, hwt'⟩ := mapPack_one hwt ha hu
  have hallowed : boxed.ty.Allowed (fun _ => True) False := by
    refine allowed_tryTraverseTy (m := continuableBoxPacker (D := D)) ?_
      (Ty.allowed_mono (fun _ _ => trivial) ha) boxed.ty ?_
    · intro l r _ hr v hv
      simp only [continuableBoxPacker] at hr
      split_ifs at hr
      cases hr
      rw [List.mem_singleton.1 hv]
      simp [Ty.Allowed]
    · rw [hu]
      exact List.mem_singleton_self _
  rw [root] at hprepare
  simp only [connection, hprepare, hbox, Option.bind_eq_bind, Option.bind_some,
    Option.bind_eq_some_iff] at h
  obtain ⟨dispatched, hdispatch, unboxed, hunbox, arguments', hfinal, heq⟩ := h
  obtain ⟨⟨hty', hwt''⟩, hall⟩ := dispatch_some hwt' hallowed hdispatch
  refine ⟨boxed.ty, dispatched.1, ?_, hty', hwt'', hallowed, hall, ?_⟩
  · rw [← hty]
    exact hu
  · unfold mapPack at hunbox
    split_ifs at hunbox
    obtain rfl := Option.some.inj hunbox
    obtain ⟨rfl, -⟩ := Prod.mk.inj (Option.some.inj heq)
    exact hfinal

theorem reaches_of_works (h : Works strategy args) :
    reaches strategy (root args).ty = true ∧
      Fits (resolver : Mapper (LeafTy P) (LeafVal D)) (root args).ty := by
  obtain ⟨arguments, started, hconnection, hexpected, -⟩ := h
  obtain ⟨_, q, hu, rfl, hwt, hallowed, hall, hfinal⟩ := connection_some hconnection
  have ha := root_allowed args
  have hreference := reference_ty (m := resolver) (root_wellTyped args)
  -- What is expected has no continuables, so none is left in the boxes either.
  have hnone : ¬ ∃ p ∈ arguments, touched isContinuable p.ty = true := by
    rw [← touchedIn_of_finalizeData hexpected, hreference]
    exact not_touchedIn_resolver (root args).ty
  have hboxes : ¬ touched isContinuable q.ty = true := by
    intro htouched
    refine hnone ((touchedIn_of_finalizeData hfinal).1 ?_)
    rw [tryTraverse_ty hwt]
    exact touchedIn_tryTraverseTy isContinuable_not_unpacked hallowed htouched
  have hcovered : covered isContinuable (root args).ty = true := by
    rw [← continuableBoxPacker_accepts (D := D)]
    refine covered_of_not_touchedIn ha ?_
    rw [hu, touchedIn_one, continuableBoxPacker_accepts]
    exact hboxes
  -- What was handed on is well typed, so what is expected is.
  have hfits : Fits (resolver : Mapper (LeafTy P) (LeafVal D)) (root args).ty := by
    have hformed : ∀ p ∈ arguments, p.WellTyped :=
      (wellTyped_of_finalizeData hfinal).1
        (wellTyped_tryTraverse hwt (compiles_of_allowed hallowed))
    refine fits_of_formed ha ?_
    rw [← hreference, Mapped.undecorate_map]
    rintro _ hmem
    obtain ⟨p, hp, rfl⟩ := List.mem_map.1 hmem
    exact ((wellTyped_of_finalizeData hexpected).2 hformed p hp).ty_wellFormed
  refine ⟨?_, hfits⟩
  cases strategy with
  | seq => exact hcovered
  | all =>
    have hrenames := continuableBoxPacker_renames (D := D)
    have hty : q.ty = (root args).ty.mapLeaves boxTy := by
      refine Mapped.one.inj (hu.symm.trans ?_)
      rw [← hrenames.referenceTy_eq, (traverseTy_of_covered ?_ ?_).2]
      · rw [continuableBoxPacker_accepts]
        exact hcovered
      · exact hrenames.fits (root_wellTyped args).ty_wellFormed
    have hleading := hall rfl
    rwa [hty, leading_mapLeaves_of isBox_boxTy ha] at hleading

/-- **Results of the aggregated connections**: the callback is called with the pack in which every
continuable is replaced by its results, and every continuable was prepared and started once, if
and only if all traversals reach every node above a continuable and every pair gets two results
or none. -/
theorem works_iff (strategy : Strategy) (args : List (Argument D)) :
    Works strategy args ↔ reaches strategy (root args).ty = true ∧
      Fits (resolver : Mapper (LeafTy P) (LeafVal D)) (root args).ty :=
  ⟨reaches_of_works, fun h => works_of_reaches h.1 h.2⟩

end works

/-! ### A mixed tuple -/

/-- `std::make_tuple(c, 2)` with a continuable `c` that resolves with `1`. -/
def mixedTuple : Argument fun _ : Unit => ℕ where
  val := .tupleLike .tuple [.leaf (.continuable [()]) (⟨.cons 1 .nil, false, false⟩ : Source _),
    .leaf (.plain ()) (2 : ℕ)]
  property := by
    refine ⟨?_, by simp [Pack.ty, Ty.Allowed, Base.fits, isBox]⟩
    simp only [Pack.WellTyped, Base.fits, true_and, List.forall_mem_cons]
    exact ⟨Pack.wellTyped_leaf _ _, Pack.wellTyped_leaf _ _, by simp⟩

/-- The continuable is neither prepared nor started, and is handed on itself. -/
lemma connection_mixedTuple (strategy : Strategy) :
    connection strategy [mixedTuple.1] = some ([mixedTuple.1], []) := by
  cases strategy with
  | all => rfl
  | seq => rfl

/-- `when_all(std::make_tuple(c, 2))` and `when_seq(std::make_tuple(c, 2))`. -/
theorem mixedTuple_not_works : ¬ Works .all [mixedTuple] ∧ ¬ Works .seq [mixedTuple] := by
  have hnot : ∀ strategy, ¬ Works strategy [mixedTuple] := by
    rintro strategy ⟨arguments, started, h, -, hstarted⟩
    rw [List.map_singleton, connection_mixedTuple] at h
    obtain ⟨-, rfl⟩ := Prod.mk.inj (Option.some.inj h)
    cases hstarted
  exact ⟨hnot .all, hnot .seq⟩

end Continuable.Aggregated
