import Continuable.MapPackValues
import Continuable.UnitMapper

/-!
`map_pack` agrees with its reference exactly on packs whose types are covered.
-/

namespace Continuable.Packs

variable {L : Type} {V : L → Type}

section unit

variable {accepts : L → Bool}

lemma eq_of_unpackOrVoid {r r' : Mapped (Pack L V)} (hr : (∃ p, r = .one p) ∨ r = .spread [])
    (hr' : ∃ p, r' = .one p) (h : unpackOrVoid r = unpackOrVoid r') : r = r' := by
  obtain ⟨p', rfl⟩ := hr'
  rcases hr with ⟨p, rfl⟩ | rfl
  · simp only [unpackOrVoid, Pack.unpack, Option.some.injEq] at h
    rw [h]
  · simp [unpackOrVoid] at h

lemma flatMap_eq_of_tupelizeOrVoid {args args' : List (Mapped (Pack L V))}
    (h : tupelizeOrVoid args = tupelizeOrVoid args') :
    args.flatMap Mapped.undecorate = args'.flatMap Mapped.undecorate := by
  unfold tupelizeOrVoid at h
  cases hl : args.flatMap Mapped.undecorate with
  | nil =>
    cases hl' : args'.flatMap Mapped.undecorate with
    | nil => rfl
    | cons p l => simp [hl, hl'] at h
  | cons p l =>
    cases hl' : args'.flatMap Mapped.undecorate with
    | nil => simp [hl, hl'] at h
    | cons p' l' => simpa [hl, hl'] using h

lemma covered_of_mapPack [DecidableEq L] {ps : List (Pack L V)} (hps : ∀ p ∈ ps, p.WellTyped)
    {calls : Multiset ((l : L) × V l)}
    (h : mapPack (unitMapper V accepts) ps =
      some (referencePack (unitMapper V accepts) ps, calls)) :
    ∀ p ∈ ps, covered accepts p.ty = true := by
  have htry : ∀ p ∈ ps, (∃ q, (tryTraverse (unitMapper V accepts) p).1 = .one q) ∨
      (tryTraverse (unitMapper V accepts) p).1 = .spread [] := fun p hp => by
    have hty := tryTraverse_ty (m := unitMapper V accepts) (hps p hp)
    rcases tryTraverseTy_unit V accepts p.ty with ⟨u, hu⟩ | hu
    · rw [hu] at hty
      exact Or.inl (Mapped.eq_one_of_map hty)
    · rw [hu] at hty
      exact Or.inr (Mapped.eq_spread_nil_of_map hty)
  have href : ∀ p ∈ ps, ∃ q, reference (unitMapper V accepts) p = .one q := fun p hp => by
    have hty := reference_ty (m := unitMapper V accepts) (hps p hp)
    obtain ⟨u, hu, -⟩ := referenceTy_unit V accepts p.ty
    rw [hu] at hty
    exact Mapped.eq_one_of_map hty
  have hparts : ∀ p ∈ ps, (tryTraverse (unitMapper V accepts) p).1 =
      reference (unitMapper V accepts) p := by
    unfold mapPack at h
    split_ifs at h
    rcases ps with _ | ⟨p, _ | ⟨q, ps⟩⟩
    · simp
    · simp only [referencePack, Option.some.injEq, Prod.mk.injEq] at h
      simpa using eq_of_unpackOrVoid (htry p List.mem_cons_self) (href p List.mem_cons_self) h.1
    · simp only [referencePack, Option.some.injEq, Prod.mk.injEq, tryTraverseAll_fst,
        referenceAll_eq_map] at h
      exact eq_of_flatMap_eq htry href (flatMap_eq_of_tupelizeOrVoid h.1)
  intro p hp
  refine covered_of_tryTraverseTy_eq (V := V) ?_
  rw [← tryTraverse_ty (hps p hp), ← reference_ty (hps p hp), hparts p hp]

end unit

/-- **`map_pack` against its reference**: for every mapper that accepts a set of leaf types, and
whose results fit into the nodes around them, `map_pack` compiles, calls the mapper once for
every accepted leaf and returns what the reference returns, if and only if the types of the pack
are covered. -/
theorem mapPack_eq_reference_iff [DecidableEq L] (accepts : L → Bool)
    (ps : List (TypedPack L V)) :
    (∀ m : Mapper L V, m.accepts = accepts → (∀ p ∈ ps, Fits m p.1.ty) →
      mapPack m (ps.map Subtype.val) = some (referencePack m (ps.map Subtype.val),
        ((ps.map Subtype.val).flatMap (Pack.accepted m) : Multiset ((l : L) × V l)))) ↔
      ∀ p ∈ ps, covered accepts p.1.ty = true := by
  constructor
  · intro h p hp
    refine covered_of_mapPack (fun q hq => ?_) (h (unitMapper V accepts)
      (unitMapper_accepts V accepts) fun q _ => fits_unit q.2.ty_wellFormed) p.1
      (List.mem_map_of_mem hp)
    obtain ⟨q, -, rfl⟩ := List.mem_map.1 hq
    exact q.2
  · rintro h m rfl hfits
    have hforall : ∀ p ∈ ps.map Subtype.val, tryTraverse m p =
        (reference m p, (p.accepted m : Multiset ((l : L) × V l))) := by
      intro p hp
      obtain ⟨q, hq, rfl⟩ := List.mem_map.1 hp
      exact tryTraverse_of_covered q.2 (h q hq) (hfits q hq)
    have hcompiles : (Pack.tys (ps.map Subtype.val)).all (compiles m) = true := by
      simp only [Pack.tys_eq_map, List.map_map, List.all_map, List.all_eq_true]
      exact fun p hp => compiles_of_covered (h p hp) (hfits p hp)
    generalize ps.map Subtype.val = qs at hforall hcompiles ⊢
    unfold mapPack
    rw [if_pos hcompiles]
    rcases qs with _ | ⟨p, _ | ⟨q, qs⟩⟩
    · rfl
    · simp [hforall p List.mem_cons_self, referencePack]
    · simp only [tryTraverseAll_of_forall hforall, referencePack, referenceAll_eq_map]

/-- A mapper that increments the values of the leaf type `true`. -/
def incrementer : Mapper Bool fun _ => ℕ where
  type l := if l then some (.one (.leaf true)) else none
  call _ v := .one (.leaf true (v + 1))
  formed l r h := by
    split_ifs at h
    cases h
    simp [Mapped.undecorate, Ty.Allowed]
  typed l v r h := by
    split_ifs at h
    cases h
    exact ⟨rfl, by simp [Mapped.undecorate]⟩

/-- A tuple that holds a tuple with an accepted leaf and one that is not accepted. -/
def nestedMixed (v : ℕ) : Pack Bool fun _ => ℕ :=
  .tupleLike .tuple [.tupleLike .tuple [.leaf true v, .leaf false 0]]

/-- The mapper is not called for the accepted leaf, which stays in the pack. -/
theorem mapPack_nestedMixed :
    mapPack incrementer [nestedMixed 1] = some (some (nestedMixed 1), 0) ∧
    referencePack incrementer [nestedMixed 1] = some (nestedMixed 2) ∧
    (nestedMixed 1).accepted incrementer = [⟨true, 1⟩] :=
  ⟨rfl, rfl, rfl⟩

end Continuable.Packs
