import Continuable.LeafRenaming
import Continuable.MapPackValues

/-!
Mappers that replace every accepted leaf by one leaf.

They keep the shape of a pack, so what a second mapper makes of their result is what one mapper
makes of the pack they were given.
-/

namespace Continuable.Packs

variable {L : Type} {V : L → Type}

/-- The mapper makes one leaf of a leaf; leaves it does not accept stay. -/
structure Renames (m : Mapper L V) (f : L → L) (g : ∀ l, V l → V (f l)) : Prop where
  type : ∀ l, referenceTy m (.leaf l) = .one (.leaf (f l))
  leaf : ∀ l v, reference m (.leaf l v) = .one (.leaf (f l) (g l v))

section renames

variable {m : Mapper L V} {f : L → L} {g : ∀ l, V l → V (f l)}

lemma flatMap_of_one {α β : Type} {F : α → Mapped β} {G : α → β} {l : List α}
    (h : ∀ a ∈ l, F a = .one (G a)) : (l.map F).flatMap Mapped.undecorate = l.map G := by
  rw [List.map_congr_left h, List.flatMap_map]
  exact List.flatMap_pure_eq_map G l

lemma splice_of_one {α β : Type} {make : List β → β} {F : α → Mapped β} {G : α → β} {l : List α}
    (hne : l ≠ []) (h : ∀ a ∈ l, F a = .one (G a)) :
    splice make (l.map F) = .one (make (l.map G)) := by
  unfold splice
  rw [flatMap_of_one h]
  obtain ⟨a, l, rfl⟩ := List.exists_cons_of_ne_nil hne
  rfl

lemma Renames.referenceTy_eq (h : Renames m f g) (t : Ty L) :
    referenceTy m t = .one (t.mapLeaves f) := by
  induction t with
  | leaf l => exact h.type l
  | tupleLike b ts ih =>
    simp only [referenceTy, touchedAny_eq_any, referenceTys_eq_map, Ty.mapLeaves,
      Ty.mapLeavesOf_eq_map]
    cases ht : ts.any (touched m.accepts) with
    | true =>
      have hne : ts ≠ [] := by rintro rfl; cases ht
      rw [if_pos rfl, splice_of_one hne ih]
    | false =>
      simp only [List.any_eq_false, Bool.not_eq_true] at ht
      have hsame : ∀ t ∈ ts, t.mapLeaves f = id t := fun t hmem => by
        have := ih t hmem
        rw [referenceTy_of_untouched (ht t hmem)] at this
        exact (Mapped.one.inj this).symm
      rw [List.map_congr_left hsame, List.map_id]
      rfl
  | array t n ih =>
    simp only [referenceTy, Ty.mapLeaves]
    split_ifs with ht
    · simp [ih, Mapped.undecorate, arrayOf]
    · rw [referenceTy_of_untouched (Bool.of_not_eq_true ht)] at ih
      rw [← Mapped.one.inj ih]
  | container t ih =>
    simp only [referenceTy, Ty.mapLeaves]
    split_ifs with ht
    · rw [ih]
      rfl
    · rw [referenceTy_of_untouched (Bool.of_not_eq_true ht)] at ih
      rw [← Mapped.one.inj ih]

lemma Renames.reference_eq (h : Renames m f g) {p : Pack L V} (hp : p.WellTyped) :
    reference m p = .one (p.mapLeaves f g) := by
  induction p with
  | leaf l v => exact h.leaf l v
  | tupleLike b ps ih =>
    simp only [Pack.WellTyped] at hp
    have ih' := fun p hp' => ih p hp' (hp.2 p hp')
    simp only [reference, touchedAny_eq_any, referenceAll_eq_map, Pack.mapLeaves,
      Pack.mapLeavesOf_eq_map, Pack.tys_eq_map, List.any_map]
    cases ht : ps.any (touched m.accepts ∘ Pack.ty) with
    | true =>
      have hne : ps ≠ [] := by rintro rfl; cases ht
      rw [if_pos rfl, splice_of_one hne ih']
    | false =>
      simp only [List.any_eq_false, Bool.not_eq_true, Function.comp_apply] at ht
      have hsame : ∀ p ∈ ps, p.mapLeaves f g = id p := fun p hmem => by
        have := ih' p hmem
        rw [reference_of_untouched (ht p hmem)] at this
        exact (Mapped.one.inj this).symm
      rw [List.map_congr_left hsame, List.map_id]
      rfl
  | array t ps ih =>
    simp only [Pack.WellTyped] at hp
    have ih' := fun p hp' => ih p hp' (hp.2 p hp').2
    have hty := h.referenceTy_eq t
    simp only [reference, referenceAll_eq_map, Pack.mapLeaves, Pack.mapLeavesOf_eq_map]
    split_ifs with ht
    · rw [hty, flatMap_of_one ih']
      rfl
    · have ht' := Bool.of_not_eq_true ht
      rw [referenceTy_of_untouched ht'] at hty
      have hsame : ∀ p ∈ ps, p.mapLeaves f g = id p := fun p hmem => by
        have := ih' p hmem
        rw [reference_of_untouched (by rw [(hp.2 p hmem).1]; exact ht')] at this
        exact (Mapped.one.inj this).symm
      rw [List.map_congr_left hsame, List.map_id, ← Mapped.one.inj hty]
  | container t ps ih =>
    simp only [Pack.WellTyped] at hp
    have ih' := fun p hp' => ih p hp' (hp.2 p hp').2
    have hty := h.referenceTy_eq t
    simp only [reference, referenceAll_eq_map, Pack.mapLeaves, Pack.mapLeavesOf_eq_map]
    split_ifs with ht
    · rw [hty, List.map_congr_left ih']
      simp [remapContainer, Ty.unpack, Pack.unpack]
    · have ht' := Bool.of_not_eq_true ht
      rw [referenceTy_of_untouched ht'] at hty
      have hsame : ∀ p ∈ ps, p.mapLeaves f g = id p := fun p hmem => by
        have := ih' p hmem
        rw [reference_of_untouched (by rw [(hp.2 p hmem).1]; exact ht')] at this
        exact (Mapped.one.inj this).symm
      rw [List.map_congr_left hsame, List.map_id, ← Mapped.one.inj hty]

lemma Renames.fits (h : Renames m f g) {t : Ty L} (ht : t.WellFormed) : Fits m t :=
  fits_of_one (fun t => ⟨_, h.referenceTy_eq t⟩) ht

lemma Renames.tryTraverseTy_one (h : Renames m f g) {t : Ty L} (ha : t.Allowed leafs False) :
    ∃ u, tryTraverseTy m t = .one u := by
  induction t with
  | leaf l => exact ⟨_, h.type l⟩
  | tupleLike b ts ih =>
    simp only [Ty.Allowed] at ha
    have hone : ∀ t ∈ ts, ∃ u, tryTraverseTy m t = .one u := fun t ht => ih t ht (ha.2 t ht)
    have hlen := length_flatMap_one hone
    simp only [tryTraverseTy, tryTraverseTys_eq_map]
    split_ifs with hany
    · unfold flatTupelizeTo
      split
      · rename_i hnil
        rw [hnil, List.length_nil, eq_comm, List.length_eq_zero_iff] at hlen
        rw [hlen] at hany
        cases hany
      · split_ifs <;> exact ⟨_, rfl⟩
    · exact ⟨_, rfl⟩
  | array t n ih =>
    simp only [Ty.Allowed] at ha
    exact ha.1.elim
  | container t ih =>
    simp only [Ty.Allowed] at ha
    simp only [tryTraverseTy]
    split_ifs
    · obtain ⟨u, hu⟩ := ih ha
      rw [hu]
      exact ⟨_, rfl⟩
    · exact ⟨_, rfl⟩

lemma tryTraverseTy_of_keeps (h : ∀ l, referenceTy m (.leaf l) = .one (.leaf l)) {t : Ty L}
    (ha : t.Allowed leafs False) : tryTraverseTy m t = .one t := by
  induction t with
  | leaf l => exact h l
  | tupleLike b ts ih =>
    simp only [Ty.Allowed] at ha
    have hmap : (ts.map (tryTraverseTy m)).flatMap Mapped.undecorate = ts := by
      rw [flatMap_of_one (G := id) fun t ht => ih t ht (ha.2 t ht), List.map_id]
    simp only [tryTraverseTy, tryTraverseTys_eq_map]
    split_ifs with hany
    · unfold flatTupelizeTo
      split
      · rename_i hnil
        rw [← hmap, hnil] at hany
        cases hany
      · rw [hmap, if_pos ha.1, Option.getD_some]
    · rfl
  | array t n ih =>
    simp only [Ty.Allowed] at ha
    exact ha.1.elim
  | container t ih =>
    simp only [Ty.Allowed] at ha
    simp only [tryTraverseTy, ih ha]
    split_ifs <;> rfl

lemma mapPack_of_covered [DecidableEq L] {p : Pack L V}
    (hp : p.WellTyped) (hc : covered m.accepts p.ty = true) (hf : Fits m p.ty) :
    mapPack m [p] = some (unpackOrVoid (reference m p),
      (p.accepted m : Multiset ((l : L) × V l))) := by
  unfold mapPack
  rw [if_pos (by simpa [Pack.tys] using compiles_of_covered hc hf)]
  simp only [tryTraverse_of_covered hp hc hf]

lemma mapPack_of_renames [DecidableEq L] (hm : Renames m f g)
    {p : Pack L V} (hp : p.WellTyped) (hc : covered m.accepts p.ty = true) :
    mapPack m [p] = some (some (p.mapLeaves f g),
      (p.accepted m : Multiset ((l : L) × V l))) := by
  rw [mapPack_of_covered hp hc (hm.fits hp.ty_wellFormed), hm.reference_eq hp]
  rfl

end renames

/-! ### A mapper on renamed leaves -/

/-- What the second mapper makes of a renamed leaf is what the first one makes of the leaf. -/
structure Fuses (m m' : Mapper L V) (f : L → L) (g : ∀ l, V l → V (f l)) : Prop where
  accepts : m'.accepts ∘ f = m.accepts
  type : ∀ l, referenceTy m' (.leaf (f l)) = referenceTy m (.leaf l)
  leaf : ∀ l v, reference m' (.leaf (f l) (g l v)) = reference m (.leaf l v)

section fuses

variable {m m' : Mapper L V} {f : L → L} {g : ∀ l, V l → V (f l)}

lemma Fuses.mapLeaves_of_untouched (h : Fuses m m' f g) {t : Ty L}
    (ht : touched m.accepts t = false) (heq : referenceTy m' (t.mapLeaves f) = referenceTy m t) :
    t.mapLeaves f = t := by
  rw [referenceTy_of_untouched ht,
    referenceTy_of_untouched (by rw [touched_mapLeaves, h.accepts, ht])] at heq
  exact Mapped.one.inj heq

lemma Fuses.mapLeaves_of_untouched_pack (h : Fuses m m' f g) {p : Pack L V}
    (ht : touched m.accepts p.ty = false)
    (heq : reference m' (p.mapLeaves f g) = reference m p) : p.mapLeaves f g = p := by
  rw [reference_of_untouched ht, reference_of_untouched
    (by rw [Pack.ty_mapLeaves, touched_mapLeaves, h.accepts, ht])] at heq
  exact Mapped.one.inj heq

lemma Fuses.referenceTy_eq (h : Fuses m m' f g) (t : Ty L) :
    referenceTy m' (t.mapLeaves f) = referenceTy m t := by
  induction t with
  | leaf l => exact h.type l
  | tupleLike b ts ih =>
    have htouched : touched m'.accepts (Ty.mapLeaves f (.tupleLike b ts)) = _ :=
      touched_mapLeaves _
    rw [h.accepts] at htouched
    simp only [Ty.mapLeaves, Ty.mapLeavesOf_eq_map, touched] at htouched
    simp only [Ty.mapLeaves, Ty.mapLeavesOf_eq_map, referenceTy, htouched, referenceTys_eq_map,
      List.map_map]
    cases ht : touchedAny m.accepts ts with
    | true =>
      rw [if_pos rfl, if_pos rfl]
      congr 1
      exact List.map_congr_left ih
    | false =>
      rw [touchedAny_eq_any, List.any_eq_false] at ht
      have hsame : ∀ t ∈ ts, t.mapLeaves f = id t := fun t hmem =>
        h.mapLeaves_of_untouched (Bool.of_not_eq_true (ht t hmem)) (ih t hmem)
      rw [List.map_congr_left hsame, List.map_id]
      rfl
  | array t n ih =>
    simp only [Ty.mapLeaves, referenceTy, touched_mapLeaves, h.accepts]
    split_ifs with ht
    · rw [ih]
    · rw [h.mapLeaves_of_untouched (Bool.of_not_eq_true ht) ih]
  | container t ih =>
    simp only [Ty.mapLeaves, referenceTy, touched_mapLeaves, h.accepts]
    split_ifs with ht
    · rw [ih]
    · rw [h.mapLeaves_of_untouched (Bool.of_not_eq_true ht) ih]

lemma Fuses.reference_eq (h : Fuses m m' f g) {p : Pack L V} (hp : p.WellTyped) :
    reference m' (p.mapLeaves f g) = reference m p := by
  induction p with
  | leaf l v => exact h.leaf l v
  | tupleLike b ps ih =>
    simp only [Pack.WellTyped] at hp
    have ih' := fun p hp' => ih p hp' (hp.2 p hp')
    have htouched : touched m'.accepts (Ty.mapLeaves f (.tupleLike b (Pack.tys ps))) = _ :=
      touched_mapLeaves _
    rw [h.accepts] at htouched
    have htys : Pack.tys (ps.map (Pack.mapLeaves f g)) = (Pack.tys ps).map (Ty.mapLeaves f) := by
      simp only [Pack.tys_eq_map, List.map_map]
      exact List.map_congr_left fun p _ => Pack.ty_mapLeaves p
    simp only [Ty.mapLeaves, Ty.mapLeavesOf_eq_map, touched] at htouched
    simp only [Pack.mapLeaves, Pack.mapLeavesOf_eq_map, reference, htys, htouched,
      referenceAll_eq_map, List.map_map]
    cases ht : touchedAny m.accepts (Pack.tys ps) with
    | true =>
      rw [if_pos rfl, if_pos rfl]
      congr 1
      exact List.map_congr_left ih'
    | false =>
      simp only [touchedAny_eq_any, Pack.tys_eq_map, List.any_map, List.any_eq_false,
        Function.comp_apply, Bool.not_eq_true] at ht
      have hsame : ∀ p ∈ ps, p.mapLeaves f g = id p := fun p hmem =>
        h.mapLeaves_of_untouched_pack (ht p hmem) (ih' p hmem)
      rw [List.map_congr_left hsame, List.map_id]
      rfl
  | array t ps ih =>
    simp only [Pack.WellTyped] at hp
    have ih' := fun p hp' => ih p hp' (hp.2 p hp').2
    have hmap : ps.map (reference m' ∘ Pack.mapLeaves f g) = ps.map (reference m) :=
      List.map_congr_left ih'
    simp only [Pack.mapLeaves, Pack.mapLeavesOf_eq_map, reference, touched_mapLeaves, h.accepts,
      h.referenceTy_eq, referenceAll_eq_map, List.map_map]
    split_ifs with ht
    · rw [hmap]
    · have ht' := Bool.of_not_eq_true ht
      have hsame : ∀ p ∈ ps, p.mapLeaves f g = id p := fun p hmem =>
        h.mapLeaves_of_untouched_pack (by rw [(hp.2 p hmem).1]; exact ht') (ih' p hmem)
      rw [List.map_congr_left hsame, List.map_id,
        h.mapLeaves_of_untouched ht' (h.referenceTy_eq t)]
  | container t ps ih =>
    simp only [Pack.WellTyped] at hp
    have ih' := fun p hp' => ih p hp' (hp.2 p hp').2
    have hmap : ps.map (reference m' ∘ Pack.mapLeaves f g) = ps.map (reference m) :=
      List.map_congr_left ih'
    simp only [Pack.mapLeaves, Pack.mapLeavesOf_eq_map, reference, touched_mapLeaves, h.accepts,
      h.referenceTy_eq, referenceAll_eq_map, List.map_map]
    split_ifs with ht
    · rw [hmap]
    · have ht' := Bool.of_not_eq_true ht
      have hsame : ∀ p ∈ ps, p.mapLeaves f g = id p := fun p hmem =>
        h.mapLeaves_of_untouched_pack (by rw [(hp.2 p hmem).1]; exact ht') (ih' p hmem)
      rw [List.map_congr_left hsame, List.map_id,
        h.mapLeaves_of_untouched ht' (h.referenceTy_eq t)]

lemma Fuses.fits_iff (h : Fuses m m' f g) (t : Ty L) : Fits m' (t.mapLeaves f) ↔ Fits m t := by
  induction t with
  | leaf l => simp [Ty.mapLeaves, Fits]
  | tupleLike b ts ih =>
    have hmap : ts.map (referenceTy m' ∘ Ty.mapLeaves f) = ts.map (referenceTy m) :=
      List.map_congr_left fun t _ => h.referenceTy_eq t
    simp only [Ty.mapLeaves, Ty.mapLeavesOf_eq_map, Fits, List.map_map, hmap, List.mem_map,
      forall_exists_index, and_imp, forall_apply_eq_imp_iff₂]
    exact and_congr_left fun _ => forall₂_congr ih
  | array t n ih => simp only [Ty.mapLeaves, Fits, h.referenceTy_eq, ih]
  | container t ih => simp only [Ty.mapLeaves, Fits, ih]

end fuses

end Continuable.Packs
