import Continuable.RemapReference

/-!
The values a mapping computes have the types it computes, both for `map_pack` and for its
reference.
-/

namespace Continuable.Packs

variable {L : Type} {V : L → Type} {m : Mapper L V}

@[simp] lemma tryTraverseAll_fst (ps : List (Pack L V)) :
    (tryTraverseAll m ps).1 = ps.map fun p => (tryTraverse m p).1 := by
  induction ps with
  | nil => rfl
  | cons p ps ih => simp [tryTraverseAll, ih]

@[simp] lemma tryTraverseAll_snd (ps : List (Pack L V)) :
    (tryTraverseAll m ps).2 = (ps.map fun p => (tryTraverse m p).2).sum := by
  induction ps with
  | nil => rfl
  | cons p ps ih => simp [tryTraverseAll, ih]

lemma flatMap_undecorate_map {α β : Type} (f : α → β) (args : List (Mapped α)) :
    (args.map (Mapped.map f)).flatMap Mapped.undecorate =
      (args.flatMap Mapped.undecorate).map f := by
  rw [List.flatMap_map, List.map_flatMap]
  simp only [Mapped.undecorate_map]

lemma splice_map {α β : Type} {f : α → β} {make : List α → α} {make' : List β → β}
    (hmake : ∀ l, f (make l) = make' (l.map f)) (args : List (Mapped α)) :
    (splice make args).map f = splice make' (args.map (Mapped.map f)) := by
  unfold splice
  rw [flatMap_undecorate_map]
  cases args.flatMap Mapped.undecorate with
  | nil => rfl
  | cons a l => simp [Mapped.map, hmake]

lemma flatTupelizeTo_map {α β : Type} {b : Base} {f : α → β} {make : List α → α}
    {make' : List β → β} (hmake : ∀ l, f (make l) = make' (l.map f)) (args : List (Mapped α)) :
    (flatTupelizeTo b make args).map (Mapped.map f) =
      flatTupelizeTo b make' (args.map (Mapped.map f)) := by
  unfold flatTupelizeTo
  rw [flatMap_undecorate_map]
  cases args.flatMap Mapped.undecorate with
  | nil => rfl
  | cons a l =>
    simp only [List.map_cons, List.length_cons, List.length_map]
    split_ifs
    · simp [Mapped.map, hmake]
    · rfl

lemma ty_tupleLike (b : Base) (ps : List (Pack L V)) :
    (Pack.tupleLike b ps).ty = .tupleLike b (ps.map Pack.ty) := by
  simp [Pack.ty]

lemma ty_unpack (r : Mapped (Pack L V)) : (Pack.unpack r).ty = Ty.unpack (r.map Pack.ty) := by
  cases r with
  | one p => rfl
  | spread ps => exact ty_tupleLike .tuple ps

lemma remapContainer_ty (r : Mapped (Ty L)) (args : List (Mapped (Pack L V))) :
    (remapContainer r args).map Pack.ty = remapContainerTy r := by
  match r with
  | .spread [] => rfl
  | .one t => rfl
  | .spread (t :: ts) => rfl

lemma length_flatMap_undecorate {α : Type} {ps : List α} {f : α → Mapped (Pack L V)}
    {r : Mapped (Ty L)} (h : ∀ p ∈ ps, (f p).map Pack.ty = r) :
    ((ps.map f).flatMap Mapped.undecorate).length = ps.length * r.undecorate.length := by
  induction ps with
  | nil => simp
  | cons p ps ih =>
    have hp : (f p).undecorate.length = r.undecorate.length := by
      rw [← h p List.mem_cons_self, Mapped.undecorate_map, List.length_map]
    rw [List.map_cons, List.flatMap_cons, List.length_append, hp,
      ih fun q hq => h q (List.mem_cons_of_mem p hq), List.length_cons, Nat.succ_mul, Nat.add_comm]

lemma length_flatMap_one {α β : Type} {f : α → Mapped β} {l : List α}
    (h : ∀ a ∈ l, ∃ b, f a = .one b) :
    ((l.map f).flatMap Mapped.undecorate).length = l.length := by
  induction l with
  | nil => rfl
  | cons a l ih =>
    obtain ⟨b, hb⟩ := h a List.mem_cons_self
    rw [List.map_cons, List.flatMap_cons, hb, List.length_append,
      ih fun c hc => h c (List.mem_cons_of_mem a hc), List.length_cons, Nat.add_comm]
    rfl

lemma referenceTy_one (h : ∀ l, ∃ u, referenceTy m (.leaf l) = .one u) (t : Ty L) :
    ∃ u, referenceTy m t = .one u := by
  induction t with
  | leaf l => exact h l
  | tupleLike b ts ih =>
    have hlen := length_flatMap_one ih
    simp only [referenceTy, referenceTys_eq_map]
    split_ifs with ht
    · unfold splice
      split
      · rename_i hnil
        -- without elements there is nothing the mapper accepts
        rw [hnil, List.length_nil, eq_comm, List.length_eq_zero_iff] at hlen
        rw [hlen] at ht
        cases ht
      · exact ⟨_, rfl⟩
    · exact ⟨_, rfl⟩
  | array t n ih | container t ih =>
    obtain ⟨u, hu⟩ := ih
    simp only [referenceTy]
    split_ifs
    · rw [hu]
      exact ⟨_, rfl⟩
    · exact ⟨_, rfl⟩

lemma fits_of_one (h : ∀ t, ∃ u, referenceTy m t = .one u) {t : Ty L} (ht : t.WellFormed) :
    Fits m t := by
  induction t with
  | leaf l => simp [Fits]
  | tupleLike b ts ih =>
    simp only [Ty.Allowed] at ht
    have hlen := length_flatMap_one fun t (_ : t ∈ ts) => h t
    simp only [Fits]
    exact ⟨fun t hmem => ih t hmem (ht.2 t hmem), Or.inr (by rw [hlen]; exact ht.1)⟩
  | array t n ih =>
    simp only [Ty.Allowed] at ht
    obtain ⟨u, hu⟩ := h t
    simp only [Fits, hu]
    exact ⟨ih ht.2, by simp [Mapped.undecorate]⟩
  | container t ih =>
    simp only [Ty.Allowed] at ht
    simp only [Fits]
    exact ih ht

theorem reference_ty {p : Pack L V} (h : p.WellTyped) :
    (reference m p).map Pack.ty = referenceTy m p.ty := by
  induction p with
  | leaf l v =>
    cases ht : m.type l with
    | none => simp [reference, Pack.ty, referenceTy, Mapper.accepts, ht, Mapped.map]
    | some r =>
      simp only [reference, Pack.ty, referenceTy, Mapper.accepts, ht, Option.isSome_some, if_true]
      exact (m.typed l v r ht).1
  | tupleLike b ps ih =>
    simp only [Pack.WellTyped] at h
    simp only [reference, Pack.ty, referenceTy, Pack.tys_eq_map]
    split_ifs
    · rw [splice_map (ty_tupleLike b), referenceAll_eq_map, referenceTys_eq_map, List.map_map,
        List.map_map]
      congr 1
      exact List.map_congr_left fun p hp => ih p hp (h.2 p hp)
    · simp [Mapped.map, ty_tupleLike]
  | array t ps ih =>
    simp only [Pack.WellTyped] at h
    have hty : ∀ p ∈ ps, (reference m p).map Pack.ty = referenceTy m t := fun p hp => by
      rw [ih p hp (h.2 p hp).2, (h.2 p hp).1]
    have hlen := length_flatMap_undecorate hty
    simp only [reference, Pack.ty, referenceTy, referenceAll_eq_map]
    split_ifs
    · cases hu : (referenceTy m t).undecorate with
      | nil => rfl
      | cons u us =>
        rw [hu] at hlen
        simp only [Mapped.map, Pack.ty, hlen, arrayOf, arrayHolding, List.length_cons]
    · rfl
  | container t ps ih =>
    simp only [reference, Pack.ty, referenceTy]
    split_ifs
    · exact remapContainer_ty _ _
    · rfl

lemma splice_ty {ps : List (Pack L V)} (h : ∀ p ∈ ps, p.WellTyped) :
    ((ps.map (reference m)).flatMap Mapped.undecorate).map Pack.ty =
      ((ps.map Pack.ty).map (referenceTy m)).flatMap Mapped.undecorate := by
  rw [← flatMap_undecorate_map, List.map_map, List.map_map]
  congr 1
  exact List.map_congr_left fun p hp => reference_ty (h p hp)

lemma map_ty_tryTraverse {ps : List (Pack L V)}
    (h : ∀ p ∈ ps, (tryTraverse m p).1.map Pack.ty = tryTraverseTy m p.ty) :
    (ps.map fun p => (tryTraverse m p).1).map (Mapped.map Pack.ty) =
      (ps.map Pack.ty).map (tryTraverseTy m) := by
  rw [List.map_map, List.map_map]
  exact List.map_congr_left h

theorem tryTraverse_ty {p : Pack L V} (h : p.WellTyped) :
    (tryTraverse m p).1.map Pack.ty = tryTraverseTy m p.ty := by
  induction p with
  | leaf l v =>
    cases ht : m.type l with
    | none => simp [tryTraverse, Pack.ty, tryTraverseTy, Mapper.accepts, ht, Mapped.map]
    | some r =>
      simp only [tryTraverse, Pack.ty, tryTraverseTy, Mapper.accepts, ht, Option.isSome_some,
        if_true]
      exact (m.typed l v r ht).1
  | tupleLike b ps ih =>
    simp only [Pack.WellTyped] at h
    have hmap := flatTupelizeTo_map (b := b) (ty_tupleLike b) (tryTraverseAll m ps).1
    rw [tryTraverseAll_fst, map_ty_tryTraverse fun p hp => ih p hp (h.2 p hp),
      ← tryTraverseAll_fst] at hmap
    simp only [tryTraverse, Pack.ty, tryTraverseTy, Pack.tys_eq_map, tryTraverseTys_eq_map]
    split_ifs
    · rw [← hmap]
      cases flatTupelizeTo b (Pack.tupleLike b) (tryTraverseAll m ps).1 with
      | none => simp [Mapped.map, ty_tupleLike]
      | some r => rfl
    · simp [Mapped.map, ty_tupleLike]
  | array t ps ih =>
    simp only [Pack.WellTyped] at h
    have hty : ∀ p ∈ ps, (tryTraverse m p).1.map Pack.ty = tryTraverseTy m t := fun p hp => by
      rw [ih p hp (h.2 p hp).2, (h.2 p hp).1]
    have hargs : (ps.map fun p => (tryTraverse m p).1).map (Mapped.map Pack.ty) =
        List.replicate ps.length (tryTraverseTy m t) := by
      rw [List.map_map, List.eq_replicate_iff]
      refine ⟨by simp, ?_⟩
      intro r hr
      obtain ⟨p, hp, rfl⟩ := List.mem_map.1 hr
      exact hty p hp
    simp only [tryTraverse, Pack.ty, tryTraverseTy, tryTraverseAll_fst]
    split_ifs
    · rw [← hargs]
      unfold flatArraylizeTo
      rw [flatMap_undecorate_map]
      cases (ps.map fun p => (tryTraverse m p).1).flatMap Mapped.undecorate with
      | nil => rfl
      | cons p l => simp [Mapped.map, Pack.ty]
    · rfl
  | container t ps ih =>
    simp only [tryTraverse, Pack.ty, tryTraverseTy]
    split_ifs
    · exact remapContainer_ty _ _
    · rfl

end Continuable.Packs
