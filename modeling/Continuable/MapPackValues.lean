import Continuable.MapPack

/-!
What `map_pack` makes of the values of covered types.
-/

namespace Continuable.Packs

variable {L : Type} {V : L → Type} {m : Mapper L V}

lemma tryTraverse_of_untouched {p : Pack L V} (h : touched m.accepts p.ty = false) :
    tryTraverse m p = (.one p, 0) := by
  cases p with
  | leaf l v =>
    simp only [Pack.ty, touched] at h
    simp only [tryTraverse, h, Bool.false_eq_true, if_false]
  | tupleLike b ps =>
    simp only [Pack.ty, touched, touchedAny_eq_any, List.any_eq_false, Bool.not_eq_true] at h
    have hany : (Pack.tys ps).any (isEffective m) = false := by
      simp only [List.any_eq_false, Bool.not_eq_true]
      exact fun u hu => not_isEffective_of_untouched (h u hu)
    simp only [tryTraverse, hany, Bool.false_eq_true, if_false]
  | array t ps =>
    simp only [Pack.ty, touched] at h
    simp only [tryTraverse, not_isEffective_of_untouched h, Bool.false_eq_true, if_false]
  | container t ps =>
    simp only [Pack.ty, touched] at h
    simp only [tryTraverse, not_isEffective_of_untouched h, Bool.false_eq_true, if_false]

lemma reference_of_untouched {p : Pack L V} (h : touched m.accepts p.ty = false) :
    reference m p = .one p := by
  cases p with
  | leaf l v =>
    simp only [Pack.ty, touched] at h
    simp only [reference, h, Bool.false_eq_true, if_false]
  | tupleLike b ps =>
    simp only [Pack.ty, touched] at h
    simp only [reference, h, Bool.false_eq_true, if_false]
  | array t ps =>
    simp only [Pack.ty, touched] at h
    simp only [reference, h, Bool.false_eq_true, if_false]
  | container t ps =>
    simp only [Pack.ty, touched] at h
    simp only [reference, h, Bool.false_eq_true, if_false]

lemma filter_leaves_of_untouched {accepts : L → Bool} {p : Pack L V} (hp : p.WellTyped)
    (h : touched accepts p.ty = false) : p.leaves.filter (fun x => accepts x.1) = [] := by
  rw [List.filter_eq_nil_iff]
  induction p with
  | leaf l v =>
    simp only [Pack.ty, touched] at h
    simp [Pack.leaves, h]
  | tupleLike b ps ih =>
    simp only [Pack.WellTyped] at hp
    simp only [Pack.ty, touched, touchedAny_eq_any, Pack.tys_eq_map, List.any_map,
      List.any_eq_false, Function.comp_apply, Bool.not_eq_true] at h
    simp only [Pack.leaves, Pack.leavesOf_eq_flatMap, List.mem_flatMap]
    rintro x ⟨p, hp', hx⟩
    exact ih p hp' (hp.2 p hp') (h p hp') x hx
  | array t ps ih | container t ps ih =>
    simp only [Pack.WellTyped] at hp
    simp only [Pack.ty, touched] at h
    simp only [Pack.leaves, Pack.leavesOf_eq_flatMap, List.mem_flatMap]
    rintro x ⟨p, hp', hx⟩
    exact ih p hp' (hp.2 p hp').2 (by rw [(hp.2 p hp').1]; exact h) x hx

lemma accepted_of_untouched {p : Pack L V} (hp : p.WellTyped)
    (h : touched m.accepts p.ty = false) : p.accepted m = [] :=
  filter_leaves_of_untouched hp h

lemma accepted_node (ps : List (Pack L V)) :
    (Pack.leavesOf ps).filter (fun x => m.accepts x.1) = ps.flatMap (Pack.accepted m) := by
  rw [Pack.leavesOf_eq_flatMap, List.filter_flatMap]
  rfl

lemma sum_map_coe {α β : Type} (f : α → List β) (l : List α) :
    (l.map fun a => (f a : Multiset β)).sum = (l.flatMap f : List β) := by
  induction l with
  | nil => rfl
  | cons a l ih => simp [ih]

lemma tryTraverseAll_of_forall {ps : List (Pack L V)} (h : ∀ p ∈ ps, tryTraverse m p =
    (reference m p, (p.accepted m : Multiset ((l : L) × V l)))) :
    tryTraverseAll m ps =
      (ps.map (reference m), (ps.flatMap (Pack.accepted m) : Multiset ((l : L) × V l))) := by
  rw [← sum_map_coe]
  ext1
  · rw [tryTraverseAll_fst]
    exact List.map_congr_left fun p hp => by rw [h p hp]
  · rw [tryTraverseAll_snd]
    congr 1
    exact List.map_congr_left fun p hp => by rw [h p hp]

lemma flatArraylizeTo_eq {ps : List (Pack L V)} (hne : ps ≠ []) {r : Mapped (Ty L)}
    {f : Pack L V → Mapped (Pack L V)} (h : ∀ p ∈ ps, (f p).map Pack.ty = r) :
    flatArraylizeTo (fun p ps => Pack.array p.ty ps) (ps.map f) =
      arrayHolding r.undecorate ((ps.map f).flatMap Mapped.undecorate) := by
  have hlen := length_flatMap_undecorate h
  obtain ⟨p, ps, rfl⟩ := List.exists_cons_of_ne_nil hne
  have hp : (f p).undecorate.map Pack.ty = r.undecorate := by
    rw [← h p List.mem_cons_self, Mapped.undecorate_map]
  unfold flatArraylizeTo
  cases hu : r.undecorate with
  | nil =>
    rw [hu, List.length_nil, Nat.mul_zero, List.length_eq_zero_iff] at hlen
    rw [hlen]
    rfl
  | cons u us =>
    rw [hu, List.map_eq_cons_iff] at hp
    obtain ⟨q, qs, hq, rfl, -⟩ := hp
    rw [List.map_cons, List.flatMap_cons, hq]
    rfl

lemma isEffective_of_entire {t : Ty L} (hc : covered m.accepts t = true) (hf : Fits m t)
    (h : entire m.accepts t = true) : isEffective m t = true := by
  rw [isEffective, (traverseTy_of_covered hc hf).1 h]
  rfl

/-- On packs of covered types `map_pack` reaches every accepted leaf once and gives what the
reference gives. -/
theorem tryTraverse_of_covered {p : Pack L V} (hp : p.WellTyped)
    (hc : covered m.accepts p.ty = true) (hf : Fits m p.ty) :
    tryTraverse m p = (reference m p, (p.accepted m : Multiset ((l : L) × V l))) := by
  induction p with
  | leaf l v =>
    cases ht : m.accepts l with
    | false => simp [tryTraverse, reference, Pack.accepted, Pack.leaves, ht]
    | true => simp [tryTraverse, reference, Pack.accepted, Pack.leaves, ht]
  | tupleLike b ps ih =>
    cases ht : touched m.accepts (Pack.tupleLike b ps).ty with
    | false =>
      rw [tryTraverse_of_untouched ht, reference_of_untouched ht, accepted_of_untouched hp ht]
      rfl
    | true =>
      simp only [Pack.WellTyped] at hp
      rw [ty_tupleLike] at ht hc hf
      simp only [covered, ht, Bool.not_true, Bool.false_or, coveredAll_eq_all, Bool.and_eq_true,
        List.any_map, List.any_eq_true, List.all_map, List.all_eq_true,
        Function.comp_apply] at hc
      obtain ⟨⟨q, hq, hentire⟩, hall⟩ := hc
      simp only [Fits] at hf
      obtain ⟨hfits, hsplice⟩ := hf
      have hf' : ∀ p ∈ ps, Fits m p.ty := fun p hp => hfits _ (List.mem_map_of_mem hp)
      simp only [touched] at ht
      rw [← splice_ty hp.2, List.map_eq_nil_iff, List.length_map] at hsplice
      have hany : (ps.map Pack.ty).any (isEffective m) = true := by
        simp only [List.any_map, List.any_eq_true, Function.comp_apply]
        exact ⟨q, hq, isEffective_of_entire (hall q hq) (hf' q hq) hentire⟩
      have hargs := tryTraverseAll_of_forall fun p hp' =>
        ih p hp' (hp.2 p hp') (hall p hp') (hf' p hp')
      simp only [tryTraverse, reference, Pack.tys_eq_map, hany, ht, if_true, hargs,
        flatTupelizeTo_eq hsplice, referenceAll_eq_map, Pack.accepted, Pack.leaves, accepted_node]
  | array t ps ih =>
    cases ht : touched m.accepts (Pack.array t ps).ty with
    | false =>
      rw [tryTraverse_of_untouched ht, reference_of_untouched ht, accepted_of_untouched hp ht]
      rfl
    | true =>
      simp only [Pack.WellTyped] at hp
      simp only [Pack.ty, touched] at ht
      simp only [Pack.ty, covered, ht, Bool.not_true, Bool.false_or, Bool.and_eq_true,
        bne_iff_ne] at hc
      simp only [Pack.ty, Fits] at hf
      have hargs := tryTraverseAll_of_forall fun p hp' => ih p hp' (hp.2 p hp').2
        (by rw [(hp.2 p hp').1]; exact hc.2) (by rw [(hp.2 p hp').1]; exact hf.1)
      simp only [tryTraverse, reference, ht, if_true, hargs, referenceAll_eq_map,
        isEffective_of_entire hc.2 hf.1 hc.1.1, Pack.accepted, Pack.leaves, accepted_node]
      rw [flatArraylizeTo_eq (List.length_pos_iff.1 (Nat.pos_of_ne_zero hc.1.2)) fun p hp' => by
        rw [reference_ty (hp.2 p hp').2, (hp.2 p hp').1]]
  | container t ps ih =>
    cases ht : touched m.accepts (Pack.container t ps).ty with
    | false =>
      rw [tryTraverse_of_untouched ht, reference_of_untouched ht, accepted_of_untouched hp ht]
      rfl
    | true =>
      simp only [Pack.WellTyped] at hp
      simp only [Pack.ty, touched] at ht
      simp only [Pack.ty, covered, ht, Bool.not_true, Bool.false_or, Bool.and_eq_true] at hc
      simp only [Pack.ty, Fits] at hf
      have hargs := tryTraverseAll_of_forall fun p hp' => ih p hp' (hp.2 p hp').2
        (by rw [(hp.2 p hp').1]; exact hc.2) (by rw [(hp.2 p hp').1]; exact hf)
      simp only [tryTraverse, reference, ht, if_true, hargs, referenceAll_eq_map,
        isEffective_of_entire hc.2 hf hc.1, (traverseTy_of_covered hc.2 hf).2, Pack.accepted,
        Pack.leaves, accepted_node]

end Continuable.Packs
