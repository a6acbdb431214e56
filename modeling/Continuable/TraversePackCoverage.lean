import Continuable.LeafRenaming
import Continuable.MapPackValues
import Continuable.TraversePack

/-!
When `traverse_pack` compiles, and what it visits then.
-/

namespace Continuable.Packs

variable {L : Type} {V : L → Type}

/-! ### When it compiles -/

section compiles

variable {accepts : L → Bool} {leafs : L → Prop}

/-- Between the types, the strict recursion tells apart what is entirely accepted. -/
def Strict (accepts : L → Bool) (t : Ty L) : Prop :=
  traversor accepts t =
    if touched accepts t then if entire accepts t then .yes else .error else .no

lemma effectiveAnyOf_map {ts : List (Ty L)} (h : ∀ t ∈ ts, Strict accepts t) :
    effectiveAnyOf (ts.map (traversor accepts)) =
      match ts.find? (touched accepts) with
      | none => .no
      | some t => if entire accepts t then .yes else .error := by
  induction ts with
  | nil => rfl
  | cons t ts ih =>
    have ht : traversor accepts t = _ := h t List.mem_cons_self
    have ih := ih fun u hu => h u (List.mem_cons_of_mem t hu)
    rw [List.map_cons, ht]
    by_cases htouched : touched accepts t = true
    · rw [if_pos htouched, List.find?_cons_of_pos htouched]
      simp only
      split_ifs <;> rfl
    · rw [if_neg htouched, List.find?_cons_of_neg htouched]
      exact ih

lemma Strict.eq_yes_iff {t : Ty L} (h : Strict accepts t) :
    traversor accepts t = .yes ↔ entire accepts t = true := by
  rw [h]
  by_cases he : entire accepts t = true
  · simp [he, touched_of_entire he]
  · split_ifs <;> simp [he]

lemma touched_tupleLike_iff {b : Base} {ts : List (Ty L)} :
    touched accepts (.tupleLike b ts) = (ts.find? (touched accepts)).isSome := by
  rw [Bool.eq_iff_iff, List.find?_isSome, touched, touchedAny_eq_any, List.any_eq_true]

lemma strict_of_allowed {t : Ty L} (h : t.Allowed leafs False) : Strict accepts t := by
  induction t with
  | leaf l =>
    unfold Strict
    cases ha : accepts l <;> simp [traversor, touched, entire, ha]
  | tupleLike b ts ih =>
    simp only [Ty.Allowed] at h
    have hstrict : ∀ t ∈ ts, Strict accepts t := fun t ht => ih t ht (h.2 t ht)
    have hall : (ts.map (traversor accepts)).all (· = .yes) = ts.all (entire accepts) := by
      rw [Bool.eq_iff_iff, List.all_map, List.all_eq_true, List.all_eq_true]
      exact forall₂_congr fun t ht => by
        rw [Function.comp_apply, decide_eq_true_eq, (hstrict t ht).eq_yes_iff]
    unfold Strict
    rw [touched_tupleLike_iff]
    simp only [traversor, traversorAll_eq_map, effectiveAnyOf_map hstrict, hall, entire,
      entireAll_eq_all]
    cases hfind : ts.find? (touched accepts) with
    | none => rfl
    | some t =>
      have hmem := List.mem_of_find?_eq_some hfind
      have hne : ts.isEmpty = false := by
        rw [List.isEmpty_eq_false_iff]
        exact List.ne_nil_of_mem hmem
      simp only [Option.isSome_some, if_true, hne, Bool.not_false, Bool.true_and]
      by_cases he : entire accepts t = true
      · simp only [he, if_true]
      · have hnot : ts.all (entire accepts) = false := by
          rw [List.all_eq_false]
          exact ⟨t, hmem, he⟩
        simp only [he, hnot, Bool.false_eq_true, if_false]
  | array t n ih =>
    simp only [Ty.Allowed] at h
    exact h.1.elim
  | container t ih =>
    simp only [Ty.Allowed] at h
    exact ih h

lemma leading_of_untouched {t : Ty L} (h : touched accepts t = false) :
    leading accepts t = true := by
  induction t with
  | leaf l => rfl
  | tupleLike b ts ih =>
    have hfind := h
    rw [touched_tupleLike_iff, Option.isSome_eq_false_iff, Option.isNone_iff_eq_none] at hfind
    simp only [touched, touchedAny_eq_any, List.any_eq_false, Bool.not_eq_true] at h
    simp only [leading, hfind, Option.all_none, Bool.true_and, leadingAll_eq_all,
      List.all_eq_true]
    exact fun t ht => ih t ht (h t ht)
  | array t n ih =>
    simp only [touched] at h
    simp [leading, h]
  | container t ih =>
    simp only [touched] at h
    simp [leading, h]

theorem traverses_eq_leading {t : Ty L} (h : t.Allowed leafs False) :
    traverses accepts t = leading accepts t := by
  induction t with
  | leaf l => rfl
  | tupleLike b ts ih =>
    simp only [Ty.Allowed] at h
    have hstrict : ∀ t ∈ ts, Strict accepts t := fun t ht => strict_of_allowed (h.2 t ht)
    have hall : ts.all (traverses accepts) = ts.all (leading accepts) := by
      rw [Bool.eq_iff_iff, List.all_eq_true, List.all_eq_true]
      exact forall₂_congr fun t ht => by rw [ih t ht (h.2 t ht)]
    simp only [traverses, traversorAll_eq_map, effectiveAnyOf_map hstrict, traversesAll_eq_all,
      leading, leadingAll_eq_all, hall]
    cases hfind : ts.find? (touched accepts) with
    | none =>
      have huntouched : ts.all (leading accepts) = true := by
        rw [List.all_eq_true]
        intro t ht
        rw [List.find?_eq_none] at hfind
        exact leading_of_untouched (Bool.of_not_eq_true (hfind t ht))
      simp [huntouched]
    | some t =>
      by_cases he : entire accepts t = true <;> simp [he]
  | array t n ih =>
    simp only [Ty.Allowed] at h
    exact h.1.elim
  | container t ih =>
    simp only [Ty.Allowed] at h
    have hstrict : traversor accepts t = _ := strict_of_allowed h
    simp only [traverses, hstrict, leading, ih h]
    by_cases ht : touched accepts t = true
    · by_cases he : entire accepts t = true <;> simp [ht, he]
    · simp [ht]

lemma leading_mapLeaves_of {accepts' : L → Bool} {arrays : Prop} {f : L → L}
    (h : ∀ l, leafs l → accepts' (f l) = accepts l) {t : Ty L} (ht : t.Allowed leafs arrays) :
    leading accepts' (t.mapLeaves f) = leading accepts t := by
  induction t with
  | leaf l => rfl
  | tupleLike b ts ih =>
    simp only [Ty.Allowed] at ht
    have hfind : ((ts.map (Ty.mapLeaves f)).find? (touched accepts')).all (entire accepts') =
        (ts.find? (touched accepts)).all (entire accepts) := by
      clear ih
      replace ht := ht.2
      induction ts with
      | nil => rfl
      | cons t ts ih =>
        have htouched := touched_mapLeaves_of h (ht t List.mem_cons_self)
        have hentire := entire_mapLeaves_of h (ht t List.mem_cons_self)
        have hrest := ih fun u hu => ht u (List.mem_cons_of_mem t hu)
        cases hc : touched accepts t with
        | true =>
          rw [hc] at htouched
          rw [List.map_cons, List.find?_cons_of_pos htouched, List.find?_cons_of_pos hc,
            Option.all_some, Option.all_some, hentire]
        | false =>
          rw [hc] at htouched
          rw [List.map_cons, List.find?_cons_of_neg (by simp [htouched]),
            List.find?_cons_of_neg (by simp [hc]), hrest]
    simp only [Ty.mapLeaves, Ty.mapLeavesOf_eq_map, leading, leadingAll_eq_all, hfind]
    rw [all_mapLeaves fun t hmem => ih t hmem (ht.2 t hmem)]
  | array t n ih =>
    simp only [Ty.Allowed] at ht
    simp only [Ty.mapLeaves, leading, touched_mapLeaves_of h ht.2]
  | container t ih =>
    simp only [Ty.Allowed] at ht
    simp only [Ty.mapLeaves, leading, touched_mapLeaves_of h ht, entire_mapLeaves_of h ht, ih ht]

lemma covered_of_leading {t : Ty L} (h : leading accepts t = true) :
    covered accepts t = true := by
  induction t with
  | leaf l => rfl
  | tupleLike b ts ih =>
    cases ht : touched accepts (.tupleLike b ts) with
    | false => exact covered_of_untouched ht
    | true =>
      have hsome := ht
      rw [touched_tupleLike_iff, Option.isSome_iff_exists] at hsome
      obtain ⟨t, hfind⟩ := hsome
      simp only [leading, hfind, Option.all_some, leadingAll_eq_all, Bool.and_eq_true,
        List.all_eq_true] at h
      simp only [covered, ht, Bool.not_true, Bool.false_or, coveredAll_eq_all, Bool.and_eq_true,
        List.any_eq_true, List.all_eq_true]
      exact ⟨⟨t, List.mem_of_find?_eq_some hfind, h.1⟩, fun u hu => ih u hu (h.2 u hu)⟩
  | array t n ih =>
    simp only [leading, Bool.not_eq_true'] at h
    exact covered_of_untouched h
  | container t ih =>
    cases ht : touched accepts (.container t) with
    | false => exact covered_of_untouched ht
    | true =>
      simp only [touched] at ht
      simp only [leading, ht, Bool.not_true, Bool.false_or, Bool.and_eq_true] at h
      simp only [covered, ht, Bool.not_true, Bool.false_or, Bool.and_eq_true]
      exact ⟨h.1, ih h.2⟩

lemma leading_of_entire {t : Ty L} (ha : t.Allowed leafs False)
    (h : entire accepts t = true) : leading accepts t = true := by
  induction t with
  | leaf l => rfl
  | tupleLike b ts ih =>
    simp only [Ty.Allowed] at ha
    simp only [entire, entireAll_eq_all, Bool.and_eq_true, List.all_eq_true] at h
    simp only [leading, leadingAll_eq_all, Bool.and_eq_true, List.all_eq_true]
    refine ⟨?_, fun t ht => ih t ht (ha.2 t ht) (h.2 t ht)⟩
    cases hfind : ts.find? (touched accepts) with
    | none => rfl
    | some t => exact h.2 t (List.mem_of_find?_eq_some hfind)
  | array t n ih =>
    simp only [Ty.Allowed] at ha
    exact ha.1.elim
  | container t ih =>
    simp only [Ty.Allowed] at ha
    simp only [entire] at h
    simp only [leading, h, ih ha h, Bool.and_self, Bool.or_true]

end compiles

/-! ### What it visits -/

section visits

variable {accepts : L → Bool} {visit : ∀ l, V l → V l} {leafs : L → Prop}

@[simp] lemma traverseAll_fst (ps : List (Pack L V)) :
    (traverseAll accepts visit ps).1 = ps.map fun p => (traverse accepts visit p).1 := by
  induction ps with
  | nil => rfl
  | cons p ps ih => simp [traverseAll, ih]

@[simp] lemma traverseAll_snd (ps : List (Pack L V)) :
    (traverseAll accepts visit ps).2 = ps.flatMap fun p => (traverse accepts visit p).2 := by
  induction ps with
  | nil => rfl
  | cons p ps ih => simp [traverseAll, ih]

/-- Where it compiles, the traversal visits every accepted leaf once, in order. -/
theorem traverse_of_leading {p : Pack L V} (hp : p.WellTyped) (ha : p.ty.Allowed leafs False)
    (h : leading accepts p.ty = true) :
    traverse accepts visit p =
      (p.mapLeaves id (visitAccepted accepts visit), p.leaves.filter fun x => accepts x.1) := by
  have hkept : ∀ l v, accepts l = false → visitAccepted accepts visit l v = v :=
    fun l v hl => by simp [visitAccepted, hl]
  have hall : ∀ ps : List (Pack L V), (∀ p ∈ ps, traverse accepts visit p =
      (p.mapLeaves id (visitAccepted accepts visit), p.leaves.filter fun x => accepts x.1)) →
      traverseAll accepts visit ps =
        (Pack.mapLeavesOf id (visitAccepted accepts visit) ps,
          (Pack.leavesOf ps).filter fun x => accepts x.1) := by
    intro ps h
    ext1
    · rw [traverseAll_fst, Pack.mapLeavesOf_eq_map]
      exact List.map_congr_left fun p hp => by rw [h p hp]
    · rw [traverseAll_snd, Pack.leavesOf_eq_flatMap, List.filter_flatMap]
      exact List.flatMap_congr fun p hp => by rw [h p hp]
  induction p with
  | leaf l v =>
    cases hl : accepts l <;>
      simp [traverse, Pack.mapLeaves, Pack.leaves, visitAccepted, hl]
  | tupleLike b ps ih =>
    have hp' := hp
    simp only [Pack.WellTyped] at hp
    simp only [Pack.ty, Pack.tys_eq_map, Ty.Allowed, List.length_map] at ha
    have ha' : ∀ p ∈ ps, p.ty.Allowed leafs False := fun p hp => ha.2 _ (List.mem_map_of_mem hp)
    have hstrict : ∀ t ∈ ps.map Pack.ty, Strict accepts t := fun t ht =>
      strict_of_allowed (ha.2 t ht)
    cases ht : touched accepts (Pack.tupleLike b ps).ty with
    | false =>
      have hfind := ht
      rw [ty_tupleLike, touched_tupleLike_iff, Option.isSome_eq_false_iff,
        Option.isNone_iff_eq_none] at hfind
      rw [Pack.mapLeaves_of_untouched hkept hp' ht, filter_leaves_of_untouched hp' ht]
      simp only [traverse, Pack.tys_eq_map, traversorAll_eq_map, effectiveAnyOf_map hstrict,
        hfind, reduceCtorEq, if_false]
    | true =>
      rw [ty_tupleLike, touched_tupleLike_iff, Option.isSome_iff_exists] at ht
      obtain ⟨t, hfind⟩ := ht
      rw [ty_tupleLike] at h
      simp only [leading, hfind, Option.all_some, leadingAll_eq_all, List.all_map,
        Bool.and_eq_true, List.all_eq_true, Function.comp_apply] at h
      simp only [traverse, Pack.tys_eq_map, traversorAll_eq_map, effectiveAnyOf_map hstrict,
        hfind, h.1, if_true, Pack.mapLeaves, Pack.leaves,
        hall ps fun p hp' => ih p hp' (hp.2 p hp') (ha' p hp') (h.2 p hp')]
  | array t ps ih =>
    simp only [Pack.ty, Ty.Allowed] at ha
    exact ha.1.elim
  | container t ps ih =>
    have hp' := hp
    simp only [Pack.WellTyped] at hp
    simp only [Pack.ty, Ty.Allowed] at ha
    have hstrict : traversor accepts t = _ := strict_of_allowed ha
    cases ht : touched accepts (Pack.container t ps).ty with
    | false =>
      rw [Pack.mapLeaves_of_untouched hkept hp' ht, filter_leaves_of_untouched hp' ht]
      simp only [Pack.ty, touched] at ht
      simp [traverse, hstrict, ht]
    | true =>
      simp only [Pack.ty, touched] at ht
      simp only [Pack.ty, leading, ht, Bool.not_true, Bool.false_or, Bool.and_eq_true] at h
      simp only [traverse, hstrict, ht, h.1, if_true, Pack.mapLeaves, Pack.leaves,
        Ty.mapLeaves_id, hall ps fun p hp' => ih p hp' (hp.2 p hp').2
          (by rw [(hp.2 p hp').1]; exact ha) (by rw [(hp.2 p hp').1]; exact h.2)]

end visits

end Continuable.Packs
