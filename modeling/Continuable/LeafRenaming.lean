import Continuable.MapPack

/-!
Packs whose leaves were replaced.

Whether a node is reached depends on the shape of a type and on which leaf types are accepted,
which stay the same.
-/

namespace Continuable.Packs

variable {L : Type} {V : L → Type}

mutual

def Ty.mapLeaves (f : L → L) : Ty L → Ty L
  | .leaf l => .leaf (f l)
  | .tupleLike b ts => .tupleLike b (mapLeavesOf f ts)
  | .array t n => .array (mapLeaves f t) n
  | .container t => .container (mapLeaves f t)

def Ty.mapLeavesOf (f : L → L) : List (Ty L) → List (Ty L)
  | [] => []
  | t :: ts => mapLeaves f t :: mapLeavesOf f ts

end

mutual

def Pack.mapLeaves (f : L → L) (g : ∀ l, V l → V (f l)) : Pack L V → Pack L V
  | .leaf l v => .leaf (f l) (g l v)
  | .tupleLike b ps => .tupleLike b (mapLeavesOf f g ps)
  | .array t ps => .array (t.mapLeaves f) (mapLeavesOf f g ps)
  | .container t ps => .container (t.mapLeaves f) (mapLeavesOf f g ps)

def Pack.mapLeavesOf (f : L → L) (g : ∀ l, V l → V (f l)) : List (Pack L V) → List (Pack L V)
  | [] => []
  | p :: ps => mapLeaves f g p :: mapLeavesOf f g ps

end

section shape

variable {f : L → L} {g : ∀ l, V l → V (f l)} {accepts : L → Bool}

@[simp] lemma Ty.mapLeavesOf_eq_map (ts : List (Ty L)) :
    Ty.mapLeavesOf f ts = ts.map (Ty.mapLeaves f) := by
  induction ts with
  | nil => rfl
  | cons t ts ih => simp [Ty.mapLeavesOf, ih]

@[simp] lemma Pack.mapLeavesOf_eq_map (ps : List (Pack L V)) :
    Pack.mapLeavesOf f g ps = ps.map (Pack.mapLeaves f g) := by
  induction ps with
  | nil => rfl
  | cons p ps ih => simp [Pack.mapLeavesOf, ih]

@[simp] lemma touched_mapLeaves (t : Ty L) :
    touched accepts (t.mapLeaves f) = touched (accepts ∘ f) t := by
  induction t with
  | leaf l => rfl
  | tupleLike b ts ih =>
    simp only [Ty.mapLeaves, Ty.mapLeavesOf_eq_map, touched, touchedAny_eq_any, List.any_map]
    rw [Bool.eq_iff_iff, List.any_eq_true, List.any_eq_true]
    exact exists_congr fun t => and_congr_right fun ht => by rw [Function.comp_apply, ih t ht]
  | array t n ih => exact ih
  | container t ih => exact ih

section acceptance

/-! A renaming carries the acceptance of the allowed leaf types over. -/

variable {accepts' : L → Bool} {leafs : L → Prop} {arrays : Prop}

lemma all_mapLeaves {P P' : Ty L → Bool} {ts : List (Ty L)}
    (h : ∀ t ∈ ts, P' (t.mapLeaves f) = P t) :
    (ts.map (Ty.mapLeaves f)).all P' = ts.all P := by
  rw [Bool.eq_iff_iff, List.all_map, List.all_eq_true, List.all_eq_true]
  exact forall₂_congr fun t ht => by rw [Function.comp_apply, h t ht]

lemma any_mapLeaves {P P' : Ty L → Bool} {ts : List (Ty L)}
    (h : ∀ t ∈ ts, P' (t.mapLeaves f) = P t) :
    (ts.map (Ty.mapLeaves f)).any P' = ts.any P := by
  rw [Bool.eq_iff_iff, List.any_map, List.any_eq_true, List.any_eq_true]
  exact exists_congr fun t => and_congr_right fun ht => by rw [Function.comp_apply, h t ht]

lemma touched_mapLeaves_of (h : ∀ l, leafs l → accepts' (f l) = accepts l) {t : Ty L}
    (ht : t.Allowed leafs arrays) : touched accepts' (t.mapLeaves f) = touched accepts t := by
  induction t with
  | leaf l =>
    simp only [Ty.Allowed] at ht
    exact h l ht
  | tupleLike b ts ih =>
    simp only [Ty.Allowed] at ht
    simp only [Ty.mapLeaves, Ty.mapLeavesOf_eq_map, touched, touchedAny_eq_any]
    exact any_mapLeaves fun t hmem => ih t hmem (ht.2 t hmem)
  | array t n ih =>
    simp only [Ty.Allowed] at ht
    exact ih ht.2
  | container t ih =>
    simp only [Ty.Allowed] at ht
    exact ih ht

lemma entire_mapLeaves_of (h : ∀ l, leafs l → accepts' (f l) = accepts l) {t : Ty L}
    (ht : t.Allowed leafs arrays) : entire accepts' (t.mapLeaves f) = entire accepts t := by
  induction t with
  | leaf l =>
    simp only [Ty.Allowed] at ht
    exact h l ht
  | tupleLike b ts ih =>
    simp only [Ty.Allowed] at ht
    simp only [Ty.mapLeaves, Ty.mapLeavesOf_eq_map, entire, entireAll_eq_all, List.isEmpty_map]
    rw [all_mapLeaves fun t hmem => ih t hmem (ht.2 t hmem)]
  | array t n ih =>
    simp only [Ty.Allowed] at ht
    exact ih ht.2
  | container t ih =>
    simp only [Ty.Allowed] at ht
    exact ih ht

lemma covered_mapLeaves_of (h : ∀ l, leafs l → accepts' (f l) = accepts l) {t : Ty L}
    (ht : t.Allowed leafs arrays) : covered accepts' (t.mapLeaves f) = covered accepts t := by
  induction t with
  | leaf l => rfl
  | tupleLike b ts ih =>
    have htouched := touched_mapLeaves_of h ht
    simp only [Ty.Allowed] at ht
    simp only [Ty.mapLeaves, Ty.mapLeavesOf_eq_map] at htouched
    simp only [Ty.mapLeaves, Ty.mapLeavesOf_eq_map, covered, coveredAll_eq_all, htouched]
    rw [all_mapLeaves fun t hmem => ih t hmem (ht.2 t hmem),
      any_mapLeaves fun t hmem => entire_mapLeaves_of h (ht.2 t hmem)]
  | array t n ih =>
    simp only [Ty.Allowed] at ht
    simp only [Ty.mapLeaves, covered, touched_mapLeaves_of h ht.2, entire_mapLeaves_of h ht.2,
      ih ht.2]
  | container t ih =>
    simp only [Ty.Allowed] at ht
    simp only [Ty.mapLeaves, covered, touched_mapLeaves_of h ht, entire_mapLeaves_of h ht, ih ht]

end acceptance

lemma Ty.mapLeaves_mapLeaves {f' : L → L} (t : Ty L) :
    (t.mapLeaves f).mapLeaves f' = t.mapLeaves (f' ∘ f) := by
  induction t with
  | leaf l => rfl
  | tupleLike b ts ih =>
    simp only [mapLeaves, mapLeavesOf_eq_map, List.map_map]
    congr 1
    exact List.map_congr_left ih
  | array t n ih => simp only [mapLeaves, ih]
  | container t ih => simp only [mapLeaves, ih]

lemma Pack.mapLeaves_mapLeaves {f' : L → L} {g' : ∀ l, V l → V (f' l)} (p : Pack L V) :
    (p.mapLeaves f g).mapLeaves f' g' = p.mapLeaves (f' ∘ f) fun l v => g' (f l) (g l v) := by
  induction p with
  | leaf l v => rfl
  | tupleLike b ps ih | array t ps ih | container t ps ih =>
    simp only [mapLeaves, mapLeavesOf_eq_map, List.map_map, Ty.mapLeaves_mapLeaves]
    congr 1
    exact List.map_congr_left ih

lemma Pack.ty_mapLeaves (p : Pack L V) : (p.mapLeaves f g).ty = p.ty.mapLeaves f := by
  induction p with
  | leaf l v => rfl
  | tupleLike b ps ih =>
    simp only [mapLeaves, mapLeavesOf_eq_map, ty, tys_eq_map, Ty.mapLeaves, Ty.mapLeavesOf_eq_map,
      List.map_map, Ty.tupleLike.injEq, true_and]
    exact List.map_congr_left ih
  | array t ps ih => simp [mapLeaves, ty, Ty.mapLeaves]
  | container t ps ih => rfl

lemma Ty.allowed_mono {leafs leafs' : L → Prop} {arrays : Prop}
    (h : ∀ l, leafs l → leafs' l) {t : Ty L} (ht : t.Allowed leafs arrays) :
    t.Allowed leafs' arrays := by
  induction t with
  | leaf l =>
    simp only [Allowed] at ht ⊢
    exact h l ht
  | tupleLike b ts ih =>
    simp only [Allowed] at ht ⊢
    exact ⟨ht.1, fun t hmem => ih t hmem (ht.2 t hmem)⟩
  | array t n ih =>
    simp only [Allowed] at ht ⊢
    exact ⟨ht.1, ih ht.2⟩
  | container t ih =>
    simp only [Allowed] at ht ⊢
    exact ih ht

lemma Ty.allowed_mapLeaves {leafs : L → Prop} {arrays : Prop} {t : Ty L}
    (h : t.Allowed (leafs ∘ f) arrays) : (t.mapLeaves f).Allowed leafs arrays := by
  induction t with
  | leaf l =>
    simp only [Allowed, Function.comp_apply] at h
    simpa only [mapLeaves, Allowed] using h
  | tupleLike b ts ih =>
    simp only [Allowed] at h
    simp only [mapLeaves, mapLeavesOf_eq_map, Allowed, List.length_map, List.mem_map]
    refine ⟨h.1, ?_⟩
    rintro _ ⟨t, ht, rfl⟩
    exact ih t ht (h.2 t ht)
  | array t n ih =>
    simp only [Allowed] at h
    simp only [mapLeaves, Allowed]
    exact ⟨h.1, ih h.2⟩
  | container t ih =>
    simp only [Allowed] at h
    simp only [mapLeaves, Allowed]
    exact ih h

lemma Pack.wellTyped_mapLeaves {p : Pack L V} (h : p.WellTyped) :
    (p.mapLeaves f g).WellTyped := by
  induction p with
  | leaf l v => simp [mapLeaves]
  | tupleLike b ps ih =>
    simp only [WellTyped] at h
    simp only [mapLeaves, mapLeavesOf_eq_map, WellTyped, List.length_map, List.mem_map]
    refine ⟨h.1, ?_⟩
    rintro _ ⟨p, hp, rfl⟩
    exact ih p hp (h.2 p hp)
  | array t ps ih | container t ps ih =>
    simp only [WellTyped] at h
    simp only [mapLeaves, mapLeavesOf_eq_map, WellTyped, List.mem_map]
    refine ⟨Ty.allowed_mapLeaves h.1, ?_⟩
    rintro _ ⟨p, hp, rfl⟩
    exact ⟨by rw [ty_mapLeaves, (h.2 p hp).1], ih p hp (h.2 p hp).2⟩

lemma Pack.leaves_mapLeaves (p : Pack L V) :
    (p.mapLeaves f g).leaves = p.leaves.map fun x => ⟨f x.1, g x.1 x.2⟩ := by
  induction p with
  | leaf l v => rfl
  | tupleLike b ps ih | array t ps ih | container t ps ih =>
    simp only [mapLeaves, leaves, mapLeavesOf_eq_map, leavesOf_eq_flatMap, List.flatMap_map,
      List.map_flatMap]
    exact List.flatMap_congr ih

lemma Pack.leaves_allowed {leafs : L → Prop} {arrays : Prop} {p : Pack L V}
    (hp : p.WellTyped) (ha : p.ty.Allowed leafs arrays) : ∀ x ∈ p.leaves, leafs x.1 := by
  induction p with
  | leaf l v =>
    simp only [Pack.ty, Ty.Allowed] at ha
    simpa [Pack.leaves] using ha
  | tupleLike b ps ih =>
    simp only [Pack.WellTyped] at hp
    simp only [ty_tupleLike, Ty.Allowed] at ha
    simp only [Pack.leaves, Pack.leavesOf_eq_flatMap, List.mem_flatMap]
    rintro x ⟨p, hp', hx⟩
    exact ih p hp' (hp.2 p hp') (ha.2 _ (List.mem_map_of_mem hp')) x hx
  | array t ps ih =>
    simp only [Pack.WellTyped] at hp
    simp only [Pack.ty, Ty.Allowed] at ha
    simp only [Pack.leaves, Pack.leavesOf_eq_flatMap, List.mem_flatMap]
    rintro x ⟨p, hp', hx⟩
    exact ih p hp' (hp.2 p hp').2 (by rw [(hp.2 p hp').1]; exact ha.2) x hx
  | container t ps ih =>
    simp only [Pack.WellTyped] at hp
    simp only [Pack.ty, Ty.Allowed] at ha
    simp only [Pack.leaves, Pack.leavesOf_eq_flatMap, List.mem_flatMap]
    rintro x ⟨p, hp', hx⟩
    exact ih p hp' (hp.2 p hp').2 (by rw [(hp.2 p hp').1]; exact ha) x hx

lemma Ty.mapLeaves_id (t : Ty L) : t.mapLeaves id = t := by
  induction t with
  | leaf l => rfl
  | tupleLike b ts ih =>
    simp only [mapLeaves, mapLeavesOf_eq_map]
    rw [List.map_congr_left (g := id) ih, List.map_id]
  | array t n ih => simp only [mapLeaves, ih]
  | container t ih => simp only [mapLeaves, ih]

lemma Pack.mapLeaves_of_untouched {g : ∀ l, V l → V (id l)}
    (hg : ∀ l v, accepts l = false → g l v = v) {p : Pack L V} (hp : p.WellTyped)
    (h : touched accepts p.ty = false) : p.mapLeaves id g = p := by
  have hsame : ∀ ps : List (Pack L V), (∀ p ∈ ps, p.mapLeaves id g = p) →
      mapLeavesOf id g ps = ps := fun ps h => by
    rw [mapLeavesOf_eq_map, List.map_congr_left (g := id) h, List.map_id]
  induction p with
  | leaf l v =>
    simp only [ty, touched] at h
    simp only [mapLeaves, id, hg l v h]
  | tupleLike b ps ih =>
    simp only [WellTyped] at hp
    simp only [ty, touched, touchedAny_eq_any, tys_eq_map, List.any_map, List.any_eq_false,
      Function.comp_apply, Bool.not_eq_true] at h
    rw [mapLeaves, hsame ps fun p hp' => ih p hp' (hp.2 p hp') (h p hp')]
  | array t ps ih | container t ps ih =>
    simp only [WellTyped] at hp
    simp only [ty, touched] at h
    rw [mapLeaves, Ty.mapLeaves_id, hsame ps fun p hp' =>
      ih p hp' (hp.2 p hp').2 (by rw [(hp.2 p hp').1]; exact h)]

end shape

end Continuable.Packs
