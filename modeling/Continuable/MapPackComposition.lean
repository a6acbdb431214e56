import Continuable.RemapSoundness
import Continuable.RenamingMappers

/-!
Mapping what was mapped.

Two mappers can be put together to one that maps what the first one returns with the second one. On
covered types it makes the same of a pack as mapping the pack with both, one after the other.
-/

namespace Continuable.Packs

variable {L : Type} {V : L → Type}

namespace Mapped

variable {α β γ : Type}

/-- What a mapper returned is mapped further. -/
def andThen (f : α → Mapped β) : Mapped α → Mapped β
  | .one a => f a
  | .spread l => .spread (l.flatMap fun a => (f a).undecorate)

@[simp] lemma undecorate_andThen (f : α → Mapped β) (r : Mapped α) :
    (r.andThen f).undecorate = r.undecorate.flatMap fun a => (f a).undecorate := by
  cases r with
  | one a => exact (List.append_nil _).symm
  | spread l => rfl

lemma andThen_congr {f g : α → Mapped β} {r : Mapped α} (h : ∀ a ∈ r.undecorate, f a = g a) :
    r.andThen f = r.andThen g := by
  cases r with
  | one a => exact h a (List.mem_singleton_self a)
  | spread l =>
    rw [andThen, andThen, List.flatMap_def, List.flatMap_def]
    congr 2
    exact List.map_congr_left fun a ha => by rw [h a ha]

lemma map_andThen (g : β → γ) (f : α → Mapped β) (r : Mapped α) :
    (r.andThen f).map g = r.andThen fun a => (f a).map g := by
  cases r with
  | one a => rfl
  | spread l =>
    rw [andThen, map, List.map_flatMap, andThen]
    simp only [undecorate_map]

lemma andThen_map (g : α → β) (f : β → Mapped γ) (r : Mapped α) :
    (r.map g).andThen f = r.andThen fun a => f (g a) := by
  cases r with
  | one a => rfl
  | spread l => simp only [andThen, map, List.flatMap_map]

lemma flatMap_andThen (f : α → Mapped β) (args : List (Mapped α)) :
    (args.map (andThen f)).flatMap undecorate =
      (args.flatMap undecorate).flatMap fun a => (f a).undecorate := by
  rw [List.flatMap_map, List.flatMap_assoc]
  simp only [undecorate_andThen]

end Mapped

lemma splice_andThen {α : Type} {make : List α → α} {f : α → Mapped α}
    (hmake : ∀ l, l ≠ [] → f (make l) = splice make (l.map f)) (args : List (Mapped α)) :
    (splice make args).andThen f = splice make (args.map (Mapped.andThen f)) := by
  unfold splice
  rw [Mapped.flatMap_andThen]
  cases args.flatMap Mapped.undecorate with
  | nil => rfl
  | cons a l =>
    rw [Mapped.andThen, hmake (a :: l) (List.cons_ne_nil a l), splice, List.flatMap_map]

lemma apply_splice {α β : Type} {make : List α → α} {g : Mapped α → β}
    (hg : ∀ a l, g (.one (make (a :: l))) = g (.spread (a :: l))) (f : α → Mapped α)
    (l : List α) : g (splice make (l.map f)) = g ((Mapped.spread l).andThen f) := by
  rw [splice, List.flatMap_map, Mapped.andThen]
  cases l.flatMap fun a => (f a).undecorate with
  | nil => rfl
  | cons a l => exact hg a l

/-! ### Nodes -/

section nodes

variable {m : Mapper L V}

/-! The equations of the reference hold for nodes without accepted leaf types, too. -/

lemma referenceTy_tupleLike (b : Base) {ts : List (Ty L)} (h : ts ≠ []) :
    referenceTy m (.tupleLike b ts) = splice (.tupleLike b) (ts.map (referenceTy m)) := by
  cases ht : touchedAny m.accepts ts with
  | true => rw [referenceTy, if_pos ht, referenceTys_eq_map]
  | false =>
    have hone : ∀ t ∈ ts, referenceTy m t = .one (id t) := by
      intro t hmem
      rw [touchedAny_eq_any, List.any_eq_false] at ht
      exact referenceTy_of_untouched (Bool.of_not_eq_true (ht t hmem))
    rw [splice_of_one h hone, List.map_id]
    exact referenceTy_of_untouched ht

lemma referenceTy_array (t : Ty L) (n : ℕ) :
    referenceTy m (.array t n) = arrayOf n (referenceTy m t).undecorate := by
  cases ht : touched m.accepts t with
  | true => rw [referenceTy, if_pos ht]
  | false =>
    rw [referenceTy_of_untouched ht, referenceTy_of_untouched (t := .array t n) ht,
      Mapped.undecorate, arrayOf, List.length_nil, Nat.mul_one]

lemma referenceTy_container (t : Ty L) :
    referenceTy m (.container t) = remapContainerTy (referenceTy m t) := by
  cases ht : touched m.accepts t with
  | true => rw [referenceTy, if_pos ht]
  | false =>
    rw [referenceTy_of_untouched ht, referenceTy_of_untouched (t := .container t) ht]
    rfl

lemma reference_tupleLike (b : Base) {ps : List (Pack L V)} (h : ps ≠ []) :
    reference m (.tupleLike b ps) = splice (.tupleLike b) (ps.map (reference m)) := by
  cases ht : touchedAny m.accepts (Pack.tys ps) with
  | true => rw [reference, if_pos ht, referenceAll_eq_map]
  | false =>
    have hone : ∀ p ∈ ps, reference m p = .one (id p) := by
      intro p hmem
      rw [touchedAny_eq_any, Pack.tys_eq_map, List.any_map, List.any_eq_false] at ht
      exact reference_of_untouched (Bool.of_not_eq_true (ht p hmem))
    rw [splice_of_one h hone, List.map_id]
    exact reference_of_untouched (p := .tupleLike b ps) ht

lemma reference_elements_of_untouched {t : Ty L} {ps : List (Pack L V)}
    (h : ∀ p ∈ ps, p.ty = t) (ht : touched m.accepts t = false) :
    ∀ p ∈ ps, reference m p = .one (id p) :=
  fun p hp => reference_of_untouched (by rw [h p hp, ht])

lemma reference_array {t : Ty L} {ps : List (Pack L V)} (h : ∀ p ∈ ps, p.ty = t) :
    reference m (.array t ps) = arrayHolding (referenceTy m t).undecorate
      ((ps.map (reference m)).flatMap Mapped.undecorate) := by
  cases ht : touched m.accepts t with
  | true => rw [reference, if_pos ht, referenceAll_eq_map]
  | false =>
    rw [referenceTy_of_untouched ht, reference_of_untouched (p := .array t ps) ht,
      flatMap_of_one (reference_elements_of_untouched h ht), List.map_id]
    rfl

lemma reference_container {t : Ty L} {ps : List (Pack L V)} (h : ∀ p ∈ ps, p.ty = t) :
    reference m (.container t ps) = remapContainer (referenceTy m t) (ps.map (reference m)) := by
  cases ht : touched m.accepts t with
  | true => rw [reference, if_pos ht, referenceAll_eq_map]
  | false =>
    have hunpack : (ps.map (reference m)).map Pack.unpack = ps := by
      rw [List.map_congr_left (reference_elements_of_untouched h ht), List.map_map]
      exact List.map_id ps
    rw [referenceTy_of_untouched ht, reference_of_untouched (p := .container t ps) ht,
      remapContainer, hunpack]
    · rfl
    · exact fun h => by cases h

end nodes

/-! ### Two mappers together -/

/-- The mapper reaches everything it accepts in a type, and what it returns fits in there. -/
def Reaches (m : Mapper L V) (t : Ty L) : Prop := covered m.accepts t = true ∧ Fits m t

/-- The second mapper can map what the first one returns. -/
def Composable (m m' : Mapper L V) : Prop :=
  ∀ l r, m.type l = some r → ∀ t ∈ r.undecorate, Reaches m' t

section composable

variable {m m' : Mapper L V}

lemma Mapper.ty_mem {l : L} (v : V l) {r : Mapped (Ty L)} (hr : m.type l = some r) {p : Pack L V}
    (hp : p ∈ (m.call l v).undecorate) : p.ty ∈ r.undecorate := by
  rw [← (m.typed l v r hr).1, Mapped.undecorate_map]
  exact List.mem_map_of_mem hp

lemma Composable.wellTyped (h : Composable m m') {l : L} (v : V l) {r : Mapped (Ty L)}
    (hr : m.type l = some r) {p : Pack L V} (hp : p ∈ (m.call l v).undecorate) :
    ∀ q ∈ (tryTraverse m' p).1.undecorate, q.WellTyped := by
  classical
  obtain ⟨hcovered, hfits⟩ := h l r hr p.ty (m.ty_mem v hr hp)
  exact wellTyped_tryTraverse ((m.typed l v r hr).2 p hp) (compiles_of_covered hcovered hfits)

end composable

/-- The mapper that maps what the first mapper returns with the second one. -/
def Mapper.andThen (m m' : Mapper L V) (h : Composable m m') : Mapper L V where
  type l := ((m.type l).map (Mapped.andThen (tryTraverseTy m'))).or (m'.type l)
  call l v :=
    if m.accepts l then (m.call l v).andThen fun p => (tryTraverse m' p).1 else m'.call l v
  formed l r hr := by
    cases ht : m.type l with
    | none =>
      rw [ht] at hr
      exact m'.formed l r hr
    | some r₀ =>
      rw [ht] at hr
      obtain rfl := Option.some.inj hr
      rw [Mapped.undecorate_andThen]
      intro t hmem
      obtain ⟨t₀, ht₀, hmem⟩ := List.mem_flatMap.1 hmem
      exact allowed_tryTraverseTy (fun l r _ hr => m'.formed l r hr) (m.formed l r₀ ht t₀ ht₀)
        t hmem
  typed l v r hr := by
    cases ht : m.type l with
    | none =>
      rw [ht] at hr
      rw [if_neg (by rw [Mapper.accepts, ht]; exact Bool.false_ne_true)]
      exact m'.typed l v r hr
    | some r₀ =>
      rw [ht] at hr
      obtain rfl := Option.some.inj hr
      obtain ⟨hty, hwt⟩ := m.typed l v r₀ ht
      rw [if_pos (by rw [Mapper.accepts, ht]; rfl)]
      constructor
      · rw [Mapped.map_andThen, ← hty, Mapped.andThen_map]
        exact Mapped.andThen_congr fun p hp => tryTraverse_ty (hwt p hp)
      · rw [Mapped.undecorate_andThen]
        intro q hq
        obtain ⟨p, hp, hq⟩ := List.mem_flatMap.1 hq
        exact h.wellTyped v ht hp q hq

section reaches

variable {m : Mapper L V}

lemma Reaches.tupleLike {b : Base} {ts : List (Ty L)} (h : Reaches m (.tupleLike b ts)) :
    ∀ t ∈ ts, Reaches m t := by
  obtain ⟨hc, hf⟩ := h
  intro t hmem
  simp only [Fits] at hf
  refine ⟨?_, hf.1 t hmem⟩
  cases ht : touched m.accepts (.tupleLike b ts) with
  | true =>
    rw [covered, ht, Bool.not_true, Bool.false_or, Bool.and_eq_true, coveredAll_eq_all,
      List.all_eq_true] at hc
    exact hc.2 t hmem
  | false =>
    rw [touched, touchedAny_eq_any, List.any_eq_false] at ht
    exact covered_of_untouched (Bool.of_not_eq_true (ht t hmem))

lemma covered_of_node {t : Ty L} {b : Bool}
    (h : (!touched m.accepts t || (b && covered m.accepts t)) = true) :
    covered m.accepts t = true := by
  cases ht : touched m.accepts t with
  | true =>
    rw [ht, Bool.not_true, Bool.false_or, Bool.and_eq_true] at h
    exact h.2
  | false => exact covered_of_untouched ht

lemma Reaches.array {t : Ty L} {n : ℕ} (h : Reaches m (.array t n)) : Reaches m t := by
  obtain ⟨hc, hf⟩ := h
  simp only [Fits] at hf
  exact ⟨covered_of_node hc, hf.1⟩

lemma Reaches.container {t : Ty L} (h : Reaches m (.container t)) : Reaches m t := by
  obtain ⟨hc, hf⟩ := h
  simp only [Fits] at hf
  exact ⟨covered_of_node hc, hf⟩

lemma Reaches.unpack {r : Mapped (Ty L)} (h : Reaches m (Ty.unpack r)) :
    ∀ u ∈ r.undecorate, Reaches m u := by
  cases r with
  | one u =>
    intro w hw
    obtain rfl := List.mem_singleton.1 hw
    exact h
  | spread us => exact Reaches.tupleLike h

lemma reaches_of_remapContainerTy {r : Mapped (Ty L)}
    (h : ∀ u ∈ (remapContainerTy r).undecorate, Reaches m u) : ∀ u ∈ r.undecorate, Reaches m u := by
  match r with
  | .one u => exact (h _ (List.mem_singleton_self _)).container.unpack
  | .spread [] => exact fun u hu => by cases hu
  | .spread (u :: us) => exact (h _ (List.mem_singleton_self _)).container.unpack

/-- What the elements of a node map to is below what the node maps to. -/
lemma reaches_of_splice {b : Base} {args : List (Mapped (Ty L))}
    (h : ∀ u ∈ (splice (Ty.tupleLike b) args).undecorate, Reaches m u) :
    ∀ u ∈ args.flatMap Mapped.undecorate, Reaches m u := by
  unfold splice at h
  cases hl : args.flatMap Mapped.undecorate with
  | nil => exact fun u hu => by cases hu
  | cons u us =>
    rw [hl] at h
    exact (h _ (List.mem_singleton_self _)).tupleLike

lemma reaches_of_arrayOf {n : ℕ} {us : List (Ty L)} (hsame : ∀ u ∈ us, ∀ w ∈ us, u = w)
    (h : ∀ u ∈ (arrayOf n us).undecorate, Reaches m u) :
    ∀ u ∈ us, Reaches m (.array u (n * us.length)) := by
  cases us with
  | nil => exact fun u hu => by cases hu
  | cons u us =>
    intro w hw
    rw [hsame w hw u List.mem_cons_self]
    exact h _ (List.mem_singleton_self _)

end reaches

section andThen

variable {m m' : Mapper L V} {h : Composable m m'}

lemma andThen_accepts : (m.andThen m' h).accepts = fun l => m.accepts l || m'.accepts l := by
  funext l
  rw [Mapper.accepts, Mapper.accepts, Mapper.accepts, Mapper.andThen, Option.isSome_or,
    Option.isSome_map]

/-! ### What the types map to -/

lemma arrayOf_replicate (n k : ℕ) (ws : List (Ty L)) :
    arrayOf n (List.replicate (k + 1) ws).flatten = arrayOf (n * (k + 1)) ws := by
  cases ws with
  | nil => rw [List.flatten_replicate_nil, arrayOf, arrayOf]
  | cons w ws =>
    have hlength : ((List.replicate (k + 1) (w :: ws)).flatten).length =
        (k + 1) * (ws.length + 1) := by simp
    rw [List.replicate_succ, List.flatten_cons, List.cons_append] at hlength ⊢
    rw [List.length_cons] at hlength
    rw [arrayOf, arrayOf, hlength, Nat.mul_assoc]

lemma arrayOf_andThen {n : ℕ} {us : List (Ty L)} (hsame : ∀ u ∈ us, ∀ w ∈ us, u = w) :
    (arrayOf n us).andThen (referenceTy m') =
      arrayOf n (us.flatMap fun u => (referenceTy m' u).undecorate) := by
  rcases us with _ | ⟨u, us⟩
  · rfl
  · have hreplicate : u :: us = List.replicate (us.length + 1) u :=
      List.eq_replicate_of_mem fun w hw => hsame w hw u List.mem_cons_self
    have hflat : (u :: us).flatMap (fun u => (referenceTy m' u).undecorate) =
        (List.replicate (us.length + 1) (referenceTy m' u).undecorate).flatten := by
      rw [hreplicate, List.flatMap_def, List.map_replicate]
    rw [hflat, arrayOf_replicate, arrayOf, Mapped.andThen, referenceTy_array]

lemma remapContainerTy_andThen (r : Mapped (Ty L)) :
    (remapContainerTy r).andThen (referenceTy m') =
      remapContainerTy (r.andThen (referenceTy m')) := by
  match r with
  | .one u => exact referenceTy_container u
  | .spread [] => rfl
  | .spread (u :: us) =>
    change referenceTy m' (.container (.tupleLike .tuple (u :: us))) = _
    rw [referenceTy_container, referenceTy_tupleLike .tuple (List.cons_ne_nil u us)]
    exact apply_splice (fun _ _ => rfl) (referenceTy m') (u :: us)

theorem referenceTy_andThen {t : Ty L} (hf : Fits m t) :
    referenceTy (m.andThen m' h) t = (referenceTy m t).andThen (referenceTy m') := by
  induction t with
  | leaf l =>
    cases hr : m.type l with
    | none => simp only [referenceTy, Mapper.andThen, hr, Option.map_none, Option.none_or,
        Option.getD_none, Mapped.andThen]
    | some r =>
      simp only [referenceTy, Mapper.andThen, hr, Option.map_some, Option.some_or, Option.getD_some]
      refine Mapped.andThen_congr fun u hu => ?_
      obtain ⟨hcovered, hfits⟩ := h l r hr u hu
      exact (traverseTy_of_covered hcovered hfits).2
  | tupleLike b ts ih =>
    simp only [Fits] at hf
    rcases ts with _ | ⟨t, ts⟩
    · rfl
    · have hne := List.cons_ne_nil t ts
      rw [referenceTy_tupleLike b hne, referenceTy_tupleLike b hne,
        splice_andThen fun l hl => referenceTy_tupleLike b hl, List.map_map]
      congr 1
      exact List.map_congr_left fun u hu => ih u hu (hf.1 u hu)
  | array t n ih =>
    simp only [Fits] at hf
    rw [referenceTy_array, referenceTy_array, arrayOf_andThen hf.2, ih hf.1,
      Mapped.undecorate_andThen]
  | container t ih =>
    simp only [Fits] at hf
    rw [referenceTy_container, referenceTy_container, remapContainerTy_andThen, ih hf]

/-! ### Where the mappers reach -/

lemma entire_mono {a b : L → Bool} (hab : ∀ l, a l = true → b l = true) {t : Ty L}
    (ht : entire a t = true) : entire b t = true := by
  induction t with
  | leaf l => exact hab l ht
  | tupleLike base ts ih =>
    rw [entire, entireAll_eq_all, Bool.and_eq_true, List.all_eq_true] at ht ⊢
    exact ⟨ht.1, fun t hmem => ih t hmem (ht.2 t hmem)⟩
  | array t n ih => exact ih ht
  | container t ih => exact ih ht

lemma entire_andThen {t : Ty L} (ht : entire m.accepts t = true ∨ entire m'.accepts t = true) :
    entire (m.andThen m' h).accepts t = true := by
  rw [andThen_accepts]
  rcases ht with ht | ht
  · exact entire_mono (fun l hl => by rw [hl, Bool.true_or]) ht
  · exact entire_mono (fun l hl => by rw [hl, Bool.or_true]) ht

lemma touched_or (a b : L → Bool) (t : Ty L) :
    touched (fun l => a l || b l) t = (touched a t || touched b t) := by
  induction t with
  | leaf l => rfl
  | tupleLike base ts ih =>
    simp only [touched, touchedAny_eq_any]
    rw [Bool.eq_iff_iff]
    simp only [Bool.or_eq_true, List.any_eq_true]
    constructor
    · rintro ⟨t, hmem, ht⟩
      rw [ih t hmem, Bool.or_eq_true] at ht
      exact ht.imp (fun h => ⟨t, hmem, h⟩) fun h => ⟨t, hmem, h⟩
    · rintro (⟨t, hmem, ht⟩ | ⟨t, hmem, ht⟩)
      · exact ⟨t, hmem, by rw [ih t hmem, ht, Bool.true_or]⟩
      · exact ⟨t, hmem, by rw [ih t hmem, ht, Bool.or_true]⟩
  | array t n ih => exact ih
  | container t ih => exact ih

lemma touched_andThen {t : Ty L} (ht : touched (m.andThen m' h).accepts t = true) :
    touched m.accepts t = true ∨ touched m.accepts t = false ∧ touched m'.accepts t = true := by
  rw [andThen_accepts, touched_or, Bool.or_eq_true] at ht
  cases hm : touched m.accepts t with
  | true => exact .inl rfl
  | false => exact .inr ⟨rfl, ht.resolve_left (by rw [hm]; exact Bool.false_ne_true)⟩

lemma reaches_of_untouched {t : Ty L} (ht : touched m.accepts t = false)
    (hr : ∀ u ∈ (referenceTy m t).undecorate, Reaches m' u) : Reaches m' t := by
  rw [referenceTy_of_untouched ht] at hr
  exact hr t (List.mem_singleton_self t)

/-- A tuple-like node keeps its class template if the second mapper takes the elements that the
first one leaves it with. -/
lemma fits_tupleLike_andThen {b : Base} {ts : List (Ty L)} (hf : ∀ t ∈ ts, Fits m t)
    (hr : ∀ u ∈ (splice (Ty.tupleLike b) (ts.map (referenceTy m))).undecorate, Fits m' u) :
    (ts.map (referenceTy (m.andThen m' h))).flatMap Mapped.undecorate = [] ∨
      b.fits ((ts.map (referenceTy (m.andThen m' h))).flatMap Mapped.undecorate).length := by
  have hmap : ts.map (referenceTy (m.andThen m' h)) =
      (ts.map (referenceTy m)).map (Mapped.andThen (referenceTy m')) := by
    rw [List.map_map]
    exact List.map_congr_left fun t hmem => referenceTy_andThen (hf t hmem)
  rw [hmap, Mapped.flatMap_andThen]
  unfold splice at hr
  cases hl : (ts.map (referenceTy m)).flatMap Mapped.undecorate with
  | nil => exact .inl rfl
  | cons u us =>
    rw [hl] at hr
    have hnode := hr _ (List.mem_singleton_self _)
    simp only [Fits] at hnode
    have hfits := hnode.2
    rwa [List.flatMap_map] at hfits

lemma covered_of_touched_andThen {t : Ty L} (hm : Reaches m t)
    (hr : ∀ u ∈ (referenceTy m t).undecorate, Reaches m' u)
    (ht : touched (m.andThen m' h).accepts t = true) :
    touched m.accepts t = true ∧ covered m.accepts t = true ∨
      touched m'.accepts t = true ∧ covered m'.accepts t = true := by
  rcases touched_andThen ht with ht | ⟨huntouched, ht⟩
  · exact .inl ⟨ht, hm.1⟩
  · exact .inr ⟨ht, (reaches_of_untouched huntouched hr).1⟩

theorem reaches_andThen {t : Ty L} (hm : Reaches m t)
    (hr : ∀ u ∈ (referenceTy m t).undecorate, Reaches m' u) : Reaches (m.andThen m' h) t := by
  induction t with
  | leaf l => exact ⟨rfl, by simp only [Fits]⟩
  | tupleLike b ts ih =>
    rcases ts with _ | ⟨t, ts⟩
    · exact ⟨rfl, by simp [Fits]⟩
    have hnode := hr
    rw [referenceTy_tupleLike b (List.cons_ne_nil t ts)] at hnode
    have helements : ∀ u ∈ t :: ts, Reaches (m.andThen m' h) u := fun u hu =>
      ih u hu (hm.tupleLike u hu) fun w hw => reaches_of_splice hnode w
        (List.mem_flatMap.2 ⟨_, List.mem_map_of_mem hu, hw⟩)
    refine ⟨?_, by simpa only [Fits] using ⟨fun u hu => (helements u hu).2,
      fits_tupleLike_andThen (fun u hu => (hm.tupleLike u hu).2) fun u hu => (hnode u hu).2⟩⟩
    rw [covered, Bool.or_eq_true, Bool.not_eq_true', Bool.and_eq_true, coveredAll_eq_all,
      List.all_eq_true, List.any_eq_true]
    refine or_iff_not_imp_left.2 fun ht => ⟨?_, fun u hu => (helements u hu).1⟩
    rcases covered_of_touched_andThen hm hr (Bool.of_not_eq_false ht) with ⟨ht, hc⟩ | ⟨ht, hc⟩
    · rw [covered, ht, Bool.not_true, Bool.false_or, Bool.and_eq_true, List.any_eq_true] at hc
      obtain ⟨⟨u, hu, hentire⟩, -⟩ := hc
      exact ⟨u, hu, entire_andThen (.inl hentire)⟩
    · rw [covered, ht, Bool.not_true, Bool.false_or, Bool.and_eq_true, List.any_eq_true] at hc
      obtain ⟨⟨u, hu, hentire⟩, -⟩ := hc
      exact ⟨u, hu, entire_andThen (.inr hentire)⟩
  | array t n ih =>
    have hsame := hm.2
    simp only [Fits] at hsame
    have harrays := hr
    rw [referenceTy_array] at harrays
    have helement := reaches_of_arrayOf hsame.2 harrays
    obtain ⟨hcovered, hfits⟩ := ih hm.array fun u hu => (helement u hu).array
    constructor
    · rw [covered, Bool.or_eq_true, Bool.not_eq_true', Bool.and_eq_true, Bool.and_eq_true]
      refine or_iff_not_imp_left.2 fun ht => ⟨?_, hcovered⟩
      rcases covered_of_touched_andThen hm hr (Bool.of_not_eq_false ht) with
        ⟨(ht : touched m.accepts t = true), hc⟩ | ⟨(ht : touched m'.accepts t = true), hc⟩
      · rw [covered, ht, Bool.not_true, Bool.false_or, Bool.and_eq_true, Bool.and_eq_true] at hc
        exact ⟨entire_andThen (.inl hc.1.1), hc.1.2⟩
      · rw [covered, ht, Bool.not_true, Bool.false_or, Bool.and_eq_true, Bool.and_eq_true] at hc
        exact ⟨entire_andThen (.inr hc.1.1), hc.1.2⟩
    · simp only [Fits]
      refine ⟨hfits, ?_⟩
      rw [referenceTy_andThen hsame.1, Mapped.undecorate_andThen]
      intro w hw w' hw'
      obtain ⟨u, hu, hw⟩ := List.mem_flatMap.1 hw
      obtain ⟨u', hu', hw'⟩ := List.mem_flatMap.1 hw'
      rw [← hsame.2 u hu u' hu'] at hw'
      have hfits' := (helement u hu).2
      simp only [Fits] at hfits'
      exact hfits'.2 w hw w' hw'
  | container t ih =>
    have helement : ∀ u ∈ (referenceTy m t).undecorate, Reaches m' u := by
      have hcontainer := hr
      rw [referenceTy_container] at hcontainer
      exact reaches_of_remapContainerTy hcontainer
    obtain ⟨hcovered, hfits⟩ := ih hm.container helement
    refine ⟨?_, by simpa only [Fits] using hfits⟩
    rw [covered, Bool.or_eq_true, Bool.not_eq_true', Bool.and_eq_true]
    refine or_iff_not_imp_left.2 fun ht => ⟨entire_andThen ?_, hcovered⟩
    rcases covered_of_touched_andThen hm hr (Bool.of_not_eq_false ht) with
      ⟨(ht : touched m.accepts t = true), hc⟩ | ⟨(ht : touched m'.accepts t = true), hc⟩
    · rw [covered, ht, Bool.not_true, Bool.false_or, Bool.and_eq_true] at hc
      exact .inl hc.1
    · rw [covered, ht, Bool.not_true, Bool.false_or, Bool.and_eq_true] at hc
      exact .inr hc.1

/-! ### What the values map to -/

lemma wellTyped_reference {p : Pack L V} (hp : p.WellTyped) (hm : Reaches m p.ty) :
    ∀ q ∈ (reference m p).undecorate, q.WellTyped := by
  classical
  have hsound := wellTyped_tryTraverse hp (compiles_of_covered hm.1 hm.2)
  rwa [tryTraverse_of_covered hp hm.1 hm.2] at hsound

lemma ty_mem_reference {p : Pack L V} (hp : p.WellTyped) {q : Pack L V}
    (hq : q ∈ (reference m p).undecorate) : q.ty ∈ (referenceTy m p.ty).undecorate := by
  rw [← reference_ty hp, Mapped.undecorate_map]
  exact List.mem_map_of_mem hq

lemma arrayHolding_andThen {us : List (Ty L)} {qs : List (Pack L V)}
    (hsame : ∀ u ∈ us, ∀ w ∈ us, u = w) (hty : ∀ q ∈ qs, q.ty ∈ us) :
    (arrayHolding us qs).andThen (reference m') =
      arrayHolding (us.flatMap fun u => (referenceTy m' u).undecorate)
        (qs.flatMap fun q => (reference m' q).undecorate) := by
  rcases us with _ | ⟨u, us⟩
  · rfl
  · have hqs : ∀ q ∈ qs, q.ty = u := fun q hq => hsame _ (hty q hq) u List.mem_cons_self
    rw [arrayHolding, Mapped.andThen, reference_array hqs, List.flatMap_map]
    cases hu : (referenceTy m' u).undecorate with
    | nil =>
      have hnil : (u :: us).flatMap (fun u => (referenceTy m' u).undecorate) = [] := by
        rw [List.flatMap_eq_nil_iff]
        exact fun w hw => by rw [hsame w hw u List.mem_cons_self, hu]
      rw [hnil]
    | cons w ws =>
      rw [List.flatMap_cons, hu]
      rfl

lemma remapContainer_of_ne {r : Mapped (Ty L)} (hr : r ≠ .spread [])
    (args : List (Mapped (Pack L V))) :
    remapContainer r args = .one (.container (Ty.unpack r) (args.map Pack.unpack)) := by
  match r with
  | .one u => rfl
  | .spread [] => exact absurd rfl hr
  | .spread (u :: us) => rfl

lemma unpack_andThen {a : Mapped (Pack L V)} (ha : a ≠ .spread []) :
    Pack.unpack (reference m' (Pack.unpack a)) = Pack.unpack (a.andThen (reference m')) := by
  match a with
  | .one q => rfl
  | .spread [] => exact absurd rfl ha
  | .spread (q :: qs) =>
    rw [Pack.unpack, reference_tupleLike .tuple (List.cons_ne_nil q qs)]
    exact apply_splice (fun _ _ => rfl) (reference m') (q :: qs)

lemma remapContainer_unpack {r : Mapped (Ty L)} (hr : r ≠ .spread [])
    (args : List (Mapped (Pack L V))) :
    remapContainer (referenceTy m' (Ty.unpack r)) args =
      remapContainer (r.andThen (referenceTy m')) args := by
  match r with
  | .one u => rfl
  | .spread [] => exact absurd rfl hr
  | .spread (u :: us) =>
    rw [Ty.unpack, referenceTy_tupleLike .tuple (List.cons_ne_nil u us)]
    exact apply_splice (g := fun r => remapContainer r args) (fun _ _ => rfl) (referenceTy m')
      (u :: us)

lemma remapContainer_congr (r : Mapped (Ty L)) {args args' : List (Mapped (Pack L V))}
    (hargs : args.map Pack.unpack = args'.map Pack.unpack) :
    remapContainer r args = remapContainer r args' := by
  by_cases hr : r = .spread []
  · rw [hr, remapContainer, remapContainer]
  · rw [remapContainer_of_ne hr, remapContainer_of_ne hr, hargs]

lemma remapContainer_andThen {r : Mapped (Ty L)} {args : List (Mapped (Pack L V))}
    (hargs : ∀ a ∈ args, a.map Pack.ty = r) :
    (remapContainer r args).andThen (reference m') =
      remapContainer (r.andThen (referenceTy m')) (args.map (Mapped.andThen (reference m'))) := by
  by_cases hr : r = .spread []
  · rw [hr]
    rfl
  · have hne : ∀ a ∈ args, a ≠ .spread [] := by
      rintro a ha rfl
      exact hr (hargs _ ha).symm
    have hty : ∀ q ∈ args.map Pack.unpack, q.ty = Ty.unpack r := by
      intro q hq
      obtain ⟨a, ha, rfl⟩ := List.mem_map.1 hq
      rw [ty_unpack, hargs a ha]
    rw [remapContainer_of_ne hr, Mapped.andThen, reference_container hty, remapContainer_unpack hr]
    refine remapContainer_congr _ ?_
    rw [List.map_map, List.map_map, List.map_map]
    exact List.map_congr_left fun a ha => unpack_andThen (hne a ha)

lemma andThen_call (l : L) (v : V l) : (m.andThen m' h).call l v =
    if m.accepts l then (m.call l v).andThen fun p => (tryTraverse m' p).1 else m'.call l v := rfl

lemma reference_leaf_andThen (l : L) (v : V l) :
    reference (m.andThen m' h) (.leaf l v) = (reference m (.leaf l v)).andThen (reference m') := by
  rw [reference, reference, andThen_call, congrFun andThen_accepts l]
  cases hr : m.type l with
  | none =>
    have haccepts : m.accepts l = false := by rw [Mapper.accepts, hr, Option.isSome_none]
    simp only [haccepts, Bool.false_or, Bool.false_eq_true, if_false, Mapped.andThen, reference]
  | some r =>
    have haccepts : m.accepts l = true := by rw [Mapper.accepts, hr, Option.isSome_some]
    simp only [haccepts, Bool.true_or, if_true]
    refine Mapped.andThen_congr fun q hq => ?_
    obtain ⟨hcovered, hfits⟩ := h l r hr q.ty (m.ty_mem v hr hq)
    rw [tryTraverse_of_covered ((m.typed l v r hr).2 q hq) hcovered hfits]

theorem reference_andThen {p : Pack L V} (hp : p.WellTyped) (hm : Reaches m p.ty) :
    reference (m.andThen m' h) p = (reference m p).andThen (reference m') := by
  induction p with
  | leaf l v => exact reference_leaf_andThen l v
  | tupleLike b ps ih =>
    rcases ps with _ | ⟨p, ps⟩
    · rfl
    · simp only [Pack.WellTyped] at hp
      rw [ty_tupleLike] at hm
      have hne := List.cons_ne_nil p ps
      rw [reference_tupleLike b hne, reference_tupleLike b hne,
        splice_andThen fun l hl => reference_tupleLike b hl, List.map_map]
      congr 1
      exact List.map_congr_left fun q hq =>
        ih q hq (hp.2 q hq) (hm.tupleLike q.ty (List.mem_map_of_mem hq))
  | array t ps ih =>
    simp only [Pack.WellTyped] at hp
    have hsame := hm.2
    simp only [Pack.ty, Fits] at hsame
    have hty : ∀ p ∈ ps, p.ty = t := fun p hmem => (hp.2 p hmem).1
    have hmap : ps.map (reference (m.andThen m' h)) =
        (ps.map (reference m)).map (Mapped.andThen (reference m')) := by
      rw [List.map_map]
      refine List.map_congr_left fun q hq => ih q hq (hp.2 q hq).2 ?_
      rw [hty q hq]
      exact Reaches.array hm
    rw [reference_array hty, reference_array hty, arrayHolding_andThen hsame.2, hmap,
      Mapped.flatMap_andThen, referenceTy_andThen hsame.1, Mapped.undecorate_andThen]
    intro q hq
    obtain ⟨_, hr, hq⟩ := List.mem_flatMap.1 hq
    obtain ⟨p, hmem, rfl⟩ := List.mem_map.1 hr
    rw [← hty p hmem]
    exact ty_mem_reference (hp.2 p hmem).2 hq
  | container t ps ih =>
    simp only [Pack.WellTyped] at hp
    have hty : ∀ p ∈ ps, p.ty = t := fun p hmem => (hp.2 p hmem).1
    have hmap : ps.map (reference (m.andThen m' h)) =
        (ps.map (reference m)).map (Mapped.andThen (reference m')) := by
      rw [List.map_map]
      refine List.map_congr_left fun q hq => ih q hq (hp.2 q hq).2 ?_
      rw [hty q hq]
      exact Reaches.container hm
    rw [reference_container hty, reference_container hty, remapContainer_andThen, hmap,
      referenceTy_andThen (Reaches.container hm).2]
    intro a ha
    obtain ⟨p, hmem, rfl⟩ := List.mem_map.1 ha
    rw [reference_ty (hp.2 p hmem).2, hty p hmem]

/-! ### The whole pack -/

lemma unpackOrVoid_andThen (r : Mapped (Pack L V)) :
    unpackOrVoid (r.andThen (reference m')) =
      (unpackOrVoid r).bind fun q => unpackOrVoid (reference m' q) := by
  match r with
  | .one q => rfl
  | .spread [] => rfl
  | .spread (q :: qs) =>
    change _ = unpackOrVoid (reference m' (.tupleLike .tuple (q :: qs)))
    rw [reference_tupleLike .tuple (List.cons_ne_nil q qs)]
    exact (apply_splice (fun _ _ => rfl) (reference m') (q :: qs)).symm

end andThen

lemma unpack_of_unpackOrVoid {r : Mapped (Pack L V)} {q : Pack L V}
    (hq : unpackOrVoid r = some q) : Pack.unpack r = q := by
  match r with
  | .one p => exact Option.some.inj hq
  | .spread [] => cases hq
  | .spread (p :: ps) => exact Option.some.inj hq

/-- **`map_pack` composes.** Where the first mapper reaches everything in a pack, and the second one
everything in what `map_pack` makes of it, mapping the pack with both together is mapping it with
the first one and then what is left, if anything is, with the second one. -/
theorem mapPack_andThen [DecidableEq L] {m m' : Mapper L V} (h : Composable m m')
    {p : Pack L V} (hp : p.WellTyped) (hm : Reaches m p.ty)
    (hm' : Reaches m' (Ty.unpack (referenceTy m p.ty))) :
    (mapPack (m.andThen m' h) [p]).map Prod.fst =
      (mapPack m [p]).bind fun r =>
        r.1.elim (some none) fun q => (mapPack m' [q]).map Prod.fst := by
  have hboth : Reaches (m.andThen m' h) p.ty := reaches_andThen hm hm'.unpack
  rw [mapPack_of_covered hp hboth.1 hboth.2, mapPack_of_covered hp hm.1 hm.2,
    reference_andThen hp hm, Option.map_some, unpackOrVoid_andThen, Option.bind_some]
  cases hq : unpackOrVoid (reference m p) with
  | none => rfl
  | some q =>
    obtain rfl := unpack_of_unpackOrVoid hq
    have hreached : Reaches m' (Pack.unpack (reference m p)).ty := by
      rwa [ty_unpack, reference_ty hp]
    have hsecond := mapPack_of_covered (wellTyped_unpack (wellTyped_reference hp hm)) hreached.1
      hreached.2
    change some _ = (mapPack m' [Pack.unpack (reference m p)]).map Prod.fst
    rw [hsecond]
    rfl

/-- A mapper that makes two leaves of those of the type `true`. -/
def repeater : Mapper Bool fun _ => ℕ where
  type l := if l then some (.spread [.leaf true, .leaf true]) else none
  call _ v := .spread [.leaf true v, .leaf true (v + 1)]
  formed l r h := by
    split_ifs at h
    cases h
    simp [Mapped.undecorate, Ty.Allowed]
  typed l v r h := by
    split_ifs at h
    cases h
    exact ⟨rfl, by simp [Mapped.undecorate]⟩

/-- A mapper that makes leaves of the type `false` of those of the type `true`. -/
def eraser : Mapper Bool fun _ => ℕ where
  type l := if l then some (.one (.leaf false)) else none
  call _ _ := .one (.leaf false 0)
  formed l r h := by
    split_ifs at h
    cases h
    simp [Mapped.undecorate, Ty.Allowed]
  typed l v r h := by
    split_ifs at h
    cases h
    exact ⟨rfl, by simp [Mapped.undecorate]⟩

lemma composable_repeater_eraser : Composable repeater eraser := by
  intro l r hr t ht
  cases l with
  | false => cases hr
  | true =>
    cases hr
    obtain rfl : t = .leaf true := by simpa [Mapped.undecorate] using ht
    exact ⟨rfl, by simp only [Fits]⟩

/-- A container of leaves that are mapped, beside a leaf that is not. -/
def containerAndLeaf : Pack Bool fun _ => ℕ :=
  .tupleLike .tuple [.container (.leaf true) [.leaf true 1, .leaf true 4], .leaf false 5]

lemma reaches_containerAndLeaf : Reaches repeater containerAndLeaf.ty :=
  ⟨rfl, by simp [containerAndLeaf, Pack.ty, Pack.tys, Fits, Base.fits]⟩

lemma reaches_repeated : Reaches eraser (Ty.unpack (referenceTy repeater containerAndLeaf.ty)) := by
  have hty : Ty.unpack (referenceTy repeater containerAndLeaf.ty) = .tupleLike .tuple
      [.container (.tupleLike .tuple [.leaf true, .leaf true]), .leaf false] := rfl
  rw [hty]
  exact ⟨rfl, by simp [Fits, Base.fits]⟩

theorem mapPack_repeater_eraser :
    (mapPack (repeater.andThen eraser composable_repeater_eraser) [containerAndLeaf]).map Prod.fst =
      some (some (.tupleLike .tuple [.container (.tupleLike .tuple [.leaf false, .leaf false])
        [.tupleLike .tuple [.leaf false 0, .leaf false 0],
          .tupleLike .tuple [.leaf false 0, .leaf false 0]], .leaf false 5])) :=
  mapPack_andThen composable_repeater_eraser
    (by simp [containerAndLeaf, Pack.WellTyped, Pack.ty, Ty.Allowed, Base.fits])
    reaches_containerAndLeaf reaches_repeated

end Continuable.Packs
