import Continuable.RemapSoundness
import Continuable.RenamingMappers

/-!
What `map_pack` leaves behind in types without arrays.

Leaf types that the mapper does not accept stay somewhere in the result. If nothing accepted
stays, the type was covered.
-/

namespace Continuable.Packs

variable {L : Type} {V : L → Type} {m : Mapper L V} {accepts : L → Bool} {leafs : L → Prop}

lemma compiles_of_allowed [DecidableEq L] {t : Ty L} (h : t.Allowed leafs False) :
    compiles m t = true := by
  induction t with
  | leaf l => rfl
  | tupleLike b ts ih =>
    simp only [Ty.Allowed] at h
    simp only [compiles, compilesAll_eq_all, Bool.or_eq_true, List.all_eq_true]
    exact Or.inr fun t ht => ih t ht (h.2 t ht)
  | array t n ih =>
    simp only [Ty.Allowed] at h
    exact h.1.elim
  | container t ih =>
    simp only [Ty.Allowed] at h
    simp only [compiles, Bool.or_eq_true]
    exact Or.inr (ih h)

/-- Some of the types is above an accepted leaf type. -/
def TouchedIn (accepts : L → Bool) (r : Mapped (Ty L)) : Prop :=
  ∃ u ∈ r.undecorate, touched accepts u = true

lemma touchedIn_one {t : Ty L} : TouchedIn accepts (.one t) ↔ touched accepts t = true := by
  simp [TouchedIn, Mapped.undecorate]

lemma touchedIn_remapContainerTy {r : Mapped (Ty L)} :
    TouchedIn accepts (remapContainerTy r) ↔ TouchedIn accepts r := by
  match r with
  | .one t => simp [remapContainerTy, TouchedIn, Mapped.undecorate, touched, Ty.unpack]
  | .spread [] => rfl
  | .spread (t :: ts) => simp [remapContainerTy, TouchedIn, Mapped.undecorate, touched, Ty.unpack]

lemma touchedIn_of_flatTupelizeTo {b : Base} {ts : List (Ty L)} {f : Ty L → Mapped (Ty L)}
    {r : Mapped (Ty L)} (h : flatTupelizeTo b (.tupleLike b) (ts.map f) = some r) :
    TouchedIn accepts r ↔ ∃ t ∈ ts, TouchedIn accepts (f t) := by
  have hmem : ∀ u, u ∈ (ts.map f).flatMap Mapped.undecorate ↔ ∃ t ∈ ts, u ∈ (f t).undecorate := by
    simp [List.mem_flatMap]
  have hiff : (∃ u ∈ (ts.map f).flatMap Mapped.undecorate, touched accepts u = true) ↔
      ∃ t ∈ ts, TouchedIn accepts (f t) := by
    constructor
    · rintro ⟨u, hu, ht⟩
      obtain ⟨t, ht', hu⟩ := (hmem u).1 hu
      exact ⟨t, ht', u, hu, ht⟩
    · rintro ⟨t, ht', u, hu, ht⟩
      exact ⟨u, (hmem u).2 ⟨t, ht', hu⟩, ht⟩
  rw [← hiff]
  unfold flatTupelizeTo at h
  split at h
  · rename_i hnil
    rw [← Option.some.inj h, hnil]
    simp [TouchedIn, Mapped.undecorate]
  · split_ifs at h
    rw [← Option.some.inj h, touchedIn_one]
    simp only [touched, touchedAny_eq_any, List.any_eq_true]

/-- **Leaf types that are not accepted stay.** -/
theorem touchedIn_tryTraverseTy (hm : ∀ l, accepts l = true → m.type l = none) {t : Ty L}
    (ha : t.Allowed leafs False) (h : touched accepts t = true) :
    TouchedIn accepts (tryTraverseTy m t) := by
  induction t with
  | leaf l =>
    simp only [tryTraverseTy, hm l h, Option.getD_none]
    exact touchedIn_one.2 h
  | tupleLike b ts ih =>
    have h' := touchedIn_one.2 h
    simp only [Ty.Allowed] at ha
    simp only [touched, touchedAny_eq_any, List.any_eq_true] at h
    obtain ⟨t, ht, htouched⟩ := h
    simp only [tryTraverseTy, tryTraverseTys_eq_map]
    split_ifs
    · cases hr : flatTupelizeTo b (Ty.tupleLike b) (ts.map (tryTraverseTy m)) with
      | none => exact h'
      | some r =>
        rw [Option.getD_some, touchedIn_of_flatTupelizeTo hr]
        exact ⟨t, ht, ih t ht (ha.2 t ht) htouched⟩
    · exact h'
  | array t n ih =>
    simp only [Ty.Allowed] at ha
    exact ha.1.elim
  | container t ih =>
    have h' := touchedIn_one.2 h
    simp only [Ty.Allowed] at ha
    simp only [touched] at h
    simp only [tryTraverseTy]
    split_ifs
    · exact touchedIn_remapContainerTy.2 (ih ha h)
    · exact h'

/-- **Nothing accepted stays in covered types only.** -/
theorem covered_of_not_touchedIn {t : Ty L} (ha : t.Allowed leafs False)
    (h : ¬ TouchedIn m.accepts (tryTraverseTy m t)) : covered m.accepts t = true := by
  induction t with
  | leaf l => rfl
  | tupleLike b ts ih =>
    cases ht : touched m.accepts (.tupleLike b ts) with
    | false => exact covered_of_untouched ht
    | true =>
      have hsame := touchedIn_one.2 ht
      simp only [Ty.Allowed] at ha
      simp only [tryTraverseTy, tryTraverseTys_eq_map] at h
      split_ifs at h with hany
      · cases hr : flatTupelizeTo b (Ty.tupleLike b) (ts.map (tryTraverseTy m)) with
        | none => rw [hr] at h; exact absurd hsame h
        | some r =>
          rw [hr, Option.getD_some, touchedIn_of_flatTupelizeTo hr] at h
          obtain ⟨u, hu, heff⟩ := List.any_eq_true.1 hany
          simp only [covered, ht, Bool.not_true, Bool.false_or, coveredAll_eq_all,
            Bool.and_eq_true, List.any_eq_true, List.all_eq_true]
          exact ⟨⟨u, hu, entire_of_isEffective heff⟩,
            fun t ht => ih t ht (ha.2 t ht) fun hin => h ⟨t, ht, hin⟩⟩
      · exact absurd hsame h
  | array t n ih =>
    simp only [Ty.Allowed] at ha
    exact ha.1.elim
  | container t ih =>
    cases ht : touched m.accepts (.container t) with
    | false => exact covered_of_untouched ht
    | true =>
      have hsame := touchedIn_one.2 ht
      simp only [Ty.Allowed] at ha
      simp only [touched] at ht
      simp only [tryTraverseTy] at h
      split_ifs at h with heff
      · rw [touchedIn_remapContainerTy] at h
        simp only [covered, ht, Bool.not_true, Bool.false_or, Bool.and_eq_true]
        exact ⟨entire_of_isEffective heff, ih ha h⟩
      · exact absurd hsame h

lemma touched_mono {accepts' : L → Bool} (h : ∀ l, accepts l = true → accepts' l = true)
    {t : Ty L} (ht : touched accepts t = true) : touched accepts' t = true := by
  induction t with
  | leaf l => exact h l ht
  | tupleLike b ts ih =>
    simp only [touched, touchedAny_eq_any, List.any_eq_true] at ht ⊢
    obtain ⟨t, hmem, ht⟩ := ht
    exact ⟨t, hmem, ih t hmem ht⟩
  | array t n ih => exact ih ht
  | container t ih => exact ih ht

/-- **The reference leaves nothing accepted.** -/
theorem not_touchedIn_referenceTy
    (hm : ∀ l r, m.type l = some r → ¬ TouchedIn accepts r)
    (hacc : ∀ l, accepts l = true → m.accepts l = true) (t : Ty L) :
    ¬ TouchedIn accepts (referenceTy m t) := by
  have hsame : ∀ t : Ty L, touched m.accepts t = false → ¬ TouchedIn accepts (.one t) := by
    intro t ht h
    rw [touched_mono hacc (touchedIn_one.1 h)] at ht
    cases ht
  induction t with
  | leaf l =>
    cases hl : m.type l with
    | none =>
      simp only [referenceTy, hl, Option.getD_none]
      exact hsame _ (by simp [touched, Mapper.accepts, hl])
    | some r =>
      simp only [referenceTy, hl, Option.getD_some]
      exact hm l r hl
  | tupleLike b ts ih =>
    simp only [referenceTy, referenceTys_eq_map]
    split_ifs with ht
    · unfold splice
      split
      · simp [TouchedIn, Mapped.undecorate]
      · rw [touchedIn_one]
        simp only [touched, touchedAny_eq_any, List.any_eq_true, List.mem_flatMap, List.mem_map]
        rintro ⟨u, ⟨_, ⟨t, ht, rfl⟩, hu⟩, htouched⟩
        exact ih t ht ⟨u, hu, htouched⟩
    · exact hsame _ (by simp only [touched]; exact Bool.of_not_eq_true ht)
  | array t n ih =>
    simp only [referenceTy]
    split_ifs with ht
    · cases hu : (referenceTy m t).undecorate with
      | nil => simp [arrayOf, TouchedIn, Mapped.undecorate]
      | cons u us =>
        simp only [arrayOf]
        rw [touchedIn_one]
        intro htouched
        exact ih ⟨u, by rw [hu]; exact List.mem_cons_self, htouched⟩
    · exact hsame _ (Bool.of_not_eq_true ht)
  | container t ih =>
    simp only [referenceTy]
    split_ifs with ht
    · rw [touchedIn_remapContainerTy]
      exact ih
    · exact hsame _ (Bool.of_not_eq_true ht)

/-- The result is only formed if everything fitted. -/
theorem fits_of_formed {t : Ty L} (ha : t.Allowed leafs False)
    (h : ∀ u ∈ (referenceTy m t).undecorate, u.WellFormed) : Fits m t := by
  induction t with
  | leaf l => simp [Fits]
  | tupleLike b ts ih =>
    simp only [Ty.Allowed] at ha
    suffices hflat : (∀ u ∈ (ts.map (referenceTy m)).flatMap Mapped.undecorate, u.WellFormed) ∧
        ((ts.map (referenceTy m)).flatMap Mapped.undecorate = [] ∨
          b.fits ((ts.map (referenceTy m)).flatMap Mapped.undecorate).length) by
      simp only [Fits]
      refine ⟨fun t ht => ih t ht (ha.2 t ht) fun u hu => hflat.1 u ?_, hflat.2⟩
      exact List.mem_flatMap.2 ⟨_, List.mem_map_of_mem ht, hu⟩
    simp only [referenceTy, referenceTys_eq_map] at h
    split_ifs at h with htouched
    · unfold splice at h
      split at h
      · rename_i hnil
        exact ⟨by simp [hnil], Or.inl hnil⟩
      · have hnode := h _ List.mem_cons_self
        simp only [Ty.Allowed] at hnode
        exact ⟨hnode.2, Or.inr hnode.1⟩
    · have hone : ∀ t ∈ ts, referenceTy m t = .one t := by
        simp only [touchedAny_eq_any, List.any_eq_true, not_exists, not_and,
          Bool.not_eq_true] at htouched
        exact fun t ht => referenceTy_of_untouched (htouched t ht)
      have hnode := h _ List.mem_cons_self
      simp only [Ty.Allowed] at hnode
      rw [flatMap_of_one (G := id) hone, List.map_id]
      exact ⟨hnode.2, Or.inr hnode.1⟩
  | array t n ih =>
    simp only [Ty.Allowed] at ha
    exact ha.1.elim
  | container t ih =>
    simp only [Ty.Allowed] at ha
    simp only [Fits]
    refine ih ha fun u hu => ?_
    simp only [referenceTy] at h
    split_ifs at h with htouched
    · cases hr : referenceTy m t with
      | one t' =>
        rw [hr] at h hu
        have hnode := h _ List.mem_cons_self
        simp only [Ty.Allowed] at hnode
        rwa [List.mem_singleton.1 hu]
      | spread ts =>
        rw [hr] at h hu
        cases ts with
        | nil => cases hu
        | cons t' ts =>
          have hnode := h _ List.mem_cons_self
          simp only [Ty.Allowed, Ty.unpack] at hnode
          exact hnode.2 u hu
    · have hnode := h _ List.mem_cons_self
      simp only [Ty.Allowed] at hnode
      rw [referenceTy_of_untouched (Bool.of_not_eq_true htouched)] at hu
      rwa [List.mem_singleton.1 hu]

end Continuable.Packs
