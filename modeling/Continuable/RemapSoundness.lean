import Continuable.RemapTyping

/-!
`map_pack` returns well typed packs, over the leaf types its mapper leaves or returns.
-/

namespace Continuable.Packs

variable {L : Type} {V : L → Type} {m : Mapper L V}

section types

variable {leafs : L → Prop} {arrays : Prop}

lemma allowed_unpack {r : Mapped (Ty L)} (h : ∀ u ∈ r.undecorate, u.Allowed leafs arrays) :
    (Ty.unpack r).Allowed leafs arrays := by
  cases r with
  | one t => exact h t (by simp [Mapped.undecorate])
  | spread ts =>
    simp only [Ty.unpack, Ty.Allowed]
    exact ⟨rfl, h⟩

lemma allowed_remapContainerTy {r : Mapped (Ty L)}
    (h : ∀ u ∈ r.undecorate, u.Allowed leafs arrays) :
    ∀ u ∈ (remapContainerTy r).undecorate, u.Allowed leafs arrays := by
  have hone : ∀ u ∈ (Mapped.one (Ty.container (Ty.unpack r))).undecorate,
      u.Allowed leafs arrays := by
    intro u hu
    obtain rfl : u = .container (Ty.unpack r) := by simpa [Mapped.undecorate] using hu
    simp only [Ty.Allowed]
    exact allowed_unpack h
  cases r with
  | one t => exact hone
  | spread ts =>
    cases ts with
    | nil => simp [remapContainerTy, Mapped.undecorate]
    | cons t ts => exact hone

/-- A node of mapped elements consists of what these consist of. -/
theorem allowed_tryTraverseTy
    (hm : ∀ l r, leafs l → m.type l = some r → ∀ u ∈ r.undecorate, u.Allowed leafs arrays)
    {t : Ty L} (h : t.Allowed leafs arrays) :
    ∀ u ∈ (tryTraverseTy m t).undecorate, u.Allowed leafs arrays := by
  have hsame : ∀ t : Ty L, t.Allowed leafs arrays →
      ∀ u ∈ (Mapped.one t).undecorate, u.Allowed leafs arrays := by
    intro t h u hu
    obtain rfl : u = t := by simpa [Mapped.undecorate] using hu
    exact h
  induction t with
  | leaf l =>
    simp only [Ty.Allowed] at h
    cases ht : m.type l with
    | none =>
      simp only [tryTraverseTy, ht, Option.getD_none]
      exact hsame _ (by simpa only [Ty.Allowed] using h)
    | some r =>
      simp only [tryTraverseTy, ht, Option.getD_some]
      exact hm l r h ht
  | tupleLike b ts ih =>
    have h' := h
    simp only [Ty.Allowed] at h
    have hall : ∀ u ∈ (ts.map (tryTraverseTy m)).flatMap Mapped.undecorate,
        u.Allowed leafs arrays := by
      intro u hu
      simp only [List.mem_flatMap, List.mem_map] at hu
      obtain ⟨_, ⟨t, ht, rfl⟩, hu⟩ := hu
      exact ih t ht (h.2 t ht) u hu
    simp only [tryTraverseTy, tryTraverseTys_eq_map, flatTupelizeTo]
    split_ifs
    · split
      · simp [Mapped.undecorate]
      · split_ifs with hfits
        · refine hsame _ ?_
          simp only [Ty.Allowed]
          exact ⟨hfits, hall⟩
        · exact hsame _ h'
    · exact hsame _ h'
  | array t n ih =>
    have h' := h
    simp only [Ty.Allowed] at h
    simp only [tryTraverseTy, flatArraylizeTo]
    split_ifs
    · split
      · simp [Mapped.undecorate]
      · rename_i u us hus
        refine hsame _ ?_
        simp only [Ty.Allowed]
        have hu : u ∈ (List.replicate n (tryTraverseTy m t)).flatMap Mapped.undecorate := by
          rw [hus]; exact List.mem_cons_self
        obtain ⟨r, hr, hu⟩ := List.mem_flatMap.1 hu
        rw [(List.mem_replicate.1 hr).2] at hu
        exact ⟨h.1, ih h.2 u hu⟩
    · exact hsame _ h'
  | container t ih =>
    have h' := h
    simp only [Ty.Allowed] at h
    simp only [tryTraverseTy]
    split_ifs
    · exact allowed_remapContainerTy (ih h)
    · exact hsame _ h'

end types

lemma wellTyped_unpack {r : Mapped (Pack L V)} (h : ∀ q ∈ r.undecorate, q.WellTyped) :
    (Pack.unpack r).WellTyped := by
  cases r with
  | one p => exact h p (by simp [Mapped.undecorate])
  | spread ps =>
    simp only [Pack.unpack, Pack.WellTyped]
    exact ⟨rfl, h⟩

/-- **`map_pack` is sound**: what it returns where it compiles is well typed. -/
theorem wellTyped_tryTraverse [DecidableEq L] {p : Pack L V} (hp : p.WellTyped)
    (hc : compiles m p.ty = true) : ∀ q ∈ (tryTraverse m p).1.undecorate, q.WellTyped := by
  have hsame : ∀ p : Pack L V, p.WellTyped → ∀ q ∈ (Mapped.one p).undecorate, q.WellTyped := by
    intro p h q hq
    obtain rfl : q = p := by simpa [Mapped.undecorate] using hq
    exact h
  have hformed : ∀ t : Ty L, t.WellFormed → ∀ u ∈ (tryTraverseTy m t).undecorate,
      u.WellFormed := fun t ht => allowed_tryTraverseTy (fun l r _ hr => m.formed l r hr) ht
  induction p with
  | leaf l v =>
    cases ht : m.type l with
    | none =>
      simp only [tryTraverse, Mapper.accepts, ht, Option.isSome_none, Bool.false_eq_true,
        if_false]
      exact hsame _ hp
    | some r =>
      simp only [tryTraverse, Mapper.accepts, ht, Option.isSome_some, if_true]
      exact (m.typed l v r ht).2
  | tupleLike b ps ih =>
    have hp' := hp
    simp only [Pack.WellTyped] at hp
    have hmap := flatTupelizeTo_map (b := b) (ty_tupleLike b)
      (ps.map fun p => (tryTraverse m p).1)
    rw [map_ty_tryTraverse fun p hp' => tryTraverse_ty (hp.2 p hp')] at hmap
    simp only [Pack.ty, Pack.tys_eq_map, compiles, tryTraverseTys_eq_map, compilesAll_eq_all,
      ← hmap, Option.isSome_map] at hc
    simp only [tryTraverse, Pack.tys_eq_map, tryTraverseAll_fst]
    cases hany : (ps.map Pack.ty).any (isEffective m) with
    | false => simpa using hsame _ hp'
    | true =>
      cases hr : flatTupelizeTo b (Pack.tupleLike b)
          (ps.map fun p => (tryTraverse m p).1) with
      | none => simpa using hsame _ hp'
      | some r =>
        simp only [hany, hr, Option.isSome_some, Bool.and_self, Bool.not_true, Bool.false_or,
          List.all_map, List.all_eq_true, Function.comp_apply] at hc
        have hall : ∀ q ∈ (ps.map fun p => (tryTraverse m p).1).flatMap Mapped.undecorate,
            q.WellTyped := by
          intro q hq
          obtain ⟨_, hr, hq⟩ := List.mem_flatMap.1 hq
          obtain ⟨p, hp', rfl⟩ := List.mem_map.1 hr
          exact ih p hp' (hp.2 p hp') (hc p hp') q hq
        simp only [if_true]
        unfold flatTupelizeTo at hr
        split at hr
        · obtain rfl := Option.some.inj hr
          simp [Mapped.undecorate]
        · split_ifs at hr with hfits
          obtain rfl := Option.some.inj hr
          refine hsame _ ?_
          simp only [Pack.WellTyped]
          exact ⟨hfits, hall⟩
  | array t ps ih =>
    have hp' := hp
    simp only [Pack.WellTyped] at hp
    simp only [Pack.ty, compiles] at hc
    simp only [tryTraverse, tryTraverseAll_fst]
    cases heff : isEffective m t with
    | false => simpa using hsame _ hp'
    | true =>
      simp only [if_true, flatArraylizeTo]
      split
      · simp [Mapped.undecorate]
      · rename_i q qs hqs
        have hne : ps.length ≠ 0 := by
          rintro hz
          rw [List.length_eq_zero_iff.1 hz] at hqs
          cases hqs
        simp only [heff, Bool.true_and, Bool.or_eq_true, Bool.not_eq_true', bne_eq_false_iff_eq,
          hne, false_or, Bool.and_eq_true, List.all_eq_true, decide_eq_true_eq] at hc
        have hmem : ∀ x ∈ q :: qs, x.WellTyped ∧ x.ty ∈ (tryTraverseTy m t).undecorate := by
          rw [← hqs]
          intro x hx
          obtain ⟨_, hr, hx⟩ := List.mem_flatMap.1 hx
          obtain ⟨p, hp', rfl⟩ := List.mem_map.1 hr
          obtain ⟨hty, hwt⟩ := hp.2 p hp'
          refine ⟨ih p hp' hwt (by rw [hty]; exact hc.1) x hx, ?_⟩
          rw [← hty, ← tryTraverse_ty hwt, Mapped.undecorate_map]
          exact List.mem_map_of_mem hx
        refine hsame _ ?_
        simp only [Pack.WellTyped]
        refine ⟨(hmem q List.mem_cons_self).1.ty_wellFormed, fun x hx => ⟨?_, (hmem x hx).1⟩⟩
        exact hc.2 _ (hmem x hx).2 _ (hmem q List.mem_cons_self).2
  | container t ps ih =>
    have hp' := hp
    simp only [Pack.WellTyped] at hp
    simp only [Pack.ty, compiles, Bool.or_eq_true, Bool.not_eq_true'] at hc
    simp only [tryTraverse, tryTraverseAll_fst]
    cases heff : isEffective m t with
    | false => simpa using hsame _ hp'
    | true =>
      have hone : ∀ q ∈ (Mapped.one (Pack.container (Ty.unpack (tryTraverseTy m t))
          ((ps.map fun p => (tryTraverse m p).1).map Pack.unpack))).undecorate,
          q.WellTyped := by
        refine hsame _ ?_
        simp only [Pack.WellTyped]
        refine ⟨allowed_unpack (hformed t hp.1), ?_⟩
        intro x hx
        obtain ⟨_, hr, rfl⟩ := List.mem_map.1 hx
        obtain ⟨p, hp', rfl⟩ := List.mem_map.1 hr
        obtain ⟨hty, hwt⟩ := hp.2 p hp'
        refine ⟨by rw [ty_unpack, tryTraverse_ty hwt, hty], wellTyped_unpack ?_⟩
        exact ih p hp' hwt (by rw [hty]; exact hc.resolve_left (by simp [heff]))
      simp only [if_true]
      cases hr : tryTraverseTy m t with
      | one u =>
        rw [hr] at hone
        exact hone
      | spread us =>
        rw [hr] at hone
        cases us with
        | nil => simp [remapContainer, Mapped.undecorate]
        | cons u us => exact hone

end Continuable.Packs
