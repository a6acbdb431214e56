import Continuable.RemapLeftovers

/-!
A mapper that sends every accepted leaf to an empty tuple.

It tells apart what was mapped and what was left: the type the reference gives holds no accepted
leaf type any more.
-/

namespace Continuable.Packs

variable {L : Type} {V : L → Type}

/-! ### Lists of single values -/

section singles

variable {α β : Type} {f g : α → Mapped β} {l : List α}

lemma length_flatMap_le (h : ∀ a ∈ l, (∃ b, f a = .one b) ∨ f a = .spread []) :
    ((l.map f).flatMap Mapped.undecorate).length ≤ l.length := by
  induction l with
  | nil => simp
  | cons a l ih =>
    have := ih fun c hc => h c (List.mem_cons_of_mem a hc)
    rw [List.map_cons, List.flatMap_cons, List.length_append, List.length_cons]
    rcases h a List.mem_cons_self with ⟨b, hb⟩ | hnone
    · rw [hb]
      simp only [Mapped.undecorate, List.length_singleton]
      omega
    · rw [hnone]
      simp only [Mapped.undecorate, List.length_nil]
      omega

lemma eq_of_flatMap_eq (hf : ∀ a ∈ l, (∃ b, f a = .one b) ∨ f a = .spread [])
    (hg : ∀ a ∈ l, ∃ b, g a = .one b)
    (h : (l.map f).flatMap Mapped.undecorate = (l.map g).flatMap Mapped.undecorate) :
    ∀ a ∈ l, f a = g a := by
  induction l with
  | nil => simp
  | cons a l ih =>
    have hf' := fun c hc => hf c (List.mem_cons_of_mem a hc)
    have hg' := fun c hc => hg c (List.mem_cons_of_mem a hc)
    obtain ⟨b, hb⟩ := hg a List.mem_cons_self
    rw [List.map_cons, List.map_cons, List.flatMap_cons, List.flatMap_cons, hb] at h
    rcases hf a List.mem_cons_self with ⟨c, hc⟩ | hnone
    · rw [hc] at h
      simp only [Mapped.undecorate, List.singleton_append, List.cons.injEq] at h
      intro x hx
      rcases List.mem_cons.1 hx with rfl | hx
      · rw [hb, hc, h.1]
      · exact ih hf' hg' h.2 x hx
    · -- then the rest would map to more values than it has elements
      have hlen := congrArg List.length h
      have hle := length_flatMap_le hf'
      rw [hnone, List.length_append, List.length_append, length_flatMap_one hg'] at hlen
      simp only [Mapped.undecorate, List.length_nil, List.length_singleton] at hlen
      omega

lemma flatMap_eq_of_flatTupelizeTo {b : Base} {make : List β → β}
    (hmake : Function.Injective make) {args args' : List (Mapped β)} {r : Mapped β}
    (h : (flatTupelizeTo b make args).getD r = splice make args')
    (hne : r ≠ splice make args') :
    args.flatMap Mapped.undecorate = args'.flatMap Mapped.undecorate := by
  unfold flatTupelizeTo at h
  cases hl : args.flatMap Mapped.undecorate with
  | nil =>
    simp only [hl, Option.getD_some] at h
    unfold splice at h
    cases hl' : args'.flatMap Mapped.undecorate with
    | nil => rfl
    | cons b l => simp [hl'] at h
  | cons b l =>
    simp only [hl] at h
    split_ifs at h
    · rw [Option.getD_some] at h
      unfold splice at h
      cases hl' : args'.flatMap Mapped.undecorate with
      | nil => simp [hl'] at h
      | cons b' l' =>
        simp only [hl', Mapped.one.injEq] at h
        exact hmake h
    · exact absurd h hne

end singles

/-! ### The mapper that tells types apart -/

def unitMapper (V : L → Type) (accepts : L → Bool) : Mapper L V where
  type l := if accepts l then some (.one (.tupleLike .tuple [])) else none
  call _ _ := .one (.tupleLike .tuple [])
  formed l r h := by
    split_ifs at h
    cases h
    simp [Mapped.undecorate, Ty.Allowed, Base.fits]
  typed l v r h := by
    split_ifs at h
    cases h
    exact ⟨rfl, by simp [Mapped.undecorate, Pack.WellTyped, Base.fits]⟩

section unit

variable (V) (accepts : L → Bool)

@[simp] lemma unitMapper_accepts : (unitMapper V accepts).accepts = accepts := by
  funext l
  cases ha : accepts l <;> simp [Mapper.accepts, unitMapper, ha]

lemma referenceTy_unit (t : Ty L) :
    ∃ u, referenceTy (unitMapper V accepts) t = .one u ∧ touched accepts u = false := by
  have hone : ∀ l, ∃ u, referenceTy (unitMapper V accepts) (.leaf l) = .one u := by
    intro l
    cases ha : accepts l with
    | true => exact ⟨.tupleLike .tuple [], by simp [referenceTy, unitMapper, ha]⟩
    | false => exact ⟨.leaf l, by simp [referenceTy, unitMapper, ha]⟩
  have hmapped : ∀ l r, (unitMapper V accepts).type l = some r → ¬ TouchedIn accepts r := by
    intro l r hr
    simp only [unitMapper] at hr
    split_ifs at hr
    cases hr
    rw [touchedIn_one]
    exact Bool.false_ne_true
  have huntouched : ¬ TouchedIn accepts (referenceTy (unitMapper V accepts) t) :=
    not_touchedIn_referenceTy hmapped (fun l hl => by rw [unitMapper_accepts]; exact hl) t
  obtain ⟨u, hu⟩ := referenceTy_one hone t
  rw [hu, touchedIn_one] at huntouched
  exact ⟨u, hu, Bool.of_not_eq_true huntouched⟩

variable {V accepts}

lemma fits_unit {t : Ty L} (h : t.WellFormed) : Fits (unitMapper V accepts) t :=
  fits_of_one (fun t => (referenceTy_unit V accepts t).imp fun _ h => h.1) h

lemma tryTraverseTy_unit (V : L → Type) (accepts : L → Bool) (t : Ty L) :
    (∃ u, tryTraverseTy (unitMapper V accepts) t = .one u) ∨
      tryTraverseTy (unitMapper V accepts) t = .spread [] := by
  cases t with
  | leaf l =>
    cases ha : accepts l with
    | true => exact Or.inl ⟨.tupleLike .tuple [], by simp [tryTraverseTy, unitMapper, ha]⟩
    | false => exact Or.inl ⟨.leaf l, by simp [tryTraverseTy, unitMapper, ha]⟩
  | tupleLike b ts =>
    simp only [tryTraverseTy, flatTupelizeTo]
    split_ifs
    · split
      · exact Or.inr rfl
      · split_ifs
        · exact Or.inl ⟨_, rfl⟩
        · exact Or.inl ⟨_, rfl⟩
    · exact Or.inl ⟨_, rfl⟩
  | array t n =>
    simp only [tryTraverseTy, flatArraylizeTo]
    split_ifs
    · split
      · exact Or.inr rfl
      · exact Or.inl ⟨_, rfl⟩
    · exact Or.inl ⟨_, rfl⟩
  | container t =>
    simp only [tryTraverseTy, remapContainerTy]
    split_ifs
    · split
      · exact Or.inr rfl
      · exact Or.inl ⟨_, rfl⟩
    · exact Or.inl ⟨_, rfl⟩

lemma ne_of_touched {t : Ty L} (ht : touched accepts t = true) :
    Mapped.one t ≠ referenceTy (unitMapper V accepts) t := by
  obtain ⟨u, hu, hu'⟩ := referenceTy_unit V accepts t
  rw [hu]
  rintro ⟨⟩
  rw [ht] at hu'
  cases hu'

/-- Where the types agree, every node above an accepted leaf type was mapped. -/
theorem covered_of_tryTraverseTy_eq {t : Ty L}
    (h : tryTraverseTy (unitMapper V accepts) t = referenceTy (unitMapper V accepts) t) :
    covered accepts t = true := by
  induction t with
  | leaf l => rfl
  | tupleLike b ts ih =>
    cases ht : touched accepts (.tupleLike b ts) with
    | false => exact covered_of_untouched ht
    | true =>
      have hne := ne_of_touched (V := V) ht
      rw [← h] at hne
      simp only [tryTraverseTy, tryTraverseTys_eq_map] at h hne
      split_ifs at h hne with hany
      · -- the tuple was mapped, so its parts agree
        obtain ⟨u, hu, heff⟩ := List.any_eq_true.1 hany
        have hentire := entire_of_isEffective heff
        rw [unitMapper_accepts] at hentire
        have hparts : ∀ t ∈ ts, tryTraverseTy (unitMapper V accepts) t =
            referenceTy (unitMapper V accepts) t := by
          refine eq_of_flatMap_eq (fun t _ => tryTraverseTy_unit V accepts t)
            (fun t _ => (referenceTy_unit V accepts t).imp fun _ h => h.1) ?_
          have href : referenceTy (unitMapper V accepts) (.tupleLike b ts) =
              splice (.tupleLike b) (ts.map (referenceTy (unitMapper V accepts))) := by
            simp only [touched] at ht
            simp only [referenceTy, unitMapper_accepts, ht, if_true, referenceTys_eq_map]
          rw [href] at h
          rw [h] at hne
          exact flatMap_eq_of_flatTupelizeTo (fun _ _ h => (Ty.tupleLike.inj h).2) h hne
        simp only [covered, ht, Bool.not_true, Bool.false_or, coveredAll_eq_all,
          Bool.and_eq_true, List.any_eq_true, List.all_eq_true]
        exact ⟨⟨u, hu, hentire⟩, fun t ht => ih t ht (hparts t ht)⟩
      · exact absurd rfl hne
  | array t n ih =>
    cases ht : touched accepts (.array t n) with
    | false => exact covered_of_untouched ht
    | true =>
      have hne := ne_of_touched (V := V) ht
      rw [← h] at hne
      simp only [touched] at ht
      obtain ⟨u, hu, -⟩ := referenceTy_unit V accepts t
      simp only [tryTraverseTy] at h hne
      split_ifs at h hne with heff
      · have hentire := entire_of_isEffective heff
        rw [unitMapper_accepts] at hentire
        have hn : n ≠ 0 := by
          rintro rfl
          simp [flatArraylizeTo, referenceTy, ht, hu, Mapped.undecorate, arrayOf] at h
        have hpart : tryTraverseTy (unitMapper V accepts) t =
            referenceTy (unitMapper V accepts) t := by
          rw [flatArraylizeTo_replicate hn] at h
          rcases tryTraverseTy_unit V accepts t with ⟨w, hw⟩ | hw
          · simp only [referenceTy, unitMapper_accepts, ht, if_true, hu, hw, Mapped.undecorate,
              arrayOf, Mapped.one.injEq, Ty.array.injEq] at h
            rw [hw, hu, h.1]
          · simp [referenceTy, ht, hu, hw, Mapped.undecorate, arrayOf] at h
        simp only [covered, ht, Bool.not_true, Bool.false_or, Bool.and_eq_true, bne_iff_ne]
        exact ⟨⟨hentire, hn⟩, ih hpart⟩
      · exact absurd rfl hne
  | container t ih =>
    cases ht : touched accepts (.container t) with
    | false => exact covered_of_untouched ht
    | true =>
      have hne := ne_of_touched (V := V) ht
      rw [← h] at hne
      simp only [touched] at ht
      obtain ⟨u, hu, -⟩ := referenceTy_unit V accepts t
      simp only [tryTraverseTy] at h hne
      split_ifs at h hne with heff
      · have hentire := entire_of_isEffective heff
        rw [unitMapper_accepts] at hentire
        have hpart : tryTraverseTy (unitMapper V accepts) t =
            referenceTy (unitMapper V accepts) t := by
          rcases tryTraverseTy_unit V accepts t with ⟨w, hw⟩ | hw
          · simp only [referenceTy, unitMapper_accepts, ht, if_true, hu, hw, remapContainerTy,
              Ty.unpack, Mapped.one.injEq, Ty.container.injEq] at h
            rw [hw, hu, h]
          · simp [referenceTy, ht, hu, hw, remapContainerTy, Ty.unpack] at h
        simp only [covered, ht, Bool.not_true, Bool.false_or, Bool.and_eq_true]
        exact ⟨hentire, ih hpart⟩
      · exact absurd rfl hne

end unit

end Continuable.Packs
