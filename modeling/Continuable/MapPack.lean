import Mathlib.Data.List.ReduceOption
import Continuable.RemapTyping

/-!
When `map_pack` maps a pack as it should.

The strict recursion accepts exactly the types that consist of accepted leaf types. On covered
types the traversal therefore reaches every node that the reference maps.
-/

namespace Continuable.Packs

variable {L : Type} {V : L → Type} {m : Mapper L V}

/-! ### Splicing -/

lemma reduceOption_map_some {α : Type} (l : List α) : (l.map some).reduceOption = l := by
  induction l with
  | nil => rfl
  | cons a l ih => rw [List.map_cons, List.reduceOption_cons_of_some, ih]

lemma flatTupelizeTo_eq {α : Type} {b : Base} {make : List α → α} {args : List (Mapped α)}
    (h : args.flatMap Mapped.undecorate = [] ∨
      b.fits (args.flatMap Mapped.undecorate).length) :
    flatTupelizeTo b make args = some (splice make args) := by
  unfold flatTupelizeTo splice
  cases hl : args.flatMap Mapped.undecorate with
  | nil => rfl
  | cons a l =>
    rw [hl] at h
    simp only at h ⊢
    rw [if_pos (h.resolve_left (by simp))]

lemma flatArraylizeTo_replicate {n : ℕ} (hn : n ≠ 0) (r : Mapped (Ty L)) :
    flatArraylizeTo (fun u us => Ty.array u us.length) (List.replicate n r) =
      arrayOf n r.undecorate := by
  obtain ⟨k, rfl⟩ := Nat.exists_eq_succ_of_ne_zero hn
  unfold flatArraylizeTo
  have hflat : (List.replicate (k + 1) r).flatMap Mapped.undecorate =
      (List.replicate (k + 1) r.undecorate).flatten := by
    rw [List.flatMap_def, List.map_replicate]
  rw [hflat]
  cases hu : r.undecorate with
  | nil => simp [arrayOf]
  | cons u us =>
    have hlen : ((List.replicate (k + 1) (u :: us)).flatten).length =
        (k + 1) * (us.length + 1) := by simp
    rw [List.replicate_succ, List.flatten_cons, List.cons_append] at hlen ⊢
    simp only [hlen, arrayOf]

/-! ### The types -/

lemma entire_of_isEffective {t : Ty L} (h : isEffective m t = true) :
    entire m.accepts t = true := by
  unfold isEffective at h
  induction t with
  | leaf l => exact h
  | tupleLike b ts ih =>
    simp only [traverseTy, traverseTys_eq_map] at h
    split_ifs at h with hc
    · simp only [Bool.and_eq_true, List.any_map, List.any_eq_true, List.all_map,
        List.all_eq_true, Function.comp_apply] at hc
      obtain ⟨⟨t, ht, -⟩, hall⟩ := hc
      simp only [entire, entireAll_eq_all, Bool.and_eq_true, Bool.not_eq_true',
        List.isEmpty_eq_false_iff, List.all_eq_true]
      exact ⟨List.ne_nil_of_mem ht, fun u hu => ih u hu (hall u hu)⟩
    · cases h
  | array t n ih =>
    simp only [traverseTy, Option.isSome_map] at h
    exact ih h
  | container t ih =>
    simp only [traverseTy, Option.isSome_map] at h
    exact ih h

lemma not_isEffective_of_untouched {t : Ty L} (h : touched m.accepts t = false) :
    isEffective m t = false := by
  cases he : isEffective m t with
  | false => rfl
  | true => rw [touched_of_entire (entire_of_isEffective he)] at h; cases h

lemma tryTraverseTy_of_untouched {t : Ty L} (h : touched m.accepts t = false) :
    tryTraverseTy m t = .one t := by
  cases t with
  | leaf l =>
    simp only [touched, Mapper.accepts, Option.isSome_eq_false_iff, Option.isNone_iff_eq_none] at h
    simp [tryTraverseTy, h]
  | tupleLike b ts =>
    simp only [touched, touchedAny_eq_any, List.any_eq_false, Bool.not_eq_true] at h
    have hany : ts.any (isEffective m) = false := by
      simp only [List.any_eq_false, Bool.not_eq_true]
      exact fun u hu => not_isEffective_of_untouched (h u hu)
    simp only [tryTraverseTy, hany, Bool.false_eq_true, if_false]
  | array t n =>
    simp only [touched] at h
    simp only [tryTraverseTy, not_isEffective_of_untouched h, Bool.false_eq_true, if_false]
  | container t =>
    simp only [touched] at h
    simp only [tryTraverseTy, not_isEffective_of_untouched h, Bool.false_eq_true, if_false]

/-- On covered types the strict recursion accepts what is entirely accepted, with the type the
reference gives, and `try_traversor` gives the same type. -/
theorem traverseTy_of_covered {t : Ty L} (hc : covered m.accepts t = true) (hf : Fits m t) :
    (entire m.accepts t = true → traverseTy m t = some (referenceTy m t)) ∧
      tryTraverseTy m t = referenceTy m t := by
  induction t with
  | leaf l =>
    refine ⟨fun h => ?_, rfl⟩
    obtain ⟨r, hr⟩ := Option.isSome_iff_exists.1 h
    simp [traverseTy, referenceTy, hr]
  | tupleLike b ts ih =>
    cases ht : touched m.accepts (.tupleLike b ts) with
    | false =>
      refine ⟨fun h => ?_, ?_⟩
      · rw [touched_of_entire h] at ht; cases ht
      · rw [tryTraverseTy_of_untouched ht, referenceTy_of_untouched ht]
    | true =>
      simp only [covered, ht, Bool.not_true, Bool.false_or, coveredAll_eq_all, Bool.and_eq_true,
        List.any_eq_true, List.all_eq_true] at hc
      obtain ⟨⟨u, hu, hentire⟩, hall⟩ := hc
      simp only [Fits] at hf
      simp only [touched] at ht
      have href : referenceTy m (.tupleLike b ts) =
          splice (.tupleLike b) (ts.map (referenceTy m)) := by
        simp only [referenceTy, ht, if_true, referenceTys_eq_map]
      rw [href]
      refine ⟨fun h => ?_, ?_⟩
      · -- every element is accepted
        simp only [entire, entireAll_eq_all, Bool.and_eq_true, List.all_eq_true] at h
        have hmap : ts.map (traverseTy m) = (ts.map (referenceTy m)).map some := by
          rw [List.map_map]
          exact List.map_congr_left fun t ht => (ih t ht (hall t ht) (hf.1 t ht)).1 (h.2 t ht)
        have hany : ((ts.map (referenceTy m)).map some).any Option.isSome = true := by
          simp only [List.any_map, List.any_eq_true]
          exact ⟨u, hu, rfl⟩
        have hsome : ((ts.map (referenceTy m)).map some).all Option.isSome = true := by
          simp
        have hreduce : ((ts.map (referenceTy m)).map some).reduceOption =
            ts.map (referenceTy m) := reduceOption_map_some _
        simp only [traverseTy, traverseTys_eq_map, hmap, hany, hsome, Bool.and_self, if_true]
        rw [hreduce]
        exact flatTupelizeTo_eq hf.2
      · -- the element that is entirely accepted makes the tuple effective
        have hany : ts.any (isEffective m) = true := by
          simp only [List.any_eq_true]
          refine ⟨u, hu, ?_⟩
          rw [isEffective, (ih u hu (hall u hu) (hf.1 u hu)).1 hentire]
          rfl
        have hmap : ts.map (tryTraverseTy m) = ts.map (referenceTy m) :=
          List.map_congr_left fun t ht => (ih t ht (hall t ht) (hf.1 t ht)).2
        simp only [tryTraverseTy, hany, if_true, tryTraverseTys_eq_map, hmap]
        rw [flatTupelizeTo_eq hf.2, Option.getD_some]
  | array t n ih =>
    cases ht : touched m.accepts (.array t n) with
    | false =>
      refine ⟨fun h => ?_, ?_⟩
      · rw [touched_of_entire h] at ht; cases ht
      · rw [tryTraverseTy_of_untouched ht, referenceTy_of_untouched ht]
    | true =>
      simp only [touched] at ht
      simp only [covered, ht, Bool.not_true, Bool.false_or, Bool.and_eq_true, bne_iff_ne] at hc
      obtain ⟨⟨hentire, hn⟩, hcovered⟩ := hc
      simp only [Fits] at hf
      obtain ⟨htraverse, htry⟩ := ih hcovered hf.1
      have href : referenceTy m (.array t n) =
          flatArraylizeTo (fun u us => .array u us.length)
            (List.replicate n (referenceTy m t)) := by
        rw [flatArraylizeTo_replicate hn]
        simp only [referenceTy, ht, if_true]
      have heff : isEffective m t = true := by rw [isEffective, htraverse hentire]; rfl
      rw [href]
      refine ⟨fun _ => ?_, ?_⟩
      · simp only [traverseTy, htraverse hentire, Option.map_some]
      · simp only [tryTraverseTy, heff, if_true, htry]
  | container t ih =>
    cases ht : touched m.accepts (.container t) with
    | false =>
      refine ⟨fun h => ?_, ?_⟩
      · rw [touched_of_entire h] at ht; cases ht
      · rw [tryTraverseTy_of_untouched ht, referenceTy_of_untouched ht]
    | true =>
      simp only [touched] at ht
      simp only [covered, ht, Bool.not_true, Bool.false_or, Bool.and_eq_true] at hc
      simp only [Fits] at hf
      obtain ⟨htraverse, htry⟩ := ih hc.2 hf
      have heff : isEffective m t = true := by rw [isEffective, htraverse hc.1]; rfl
      refine ⟨fun _ => ?_, ?_⟩
      · simp only [traverseTy, htraverse hc.1, Option.map_some, referenceTy, ht, if_true]
      · simp only [tryTraverseTy, heff, if_true, htry, referenceTy, ht]

theorem compiles_of_covered [DecidableEq L] {t : Ty L} (hc : covered m.accepts t = true)
    (hf : Fits m t) : compiles m t = true := by
  induction t with
  | leaf l => rfl
  | tupleLike b ts ih =>
    cases ht : touched m.accepts (.tupleLike b ts) with
    | false =>
      simp only [touched, touchedAny_eq_any, List.any_eq_false, Bool.not_eq_true] at ht
      have hany : ts.any (isEffective m) = false := by
        simp only [List.any_eq_false, Bool.not_eq_true]
        exact fun u hu => not_isEffective_of_untouched (ht u hu)
      simp [compiles, hany]
    | true =>
      simp only [covered, ht, Bool.not_true, Bool.false_or, coveredAll_eq_all, Bool.and_eq_true,
        List.all_eq_true] at hc
      simp only [Fits] at hf
      simp only [compiles, compilesAll_eq_all, Bool.or_eq_true, List.all_eq_true]
      exact Or.inr fun t ht => ih t ht (hc.2 t ht) (hf.1 t ht)
  | array t n ih =>
    simp only [Fits] at hf
    cases ht : touched m.accepts t with
    | false => simp [compiles, not_isEffective_of_untouched ht]
    | true =>
      simp only [covered, ht, Bool.not_true, Bool.false_or, Bool.and_eq_true] at hc
      simp only [compiles, Bool.or_eq_true, Bool.and_eq_true, List.all_eq_true, decide_eq_true_eq]
      rw [(traverseTy_of_covered hc.2 hf.1).2]
      exact Or.inr ⟨ih hc.2 hf.1, hf.2⟩
  | container t ih =>
    simp only [Fits] at hf
    cases ht : touched m.accepts t with
    | false => simp [compiles, not_isEffective_of_untouched ht]
    | true =>
      simp only [covered, ht, Bool.not_true, Bool.false_or, Bool.and_eq_true] at hc
      simp only [compiles, Bool.or_eq_true]
      exact Or.inr (ih hc.2 hf)

end Continuable.Packs
