import Continuable.Frozen

/-!
What each operation does to a continuable that is acquired.

None of the assertions fails, and what the data of the result holds is not started when the
result is destroyed without being invoked.
-/

namespace Continuable.Frozen

namespace Handle

/-- An acquired continuable whose data starts nothing when it is destroyed. -/
structure Ok (h : Handle) : Prop where
  acquired : h.ownership.acquired = true
  quiet : destroyAll h.holds = 0
  closed : h.erased = true → h.annotated = .signature

/-- Two continuables with the same flag that hold the same. -/
structure Same (g h : Handle) : Prop where
  ownership : g.ownership = h.ownership
  holds : g.holds = h.holds

@[simp] lemma mk_ownership (o : Ownership) (a : Annotation) (e : Bool) (hs : List Handle) :
    (mk o a e hs).ownership = o := rfl

@[simp] lemma withOwnership_ownership (o : Ownership) (h : Handle) :
    (h.withOwnership o).ownership = o := by cases h; rfl

@[simp] lemma withOwnership_holds (o : Ownership) (h : Handle) :
    (h.withOwnership o).holds = h.holds := by cases h; rfl

@[simp] lemma withOwnership_annotated (o : Ownership) (h : Handle) :
    (h.withOwnership o).annotated = h.annotated := by cases h; rfl

@[simp] lemma withOwnership_erased (o : Ownership) (h : Handle) :
    (h.withOwnership o).erased = h.erased := by cases h; rfl

lemma destroyAll_append (l m : List Handle) :
    destroyAll (l ++ m) = destroyAll l + destroyAll m := by
  induction l with
  | nil => simp [destroyAll]
  | cons h rest ih => rw [List.cons_append, destroyAll, ih, destroyAll, Nat.add_assoc]

lemma destroy_of_frozen {h : Handle} (hf : h.ownership.frozen = true)
    (hq : destroyAll h.holds = 0) :
    h.destroy = 0 := by
  obtain ⟨o, a, e, hs⟩ := h
  have : o.invokesOnDestruction = false := by
    simp only [ownership] at hf
    simp [Ownership.invokesOnDestruction, hf]
  rw [destroy, this]
  exact hq

variable {h : Handle}

lemma freeze_eq (hok : h.Ok) (enabled : Bool) :
    h.freeze enabled = some (h.withOwnership ⟨true, enabled⟩) := by
  unfold freeze
  rw [Ownership.freeze_of_acquired hok.acquired, Option.map_some, hok.acquired]

lemma ok_withOwnership (hok : h.Ok) (frozen : Bool) : (h.withOwnership ⟨true, frozen⟩).Ok :=
  ⟨by simp, by simpa using hok.quiet, by simpa using hok.closed⟩

lemma consume_eq (hok : h.Ok) : h.consume = some h.holds := by
  unfold consume
  rw [Ownership.release_of_acquired hok.acquired]
  rfl

lemma finish_spec (hok : h.Ok) : ∃ g, h.finish = some g ∧ g.Ok ∧ g.Same h ∧
    g.annotated = .signature ∧ g.erased = h.erased := by
  unfold finish
  cases ha : h.annotated with
  | signature =>
    have hsame : (h.withOwnership h.ownership.moved.1).Same h := ⟨by simp, by simp⟩
    exact ⟨_, rfl, ⟨by simpa using hok.acquired, by simpa using hok.quiet, by simp [ha]⟩, hsame,
      by simp [ha], by simp⟩
  | strategy s =>
    have herased : h.erased = false := by
      by_contra he
      have := hok.closed (by simpa using he)
      rw [ha] at this
      cases this
    simp only
    rw [consume_eq hok]
    exact ⟨_, rfl, ⟨hok.acquired, hok.quiet, fun _ => rfl⟩, ⟨rfl, rfl⟩, rfl, herased.symm⟩

lemma chainContinuation_spec (hok : h.Ok) {holding : List Handle} (hq : destroyAll holding = 0) :
    ∃ g, h.chainContinuation holding = some g ∧ g.Ok ∧
      g.ownership.frozen = h.ownership.frozen ∧ g.erased = false := by
  obtain ⟨f, hf, hfok, hsame, -, -⟩ := finish_spec hok
  refine ⟨.mk f.ownership .signature false (f.holds ++ holding), ?_,
    ⟨hfok.acquired, ?_, fun _ => rfl⟩, ?_, rfl⟩
  · simp [chainContinuation, hf, consume_eq hfok]
  · rw [holds, destroyAll_append, hfok.quiet, hq]
  · rw [mk_ownership, hsame.ownership]

/-- A conversion hands the flag on only if there is nothing to convert. -/
lemma erase_spec (hok : h.Ok) : ∃ g, h.erase = some g ∧ g.Ok ∧ g.erased = true ∧
    (g.ownership.frozen = true ↔ h.erased = true ∧ h.ownership.frozen = true) := by
  unfold erase
  by_cases he : h.erased = true
  · rw [if_pos he]
    exact ⟨_, rfl, ⟨by simpa using hok.acquired, by simpa using hok.quiet,
      by simpa using hok.closed⟩, by simpa using he, by simp [he]⟩
  · rw [if_neg he]
    obtain ⟨f, hf, hfok, -, -, -⟩ := finish_spec hok
    refine ⟨.mk .default .signature true f.holds, ?_, ⟨rfl, hfok.quiet, fun _ => rfl⟩, rfl, ?_⟩
    · simp [hf, consume_eq hfok]
    · simp [Ownership.default, he]

lemma normalize_spec (hok : h.Ok) (hf : h.ownership.frozen = true) (s : Strategy) :
    ∃ hs, h.normalize s = some hs ∧ destroyAll hs = 0 := by
  unfold normalize
  cases ha : h.annotated with
  | signature =>
    refine ⟨_, rfl, ?_⟩
    simp only [destroyAll, Nat.add_zero]
    exact destroy_of_frozen (by simpa using hf) (by simpa using hok.quiet)
  | strategy t =>
    simp only
    by_cases hts : t = s
    · rw [if_pos hts]
      exact ⟨_, consume_eq hok, hok.quiet⟩
    · rw [if_neg hts]
      obtain ⟨g, hg, hgok, hsame, -, -⟩ := finish_spec hok
      refine ⟨[g], by rw [hg]; rfl, ?_⟩
      simp only [destroyAll, Nat.add_zero]
      exact destroy_of_frozen (by rw [hsame.ownership]; exact hf) hgok.quiet

lemma connect_spec {l r : Handle} (hl : l.Ok) (hr : r.Ok) (s : Strategy) :
    ∃ g, l.connect s r = some g ∧ g.Ok ∧ g.erased = false ∧
      (g.ownership.frozen = true ↔ l.ownership.frozen = true ∨ r.ownership.frozen = true) := by
  obtain ⟨ls, hls, hlq⟩ := normalize_spec (ok_withOwnership hl true) (by simp) s
  obtain ⟨rs, hrs, hrq⟩ := normalize_spec (ok_withOwnership hr true) (by simp) s
  refine ⟨.mk (l.ownership.merge r.ownership) (.strategy s) false (ls ++ rs), ?_,
    ⟨?_, ?_, fun he => by cases he⟩, rfl, ?_⟩
  · simp [connect, freeze_eq hl, freeze_eq hr, hls, hrs]
  · simp [Ownership.merge, hl.acquired, hr.acquired]
  · rw [holds, destroyAll_append, hlq, hrq]
  · simp [Ownership.merge]

/-- The flag of the left operand is overwritten. -/
lemma sequentialConnect_spec {l r : Handle} (hl : l.Ok) (hr : r.Ok) :
    ∃ g, l.sequentialConnect r = some g ∧ g.Ok ∧ g.erased = false ∧
      g.ownership.frozen = r.ownership.frozen := by
  have hq : destroyAll [r.withOwnership ⟨true, true⟩] = 0 := by
    simp only [destroyAll, Nat.add_zero]
    exact destroy_of_frozen (by simp) (by simpa using hr.quiet)
  obtain ⟨g, hg, hgok, hfrozen, herased⟩ :=
    chainContinuation_spec (ok_withOwnership hl r.ownership.frozen) hq
  refine ⟨g, ?_, hgok, herased, by rw [hfrozen]; simp⟩
  simp [sequentialConnect, freeze_eq hl, freeze_eq hr, hg]

lemma prepareContinuable_spec (hok : h.Ok) (frozen : Bool) :
    ∃ g, h.prepareContinuable ⟨true, frozen⟩ = some (⟨true, frozen || h.ownership.frozen⟩, g) ∧
      g.destroy = 0 := by
  obtain ⟨g, hg, hgok, hsame, -, -⟩ := finish_spec (ok_withOwnership hok true)
  refine ⟨g, ?_, destroy_of_frozen (by rw [hsame.ownership]; simp) hgok.quiet⟩
  cases frozen <;> cases hf : h.ownership.frozen <;>
    simp [prepareContinuable, hf, Ownership.freeze, freeze_eq hok, hg]

lemma prepareContinuables_spec (hs : List Handle) (hok : ∀ h ∈ hs, h.Ok) (frozen : Bool) :
    ∃ gs, prepareContinuables ⟨true, frozen⟩ hs =
        some (⟨true, frozen || hs.any fun h => h.ownership.frozen⟩, gs) ∧
      destroyAll gs = 0 := by
  induction hs generalizing frozen with
  | nil => exact ⟨[], by simp [prepareContinuables], rfl⟩
  | cons h rest ih =>
    obtain ⟨g, hg, hgq⟩ := prepareContinuable_spec (hok h List.mem_cons_self) frozen
    obtain ⟨gs, hgs, hgsq⟩ := ih (fun k hk => hok k (List.mem_cons_of_mem _ hk))
      (frozen || h.ownership.frozen)
    refine ⟨g :: gs, ?_, by rw [destroyAll, hgq, hgsq]⟩
    simp [prepareContinuables, hg, hgs, Bool.or_assoc]

lemma applyConnection_spec (hs : List Handle) (hok : ∀ h ∈ hs, h.Ok) :
    ∃ g, applyConnection hs = some g ∧ g.Ok ∧ g.erased = false ∧
      (g.ownership.frozen = true ↔ ∃ h ∈ hs, h.ownership.frozen = true) := by
  obtain ⟨gs, hgs, hq⟩ := prepareContinuables_spec hs hok false
  refine ⟨.mk ⟨true, hs.any fun h => h.ownership.frozen⟩ .signature false gs, ?_,
    ⟨rfl, hq, fun _ => rfl⟩, rfl, by simp⟩
  simp only [applyConnection, Ownership.default, hgs]
  rfl

end Handle

end Continuable.Frozen
