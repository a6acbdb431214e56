import Continuable.AllInvariant

/-!
Every step of an `all` connection keeps its invariant.

The last thread that decrements the counter is the only one to call the callback with values,
and finds every box assigned.
-/

namespace Continuable.All

open Schedule

variable {V E : Type}

section preservation

variable {n : ℕ} {s : State V E}

/-- The thread that counted down to zero is the only one, and nothing was called. -/
lemma Inv.closing (h : Inv n s) {t : Thread} (ht : (s.stage t).closing = true) :
    s.left = 0 ∧ (∀ u, u ≠ t → (s.stage u).closing = false) ∧ s.calls = [] := by
  rcases h.phase with ⟨-, hidle, -⟩ | ⟨t', hleft, -, hidle, hcalls⟩ | ⟨-, hidle, -⟩
  · rw [hidle t] at ht; cases ht
  · obtain rfl : t = t' := by
      by_contra hne
      rw [hidle t hne] at ht
      cases ht
    exact ⟨hleft, hidle, hcalls⟩
  · rw [hidle t] at ht; cases ht

lemma decrement_inv (h : Inv n s) {t : Thread} (hstage : s.stage t = .asserted) :
    Inv n ({ s with left := s.left - 1 }.enter t
      (if s.left - 1 = 0 then .zero else .finished)) := by
  have hmem := h.mem_threads (t := t) (by simp [hstage])
  have hc : (s.stage t).counts = true := by rw [hstage]; rfl
  have hbox := h.box_assigned (t := t) (by simp [hstage]) (by simp [hstage])
  obtain ⟨hpos, hclosing, hcalls⟩ := h.counting hmem hc
  obtain ⟨g, hg⟩ : ∃ g, g = if s.left - 1 = 0 then Stage.zero else .finished := ⟨_, rfl⟩
  have hgne : g ≠ .raised := by rw [hg]; split_ifs <;> simp
  have hgc : g.counts = false := by rw [hg]; split_ifs <;> rfl
  have hdisp : t = .dispatcher → s.started = n := by
    rintro rfl
    exact h.dispatched (by simp [hstage])
  have htally : tally (threads s.created) (Function.update s.stage t g) Stage.counts + 1 =
      tally (threads s.created) s.stage Stage.counts := tally_update_of_leaves hmem hc hgc
  have hleft : s.left - 1 = tally (threads s.created) (Function.update s.stage t g)
      Stage.counts := by
    rw [h.left_eq, ← htally]
    rfl
  have hraiser := raiser_enter (t := t) (g := g) h (by simp [hstage])
  rw [← hg]
  refine { h with
    dispatched := dispatched_enter h hdisp, dispatcher_ne := dispatcher_ne_enter h hgne,
    ran := ran_enter h hgne hbox, left_eq := hleft, phase := ?_, raiser := hraiser }
  by_cases hz : s.left - 1 = 0
  · -- the last one: no member can have passed on an exception, for it would still count
    have hraised : s.raised = [] := by
      by_contra hne
      obtain ⟨e, he⟩ := List.exists_mem_of_ne_nil _ hne
      obtain ⟨i, -, hi⟩ := hraiser e he
      have himem : .member i ∈ threads s.created := by
        obtain ⟨j, hres, -⟩ := h.raiser e he
        by_cases hti : .member i = t
        · exact hti ▸ hmem
        · rw [s.enter_stage_of_ne hti] at hi
          exact h.mem_threads (by simp [hi])
      have := counts_of_tally_eq_zero (hleft.symm.trans hz) himem
      rw [show Function.update s.stage t g (.member i) = .raised from hi] at this
      cases this
    refine .closing t hz ?_ (fun u hu => ?_) (h.calls_eq_nil hcalls hraised)
    · rw [State.enter_stage_self, hg, if_pos hz]
      rfl
    · rw [State.enter_stage_of_ne _ hu]
      exact hclosing u
  · refine .counting (by simp only [State.enter]; omega) (fun u => ?_) hcalls
    by_cases hu : u = t
    · subst hu
      rw [State.enter_stage_self, hg, if_neg hz]
      rfl
    · rw [State.enter_stage_of_ne _ hu]
      exact hclosing u

lemma completeOne_inv (h : Inv n s) (t : Thread) : Inv n (completeOne n s t) := by
  have hdisp : s.stage t ≠ .idle → t = .dispatcher → s.started = n := by
    rintro hne rfl
    exact h.dispatched hne
  unfold completeOne
  cases hstage : s.stage t with
  | idle => exact h
  | finished => exact h
  | raised => exact h
  | entered =>
    have hmem := h.mem_threads (t := t) (by simp [hstage])
    have hc : (s.stage t).counts = true := by rw [hstage]; rfl
    simp only
    rw [s.assert_of (by simpa using (h.counting hmem hc).1)]
    exact enter_counting h hmem hc (by simp [hstage]) (by decide) rfl (hdisp (by simp [hstage]))
      (h.box_assigned (by simp [hstage]) (by simp [hstage]))
  | asserted => exact decrement_inv h hstage
  | zero =>
    obtain ⟨hleft, hidle, hcalls⟩ := h.closing (t := t) (by rw [hstage]; rfl)
    simp only
    rw [s.assert_of (by simpa using hleft)]
    exact { h with
      dispatched := dispatched_enter h (hdisp (by simp [hstage])),
      dispatcher_ne := dispatcher_ne_enter h (by decide),
      ran := ran_enter h (by decide) (h.box_assigned (by simp [hstage]) (by simp [hstage])),
      left_eq := h.left_eq.trans (tally_update (by rw [hstage]; rfl)).symm,
      phase := .closing t hleft (by rw [s.enter_stage_self]; rfl)
        (fun u hu => by rw [s.enter_stage_of_ne hu]; exact hidle u hu) hcalls,
      raiser := raiser_enter h (by simp [hstage]) }
  | checked =>
    obtain ⟨hleft, hidle, hcalls⟩ := h.closing (t := t) (by rw [hstage]; rfl)
    have hflag : s.flag = false := by
      by_contra hf
      exact h.flag.1 (Bool.eq_true_of_not_eq_false hf) hcalls
    obtain ⟨-, -, hraised, -⟩ := h.all_assigned hleft
    have honce : s.callOnce (.values ((List.range n).map s.boxes)) =
        { s with flag := true, calls := [.values ((List.range n).map s.boxes)] } := by
      simp [State.callOnce, hflag, hcalls]
    simp only
    rw [honce]
    refine { h with
      dispatched := dispatched_enter h (hdisp (by simp [hstage])),
      dispatcher_ne := dispatcher_ne_enter h (by decide),
      ran := ran_enter h (by decide) (h.box_assigned (by simp [hstage]) (by simp [hstage])),
      left_eq := h.left_eq.trans (tally_update (by rw [hstage]; rfl)).symm,
      flag := by simp [State.enter],
      phase := .closed hleft (fun u => ?_) rfl,
      first := fun e rest he => ?_, thrown := fun e he => ?_,
      raiser := raiser_enter h (by simp [hstage]) }
    · by_cases hu : u = t
      · subst hu
        rw [State.enter_stage_self]
        rfl
      · rw [State.enter_stage_of_ne _ hu]
        exact hidle u hu
    · simp only [State.enter, hraised] at he
      cases he
    · simp [State.enter] at he

/-- **A step keeps the invariant.** -/
theorem step_inv (h : Inv n s) (a : Action V E) : Inv n (step n s a) := by
  cases a with
  | createCallback =>
    simp only [step]
    split_ifs with hg
    · exact createCallback_inv h hg.1 hg.2
    · exact h
  | start =>
    simp only [step]
    split_ifs with hg
    · exact start_inv h hg
    · exact h
  | accept =>
    simp only [step]
    split_ifs with hg
    · exact enter_counting h (dispatcher_mem_threads _) (by rw [hg.2]; rfl) (by simp [hg.2])
        (by decide) rfl (fun _ => hg.1) (by simp)
    · exact h
  | resolve i signal =>
    simp only [step]
    split_ifs with hg
    · exact resolve_inv h hg.1 hg.2 signal
    · exact h
  | callback i =>
    simp only [step]
    split
    · next signal hres =>
      split_ifs with hidle
      · cases signal with
        | value vs => exact callback_value_inv h hres hidle
        | exception e => exact callback_exception_inv h hres hidle
      · exact h
    · exact h
  | completeOne t => exact completeOne_inv h t

end preservation

theorem runAll_inv (n : ℕ) (schedule : List (Action V E)) : Inv n (runAll n schedule) :=
  run_preserves (I := Inv n) (fun _ a h => step_inv h a) (init_inv n) schedule

end Continuable.All
