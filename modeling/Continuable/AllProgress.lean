import Continuable.AllCompletion
import Mathlib.Algebra.Order.BigOperators.Group.Finset

/-!
What an `all` connection does by itself.

Between two resolutions only finitely much can happen: the dispatch goes on, and every thread
goes through the stages of its callback once. When nothing more can happen, the dispatch has
accepted the connection and the callback of every member that resolved has run to its end.
-/

namespace Continuable.All

open Schedule

variable {V E : Type}

/-- A step in which no member resolves. -/
def Internal : Action V E → Prop
  | .resolve .. => False
  | _ => True

/-- Nothing can happen any more but resolutions. -/
def Settled (n : ℕ) (s : State V E) : Prop := ∀ a, Internal a → step n s a = s

namespace Stage

/-- How many steps the thread has left. -/
def rank : Stage → ℕ
  | .idle => 5
  | .entered => 4
  | .asserted => 3
  | .zero => 2
  | .checked => 1
  | .finished | .raised => 0

end Stage

/-- A thread goes on, and the dispatch does not. -/
structure Advances (s s' : State V E) (t : Thread) : Prop where
  created : s'.created = s.created
  started : s'.started = s.started
  stage : ∃ g, s'.stage = Function.update s.stage t g ∧ g.rank < (s.stage t).rank

section steps

variable {n : ℕ} {s s' : State V E}

lemma Advances.ne {t : Thread} (h : Advances s s' t) : s' ≠ s := by
  rintro rfl
  obtain ⟨g, hg, hlt⟩ := h.stage
  have hself := congrFun hg t
  rw [Function.update_self] at hself
  rw [hself] at hlt
  exact Nat.lt_irrefl _ hlt

lemma callOnce_same (s : State V E) (c : Call V E) :
    (s.callOnce c).created = s.created ∧ (s.callOnce c).started = s.started ∧
      (s.callOnce c).stage = s.stage := by
  unfold State.callOnce
  split_ifs <;> exact ⟨rfl, rfl, rfl⟩

lemma completeOne_advances {t : Thread} (hidle : s.stage t ≠ .idle)
    (hrank : 0 < (s.stage t).rank) : Advances s (completeOne n s t) t := by
  unfold completeOne
  cases hs : s.stage t with
  | idle => exact absurd hs hidle
  | entered => exact ⟨rfl, rfl, .asserted, rfl, by rw [hs]; decide⟩
  | asserted =>
    refine ⟨rfl, rfl, if s.left - 1 = 0 then .zero else .finished, rfl, ?_⟩
    rw [hs]
    split_ifs <;> decide
  | zero => exact ⟨rfl, rfl, .checked, rfl, by rw [hs]; decide⟩
  | checked =>
    obtain ⟨hcreated, hstarted, hstage⟩ :=
      callOnce_same s (.values ((List.range n).map s.boxes))
    exact ⟨hcreated, hstarted, .finished, by simp only [State.enter, hstage], by rw [hs]; decide⟩
  | finished => simp [hs, Stage.rank] at hrank
  | raised => simp [hs, Stage.rank] at hrank

lemma completeOne_of_end {t : Thread} (h : s.stage t = .idle ∨ (s.stage t).rank = 0) :
    completeOne n s t = s := by
  unfold completeOne
  cases hs : s.stage t <;> simp [hs, Stage.rank] at h ⊢

lemma callback_advances {i : ℕ} (signal : Signal V E) (hidle : s.stage (.member i) = .idle) :
    Advances s (partialAllCallback s i signal) (.member i) := by
  cases signal with
  | value vs => exact ⟨rfl, rfl, .entered, rfl, by rw [hidle]; decide⟩
  | exception e =>
    obtain ⟨hcreated, hstarted, hstage⟩ := callOnce_same s (.exception e)
    exact ⟨hcreated, hstarted, .raised, by simp only [partialAllCallback, State.enter, hstage],
      by rw [hidle]; decide⟩

end steps

/-! ### Every run settles -/

section progress

variable {n : ℕ} {s s' : State V E}

/-- How much can still happen before something resolves. -/
def rank (n : ℕ) (s : State V E) : ℕ :=
  (n - s.created) + (n - s.started) + ∑ t ∈ threads n, (s.stage t).rank

lemma rank_of_advances {t : Thread} (ht : t ∈ threads n) (h : Advances s s' t) :
    rank n s' < rank n s := by
  obtain ⟨g, hg, hlt⟩ := h.stage
  have hsum : ∑ u ∈ threads n, (s'.stage u).rank < ∑ u ∈ threads n, (s.stage u).rank := by
    refine Finset.sum_lt_sum (fun u _ => ?_) ⟨t, ht, by rw [hg, Function.update_self]; exact hlt⟩
    by_cases hu : u = t
    · subst hu
      rw [hg, Function.update_self]
      exact hlt.le
    · rw [hg, Function.update_of_ne hu]
  unfold rank
  rw [h.created, h.started]
  omega

lemma threads_subset (h : Inv n s) {t : Thread} (ht : t ∈ threads s.created) : t ∈ threads n := by
  cases t with
  | dispatcher => exact dispatcher_mem_threads n
  | member i =>
    rw [member_mem_threads] at ht ⊢
    exact ht.trans_le h.created_le

lemma step_rank (h : Inv n s) {a : Action V E} (ha : Internal a) (hne : step n s a ≠ s) :
    rank n (step n s a) < rank n s := by
  have hstarted := h.started_le
  have hcreated := h.created_le
  cases a with
  | createCallback =>
    by_cases hg : s.created < n ∧ s.started = s.created
    · simp only [step, if_pos hg, rank]
      omega
    · exact absurd (if_neg hg) hne
  | start =>
    by_cases hg : s.started < s.created
    · simp only [step, if_pos hg, rank]
      omega
    · exact absurd (if_neg hg) hne
  | accept =>
    by_cases hg : s.started = n ∧ s.stage .dispatcher = .idle
    · simp only [step, if_pos hg]
      exact rank_of_advances (dispatcher_mem_threads n)
        ⟨rfl, rfl, .entered, rfl, by rw [hg.2]; decide⟩
    · exact absurd (if_neg hg) hne
  | resolve i signal => exact absurd ha id
  | callback i =>
    cases hres : s.resolution i with
    | none => exact absurd (by simp only [step, hres]) hne
    | some signal =>
      by_cases hidle : s.stage (.member i) = .idle
      · simp only [step, hres, if_pos hidle]
        have hlt := h.resolved i (by rw [hres]; simp)
        exact rank_of_advances (by rw [member_mem_threads]; omega)
          (callback_advances signal hidle)
      · exact absurd (by simp only [step, hres, if_neg hidle]) hne
  | completeOne t =>
    by_cases hend : s.stage t = .idle ∨ (s.stage t).rank = 0
    · exact absurd (completeOne_of_end hend) hne
    · obtain ⟨hidle, hrank⟩ := not_or.1 hend
      exact rank_of_advances (threads_subset h (h.mem_threads hidle))
        (completeOne_advances hidle (Nat.pos_of_ne_zero hrank))

/-- **Every run settles** between two resolutions. -/
theorem reaches_settled (h : Inv n s) : Reaches (step n) Internal (Settled n) s :=
  reaches_fixed (I := Inv n) (rank n) (fun _ a h => step_inv h a)
    (fun _ _ h ha hne => step_rank h ha hne) h

/-! ### What it settles to -/

lemma stage_of_settled (hs : Settled n s) (t : Thread) :
    s.stage t = .idle ∨ (s.stage t).rank = 0 := by
  by_contra hend
  obtain ⟨hidle, hrank⟩ := not_or.1 hend
  exact (completeOne_advances hidle (Nat.pos_of_ne_zero hrank)).ne (hs (.completeOne t) trivial)

lemma dispatched_of_settled (h : Inv n s) (hs : Settled n s) :
    s.created = n ∧ s.started = n ∧ s.stage .dispatcher = .finished := by
  have hle := h.started_le
  have hcreated := h.created_le
  have hstart : ¬ s.started < s.created := by
    intro hg
    have := congrArg State.started (hs .start trivial)
    simp [step, hg] at this
  have hcreate : ¬ s.created < n := by
    intro hg
    have := congrArg State.created (hs .createCallback trivial)
    simp [step, hg, show s.started = s.created by omega] at this
  have haccepted : s.stage .dispatcher ≠ .idle := by
    intro hidle
    have := congrArg (State.stage · .dispatcher) (hs .accept trivial)
    simp [step, show s.started = n by omega, hidle] at this
  refine ⟨by omega, by omega, ?_⟩
  have hraised := h.dispatcher_ne
  rcases stage_of_settled hs .dispatcher with hidle | hrank
  · exact absurd hidle haccepted
  · cases hd : s.stage .dispatcher <;> simp_all [Stage.rank]

lemma member_of_settled (h : Inv n s) (hs : Settled n s) (i : ℕ) :
    (s.stage (.member i) = .idle ∧ s.resolution i = none) ∨
      (s.stage (.member i) = .finished ∧ ∃ vs, s.resolution i = some (.value vs)) ∨
      (s.stage (.member i) = .raised ∧ ∃ e, s.resolution i = some (.exception e) ∧
        e ∈ s.raised) := by
  by_cases hidle : s.stage (.member i) = .idle
  · refine .inl ⟨hidle, ?_⟩
    cases hres : s.resolution i with
    | none => rfl
    | some signal =>
      have hcallback := hs (.callback i) trivial
      simp only [step, hres, if_pos hidle] at hcallback
      exact absurd hcallback (callback_advances signal hidle).ne
  · have hrank := (stage_of_settled hs (.member i)).resolve_left hidle
    rcases h.ran i hidle with hraised | ⟨hne, vs, hres, -⟩
    · exact .inr (.inr hraised)
    · refine .inr (.inl ⟨?_, vs, hres⟩)
      cases hm : s.stage (.member i) <;> simp_all [Stage.rank]

end progress

end Continuable.All
