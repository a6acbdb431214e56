import Continuable.AllConnection

/-!
The steps of an `all` connection while threads still count.

A thread that counts keeps the counter positive, so nothing is passed on but exceptions.
-/

namespace Continuable.All

open Schedule

variable {V E : Type}

section preservation

variable {n : ℕ} {s : State V E}

lemma Inv.counting (h : Inv n s) {t : Thread} (ht : t ∈ threads s.created)
    (hc : (s.stage t).counts = true) :
    0 < s.left ∧ (∀ u, (s.stage u).closing = false) ∧ ∀ bs, .values bs ∉ s.calls := by
  have hpos : 0 < s.left := by rw [h.left_eq]; exact tally_pos ht hc
  rcases h.phase with ⟨-, hidle, hcalls⟩ | ⟨t, hleft, -, -, -⟩ | ⟨hleft, -, -⟩
  · exact ⟨hpos, hidle, hcalls⟩
  · omega
  · omega

lemma Inv.mem_threads (h : Inv n s) {t : Thread} (ht : s.stage t ≠ .idle) :
    t ∈ threads s.created := by
  cases t with
  | dispatcher => exact dispatcher_mem_threads _
  | member i =>
    have hres : s.resolution i ≠ none := by
      rcases h.ran i ht with ⟨-, e, he, -⟩ | ⟨-, vs, hvs, -⟩
      · rw [he]; simp
      · rw [hvs]; simp
    have := h.resolved i hres
    have := h.started_le
    rw [member_mem_threads]
    omega

/-- Once the counter is zero, everything was dispatched and every member assigned its box. -/
lemma Inv.all_assigned (h : Inv n s) (hleft : s.left = 0) :
    (s.stage .dispatcher).counts = false ∧ s.created = n ∧ s.raised = [] ∧
      ∀ i < n, (s.stage (.member i)).counts = false ∧
        ∃ vs, s.resolution i = some (.value vs) ∧ s.boxes i = some vs := by
  have hcount : ∀ t ∈ threads s.created, (s.stage t).counts = false := fun t ht =>
    counts_of_tally_eq_zero (h.left_eq ▸ hleft) ht
  have hdisp := hcount .dispatcher (dispatcher_mem_threads _)
  have hstarted : s.started = n := h.dispatched (by rintro hi; rw [hi] at hdisp; cases hdisp)
  have hcreated : s.created = n := by
    have := h.started_le
    have := h.created_le
    omega
  refine ⟨hdisp, hcreated, ?_, ?_⟩
  · by_contra hne
    obtain ⟨e, he⟩ := List.exists_mem_of_ne_nil _ hne
    obtain ⟨i, hres, hstage⟩ := h.raiser e he
    have := hcount (.member i) (h.mem_threads (by rw [hstage]; decide))
    rw [hstage] at this
    cases this
  · intro i hi
    have hc := hcount (.member i) (by rw [member_mem_threads]; omega)
    refine ⟨hc, ?_⟩
    rcases h.ran i (by rintro hidle; rw [hidle] at hc; cases hc) with ⟨hr, -⟩ | ⟨-, hbox⟩
    · rw [hr] at hc; cases hc
    · exact hbox

lemma threads_succ (c : ℕ) : threads (c + 1) = insert (.member c) (threads c) := by
  ext t
  cases t with
  | dispatcher => simp
  | member i => simp only [member_mem_threads, Finset.mem_insert, Thread.member.injEq]; omega

lemma createCallback_inv (h : Inv n s) (hlt : s.created < n) (heq : s.started = s.created) :
    Inv n { s with created := s.created + 1, left := s.left + 1 } := by
  have hidle : s.stage .dispatcher = .idle := by
    by_contra hne
    have := h.dispatched hne
    omega
  have hmember : s.stage (.member s.created) = .idle := by
    by_contra hne
    have := h.mem_threads hne
    rw [member_mem_threads] at this
    omega
  obtain ⟨-, hclosing, hcalls⟩ := h.counting (dispatcher_mem_threads _) (by rw [hidle]; rfl)
  refine { h with
    started_le := ?_, created_le := hlt, dispatched := fun hne => absurd hidle hne,
    left_eq := ?_, phase := .counting (Nat.succ_pos _) hclosing hcalls }
  · have := h.started_le
    simp only
    omega
  · simp only
    rw [threads_succ, tally_insert (by simp) (by rw [hmember]; rfl), h.left_eq]

lemma start_inv (h : Inv n s) (hlt : s.started < s.created) :
    Inv n { s with started := s.started + 1 } := by
  have hidle : s.stage .dispatcher = .idle := by
    by_contra hne
    have := h.dispatched hne
    have := h.created_le
    omega
  obtain ⟨hpos, hclosing, hcalls⟩ := h.counting (dispatcher_mem_threads _) (by rw [hidle]; rfl)
  exact { h with
    started_le := hlt, dispatched := fun hne => absurd hidle hne,
    resolved := fun i hi => Nat.lt_succ_of_lt (h.resolved i hi),
    phase := .counting hpos hclosing hcalls }

lemma ran_enter (h : Inv n s) {t : Thread} {g : Stage} (hg : g ≠ .raised)
    (hbox : ∀ i, t = .member i → ∃ vs, s.resolution i = some (.value vs) ∧ s.boxes i = some vs) :
    ∀ i, (s.enter t g).stage (.member i) ≠ .idle → Ran (s.enter t g) i := by
  intro i hi
  by_cases hti : .member i = t
  · subst hti
    exact Or.inr ⟨by simpa using hg, hbox i rfl⟩
  · rw [s.enter_stage_of_ne hti] at hi
    unfold Ran
    rw [s.enter_stage_of_ne hti]
    exact h.ran i hi

lemma raiser_enter (h : Inv n s) {t : Thread} {g : Stage} (hold : s.stage t ≠ .raised) :
    ∀ e ∈ s.raised, ∃ i, s.resolution i = some (.exception e) ∧
      (s.enter t g).stage (.member i) = .raised := by
  intro e he
  obtain ⟨i, hres, hstage⟩ := h.raiser e he
  have hti : .member i ≠ t := by rintro rfl; exact hold hstage
  exact ⟨i, hres, (s.enter_stage_of_ne hti g).trans hstage⟩

lemma dispatched_enter (h : Inv n s) {t : Thread} {g : Stage}
    (ht : t = .dispatcher → s.started = n) :
    (s.enter t g).stage .dispatcher ≠ .idle → s.started = n := by
  intro hne
  by_cases htd : .dispatcher = t
  · exact ht htd.symm
  · rw [s.enter_stage_of_ne htd] at hne
    exact h.dispatched hne

lemma dispatcher_ne_enter (h : Inv n s) {t : Thread} {g : Stage} (hg : g ≠ .raised) :
    (s.enter t g).stage .dispatcher ≠ .raised := by
  by_cases htd : .dispatcher = t
  · subst htd; simpa using hg
  · rw [s.enter_stage_of_ne htd]
    exact h.dispatcher_ne

lemma Inv.box_assigned (h : Inv n s) {t : Thread} (hidle : s.stage t ≠ .idle)
    (hraised : s.stage t ≠ .raised) :
    ∀ i, t = .member i → ∃ vs, s.resolution i = some (.value vs) ∧ s.boxes i = some vs := by
  rintro i rfl
  rcases h.ran i hidle with ⟨hr, -⟩ | ⟨-, hbox⟩
  · exact absurd hr hraised
  · exact hbox

lemma enter_counting (h : Inv n s) {t : Thread} {g : Stage} (ht : t ∈ threads s.created)
    (hc : (s.stage t).counts = true) (hold : s.stage t ≠ .raised) (hg : g ≠ .raised)
    (hgc : g.counts = true) (hdisp : t = .dispatcher → s.started = n)
    (hbox : ∀ i, t = .member i → ∃ vs, s.resolution i = some (.value vs) ∧ s.boxes i = some vs) :
    Inv n (s.enter t g) := by
  obtain ⟨hpos, hclosing, hcalls⟩ := h.counting ht hc
  have hidle : ∀ u, ((s.enter t g).stage u).closing = false := by
    intro u
    by_cases hu : u = t
    · subst hu
      rw [s.enter_stage_self]
      cases g <;> simp_all [Stage.closing, Stage.counts]
    · rw [s.enter_stage_of_ne hu]
      exact hclosing u
  exact { h with
    dispatched := dispatched_enter h hdisp, dispatcher_ne := dispatcher_ne_enter h hg,
    ran := ran_enter h hg hbox, left_eq := h.left_eq.trans (tally_update (hgc.trans hc.symm)).symm,
    phase := .counting hpos hidle hcalls, raiser := raiser_enter h hold }

lemma resolve_inv (h : Inv n s) {i : ℕ} (hlt : i < s.started) (hnone : s.resolution i = none)
    (signal : Signal V E) :
    Inv n { s with resolution := Function.update s.resolution i (some signal) } := by
  have hidle : s.stage (.member i) = .idle := by
    by_contra hne
    rcases h.ran i hne with ⟨-, e, he, -⟩ | ⟨-, vs, hvs, -⟩
    · rw [hnone] at he; cases he
    · rw [hnone] at hvs; cases hvs
  have hother : ∀ j, s.stage (.member j) ≠ .idle →
      Function.update s.resolution i (some signal) j = s.resolution j := by
    intro j hj
    exact Function.update_of_ne (by rintro rfl; exact hj hidle) _ _
  obtain ⟨hpos, hclosing, hcalls⟩ := h.counting (t := .member i)
    (by rw [member_mem_threads]; have := h.started_le; omega) (by rw [hidle]; rfl)
  refine { h with
    resolved := ?_, ran := ?_, phase := .counting hpos hclosing hcalls, raiser := ?_ }
  · intro j hj
    by_cases hji : j = i
    · subst hji; exact hlt
    · simp only [Function.update_of_ne hji] at hj
      exact h.resolved j hj
  · intro j hj
    have hran := h.ran j hj
    unfold Ran at hran ⊢
    simp only [hother j hj]
    exact hran
  · intro e he
    obtain ⟨j, hres, hstage⟩ := h.raiser e he
    exact ⟨j, by rw [← hres]; exact hother j (by rw [hstage]; decide), hstage⟩

lemma callback_value_inv (h : Inv n s) {i : ℕ} {vs : List V}
    (hres : s.resolution i = some (.value vs)) (hidle : s.stage (.member i) = .idle) :
    Inv n (partialAllCallback s i (.value vs)) := by
  have hmem : .member i ∈ threads s.created := by
    have := h.resolved i (by rw [hres]; simp)
    have := h.started_le
    rw [member_mem_threads]
    omega
  have hc : (s.stage (.member i)).counts = true := by rw [hidle]; rfl
  obtain ⟨hpos, hclosing, hcalls⟩ := h.counting hmem hc
  have hassign : Inv n { s with boxes := Function.update s.boxes i (some vs) } := by
    refine { h with ran := fun j hj => ?_, phase := .counting hpos hclosing hcalls }
    have hji : j ≠ i := by rintro rfl; exact hj hidle
    have hran := h.ran j hj
    unfold Ran at hran ⊢
    simp only [Function.update_of_ne hji]
    exact hran
  refine enter_counting hassign hmem hc (by simp [hidle]) (by decide) rfl (by simp) ?_
  intro j hj
  obtain rfl : i = j := by simpa using hj
  exact ⟨vs, hres, by simp⟩

lemma Inv.calls_eq_nil (h : Inv n s) (hvalues : ∀ bs, .values bs ∉ s.calls)
    (hraised : s.raised = []) : s.calls = [] := by
  by_contra hne
  obtain ⟨c, hc⟩ := List.exists_mem_of_ne_nil _ hne
  cases c with
  | values bs => exact hvalues bs hc
  | exception e => exact h.thrown e hc hraised

lemma callOnce_exception (h : Inv n s) (hvalues : ∀ bs, .values bs ∉ s.calls) (e : Option E) :
    (s.callOnce (.exception e)).flag = true ∧
      (s.callOnce (.exception e)).calls = [.exception ((s.raised ++ [e]).head (by simp))] := by
  unfold State.callOnce
  cases hr : s.raised with
  | nil =>
    have hnil := h.calls_eq_nil hvalues hr
    have hflag : s.flag = false := by
      by_contra hf
      exact h.flag.1 (Bool.eq_true_of_not_eq_false hf) hnil
    simp [hflag, hnil]
  | cons e' rest =>
    have hcalls := h.first e' rest hr
    have hflag : s.flag = true := h.flag.2 (by rw [hcalls]; simp)
    simp [hflag, hcalls]

lemma callback_exception_inv (h : Inv n s) {i : ℕ} {e : Option E}
    (hres : s.resolution i = some (.exception e)) (hidle : s.stage (.member i) = .idle) :
    Inv n (partialAllCallback s i (.exception e)) := by
  have hmem : .member i ∈ threads s.created := by
    have := h.resolved i (by rw [hres]; simp)
    have := h.started_le
    rw [member_mem_threads]
    omega
  have hc : (s.stage (.member i)).counts = true := by rw [hidle]; rfl
  obtain ⟨hpos, hclosing, hcalls⟩ := h.counting hmem hc
  obtain ⟨hflag, honce⟩ := callOnce_exception h hcalls e
  have hframe : partialAllCallback s i (.exception e) =
      { s.enter (.member i) .raised with
        flag := (s.callOnce (.exception e)).flag, calls := (s.callOnce (.exception e)).calls,
        raised := s.raised ++ [e] } := by
    unfold partialAllCallback State.callOnce
    split_ifs <;> rfl
  rw [hframe, hflag, honce]
  have hself := s.enter_stage_self (.member i) .raised
  have hother := fun {u} (hu : u ≠ .member i) => s.enter_stage_of_ne hu .raised
  refine { h with
    dispatched := dispatched_enter (t := .member i) (g := .raised) h (by simp),
    dispatcher_ne := ?_, ran := fun j hj => ?_,
    left_eq := h.left_eq.trans (tally_update (by rw [hc]; rfl)).symm, flag := by simp,
    phase := .counting hpos (fun u => ?_) (by simp), first := fun e' rest he => ?_,
    thrown := fun _ _ => by simp, raiser := fun e' he' => ?_ }
  · rw [hother (by simp)]
    exact h.dispatcher_ne
  · by_cases hji : Thread.member j = .member i
    · obtain rfl : j = i := by simpa using hji
      exact Or.inl ⟨hself, e, hres, by simp⟩
    · simp only [hother hji] at hj
      rcases h.ran j hj with ⟨hr, e', he', hmem'⟩ | ⟨hr, hbox⟩
      · exact Or.inl ⟨(hother hji).trans hr, e', he', List.mem_append_left _ hmem'⟩
      · exact Or.inr ⟨by simpa only [hother hji] using hr, hbox⟩
  · by_cases hu : u = .member i
    · subst hu
      simp only [hself]
      rfl
    · simp only [hother hu]
      exact hclosing u
  · simp only at he
    simp [he]
  · rcases List.mem_append.1 he' with he' | he'
    · obtain ⟨j, hj, hstage⟩ := h.raiser e' he'
      by_cases hji : Thread.member j = .member i
      · exact ⟨j, hj, by simp only [hji, hself]⟩
      · exact ⟨j, hj, (hother hji).trans hstage⟩
    · obtain rfl : e' = e := by simpa using he'
      exact ⟨i, hres, hself⟩

end preservation

end Continuable.All
