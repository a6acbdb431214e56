import Continuable.WaitRelaxedUnlockers

/-!
Runs of `wait_relaxed`.
-/

namespace Continuable.WaitRelaxed

open Schedule

variable {V E : Type}

namespace State

section behaviour

variable {s : State V E}

/-- The result is written before the flag is set, and the waiter is notified after that. -/
lemma cell_of_token (h : s.Token) :
    s.Untouched ∨
      (s.Written ∧ s.ready = false ∧ readies s.log = []) ∨
      (s.Set ∧ ((∀ i, (s.unlockers i).call ≠ some .notify) →
        s.cv.blocked .waiter = false)) := by
  rcases h with ⟨_, _, _, _, hu, _⟩ | ⟨i, stage, _, hstage, _, _, hok⟩ | ⟨_, _, hset, hb, _⟩
  · exact .inl hu
  · cases stage with
    | lock result => exact .inl hok.1
    | write result => exact .inl hok.1
    | store => exact .inr (.inl ⟨hok.1, hok.2.1, hok.2.2.1⟩)
    | notify => exact .inr (.inr ⟨hok.1, fun hn => absurd hstage (hn i)⟩)
    | unlock => exact .inr (.inr ⟨hok.1, fun _ => hok.2.1⟩)
  · exact .inr (.inr ⟨hset, fun _ => hb⟩)

lemma writes_of_token (h : s.Token) : writes s.log = [] ∨ writes s.log = [s.outcome] := by
  rcases cell_of_token h with hu | ⟨hw, -⟩ | ⟨hset, -⟩
  · exact .inl hu.writes
  · exact .inr hw.writes
  · exact .inr hset.writes

lemma readies_of_token (h : s.Token) : readies s.log = [] ∨ readies s.log = [()] := by
  rcases cell_of_token h with hu | ⟨-, -, hreadies⟩ | ⟨hset, -⟩
  · exact .inl hu.readies
  · exact .inl hreadies
  · exact .inr hset.readies

lemma set_of_ready (h : s.Token) (hr : s.ready = true) : s.Set := by
  rcases cell_of_token h with hu | ⟨-, hready, -⟩ | ⟨hset, -⟩
  · exact absurd hr (by simp [hu.ready])
  · exact absurd hr (by simp [hready])
  · exact hset

lemma awake_of_ready (h : s.Token) (hr : s.ready = true)
    (hn : ∀ i, (s.unlockers i).call ≠ some .notify) : s.cv.blocked .waiter = false := by
  rcases cell_of_token h with hu | ⟨-, hready, -⟩ | ⟨-, hawake⟩
  · exact absurd hr (by simp [hu.ready])
  · exact absurd hr (by simp [hready])
  · exact hawake hn

lemma calls_of_returned (h : Inv s) {result : Result V E} (hw : s.waiter = .returned result)
    (i : ℕ) : (s.unlockers i).call = none := by
  have hwaiter := h.waiter
  simp only [WaiterOk, hw] at hwaiter
  obtain ⟨hholder, -, hready, -⟩ := hwaiter
  rcases h.token with ⟨_, _, _, hcall, _⟩ | ⟨_, stage, _, _, _, _, hok⟩ | ⟨_, hcall, _⟩
  · exact hcall i
  · cases stage with
    | lock result => exact absurd hready (by simp [hok.1.ready])
    | write result => exact absurd hready (by simp [hok.1.ready])
    | store => exact absurd hready (by simp [hok.2.1])
    | notify => exact absurd hholder (by simp [hok.2])
    | unlock => exact absurd hholder (by simp [hok.2.2])
  · exact hcall i

lemma returned_spec (h : Inv s) {before after : List (Event V E)} {result : Result V E}
    (hlog : s.log = before ++ .returned result :: after) :
    after = [] ∧ writes before = [result] ∧ readies before = [()] := by
  have hlast := h.log
  have hmem : .returned result ∈ s.log := by rw [hlog]; simp
  cases hw : s.waiter with
  | returned r =>
    simp only [LogOk, hw] at hlast
    obtain ⟨all, hall, hnone⟩ := hlast
    have hwaiter := h.waiter
    simp only [WaiterOk, hw] at hwaiter
    have hset := set_of_ready h.token hwaiter.2.2.1
    obtain ⟨rfl, hsplit⟩ : after = [] ∧ before ++ [.returned result] = all ++ [.returned r] := by
      rw [hall] at hlog
      rcases List.eq_nil_or_concat after with rfl | ⟨after, e, rfl⟩
      · exact ⟨rfl, hlog.symm⟩
      · rw [List.concat_eq_append, ← List.cons_append, ← List.append_assoc] at hlog
        obtain ⟨hpre, -⟩ := List.append_inj' hlog rfl
        exact absurd (by rw [hpre]; simp) (hnone result)
    obtain ⟨rfl, heq⟩ := List.append_inj' hsplit rfl
    obtain rfl : result = r := by simpa using heq
    have hwrites := hset.writes
    have hreadies := hset.readies
    rw [hlog, writes_append, ← hset.result, hwaiter.2.2.2] at hwrites
    rw [hlog, readies_append] at hreadies
    exact ⟨rfl, (List.append_nil _).symm.trans hwrites, (List.append_nil _).symm.trans hreadies⟩
  | _ =>
    simp only [LogOk, hw] at hlast
    exact absurd hmem (hlast result)

lemma waiter_of_fixed (h : s.WaiterOk) (hfixed : s.waiterStep = s) :
    (∃ result, s.waiter = .returned result) ∨
      (s.cv.holder ≠ some .waiter ∧ (s.cv.holder = none → s.cv.blocked .waiter = true)) := by
  have hsame : s.waiterStep.waiter = s.waiter := by rw [hfixed]
  cases hw : s.waiter with
  | returned result => exact .inl ⟨result, rfl⟩
  | lock =>
    simp only [WaiterOk, hw] at h
    refine .inr ⟨h.1, fun hfree => ?_⟩
    simp [waiterStep, hw, hfree] at hsame
  | waiting =>
    simp only [WaiterOk, hw] at h
    refine .inr ⟨h, fun hfree => ?_⟩
    by_contra hb
    have hwoken : s.cv.blocked .waiter = false := eq_false_of_ne_true hb
    simp [waiterStep, hw, hfree, hwoken] at hsame
  | check => cases hr : s.ready <;> simp [waiterStep, hw, hr] at hsame
  | test => cases hr : s.ready <;> simp [waiterStep, hw, hr] at hsame
  | starting => simp [waiterStep, hw] at hsame
  | block => simp [waiterStep, hw] at hsame
  | read => simp [waiterStep, hw] at hsame
  | unlock result => simp [waiterStep, hw, record] at hsame

lemma returned_of_fixed (h : Inv s) (hfixed : ∀ a, a ≠ .wake → step s a = s) :
    s.waiter = .returned s.outcome := by
  have hwaiter := waiter_of_fixed h.waiter (hfixed .waiter (by simp))
  have hcalls : ∀ i, (step s (.unlocker i)).unlockers i = s.unlockers i := fun i => by
    rw [hfixed _ (by simp)]
  rcases h.token with ⟨i, hi, _, hcall, _⟩ | ⟨i, stage, _, hstage, _, _, hok⟩ |
    ⟨_, _, hset, hb, ho⟩
  · -- the unlocker can be destroyed
    have hdestroy : ((step s (.destroy i)).unlockers i).call = (s.unlockers i).call := by
      rw [hfixed _ (by simp)]
    simp [step, destroy, hi, hcall i, State.set] at hdestroy
  · have hcall := congrArg Unlocker.call (hcalls i)
    cases stage with
    | lock result =>
      by_cases hfree : s.cv.holder = none
      · simp [step, unlockerStep, hstage, hfree, record, State.set] at hcall
      · have hheld : s.cv.holder = some .waiter := hok.2.2.resolve_left hfree
        rcases hwaiter with ⟨r, hr⟩ | ⟨hnot, -⟩
        · have hw := h.waiter
          simp only [WaiterOk, hr] at hw
          exact absurd hw.1 hfree
        · exact absurd hheld hnot
    | write result => simp [step, unlockerStep, hstage, record, State.set] at hcall
    | store => simp [step, unlockerStep, hstage, record, State.set] at hcall
    | notify => simp [step, unlockerStep, hstage, record, State.set] at hcall
    | unlock => simp [step, unlockerStep, hstage, record, State.set] at hcall
  · rcases hwaiter with ⟨r, hr⟩ | ⟨hnot, hblocked⟩
    · have hw := h.waiter
      simp only [WaiterOk, hr] at hw
      rw [hr, ← hset.result, hw.2.2.2]
    · have hfree : s.cv.holder = none := ho.resolve_right hnot
      rw [hb] at hblocked
      cases hblocked hfree

lemma destroyed_spec (h : s.Token) (hdead : ∀ i, (s.unlockers i).alive = false) :
    writes s.log = [s.outcome] ∧ (readies s.log).length = 1 := by
  rcases h with ⟨i, hi, _⟩ | ⟨i, _, hi, _⟩ | ⟨_, _, hset, _⟩
  · exact absurd hi.1 (by simp [hdead i])
  · exact absurd hi (by simp [hdead i])
  · exact ⟨hset.writes, by rw [hset.readies]; rfl⟩

end behaviour

end State

theorem runWaitRelaxed_behaves (schedule : List (Action V E)) :
    (runWaitRelaxed schedule).Behaves := by
  have h := State.runWaitRelaxed_inv schedule
  generalize runWaitRelaxed schedule = s at h
  have hreadies := State.readies_of_token h.token
  refine ⟨⟨State.writes_of_token h.token, ?_⟩, State.destroyed_spec h.token,
    fun before result after hlog => State.returned_spec h hlog, fun result hw => ?_,
    fun result hw => State.calls_of_returned h hw, State.awake_of_ready h.token, h.sound,
    State.returned_of_fixed h⟩
  · rcases hreadies with hr | hr <;> simp [hr]
  · have hlog := h.log
    simp only [State.LogOk, hw] at hlog
    obtain ⟨before, hall, -⟩ := hlog
    rw [hall]
    simp

end Continuable.WaitRelaxed
