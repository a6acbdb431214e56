import Continuable.WaitRelaxed

/-!
What holds while `wait_relaxed` runs, and the steps of the waiter.

There is one ownership token: an unlocker holds it, a call of `unlock` has taken it, or it is
spent. The mutex keeps the steps of that call and the test of the flag by the waiter apart.
-/

namespace Continuable.WaitRelaxed

open Schedule

variable {V E : Type}

namespace State

/-- The result was not written and the flag is not set. -/
structure Untouched (s : State V E) : Prop where
  ready : s.ready = false
  writes : writes s.log = []
  readies : readies s.log = []

/-- The result was written. -/
structure Written (s : State V E) : Prop where
  result : s.syncResult = s.outcome
  writes : writes s.log = [s.outcome]

/-- The result was written and the flag is set. -/
structure Set (s : State V E) : Prop extends Written s where
  ready : s.ready = true
  readies : readies s.log = [()]

/-- The mutex is free or with the waiter. -/
def Outside (s : State V E) : Prop := s.cv.holder = none ∨ s.cv.holder = some .waiter

/-- A call of `unlock` is here. -/
def StageOk (s : State V E) (i : ℕ) : Stage V E → Prop
  | .lock result => s.Untouched ∧ result = s.outcome ∧ s.Outside
  | .write result => s.Untouched ∧ result = s.outcome ∧ s.cv.holder = some (.unlocker i)
  | .store => s.Written ∧ s.ready = false ∧ readies s.log = [] ∧
      s.cv.holder = some (.unlocker i)
  | .notify => s.Set ∧ s.cv.holder = some (.unlocker i)
  | .unlock => s.Set ∧ s.cv.blocked .waiter = false ∧ s.cv.holder = some (.unlocker i)

/-- Where the ownership is. -/
inductive Token (s : State V E) : Prop
  | held (i : ℕ) (hi : (s.unlockers i).alive = true ∧ (s.unlockers i).acquired = true)
      (hacquired : ∀ j ≠ i, (s.unlockers j).acquired = false)
      (hcall : ∀ j, (s.unlockers j).call = none) (huntouched : s.Untouched)
      (hinvoked : s.invoked = none) (houtside : s.Outside)
  | calling (i : ℕ) (stage : Stage V E) (hi : (s.unlockers i).alive = true)
      (hstage : (s.unlockers i).call = some stage)
      (hacquired : ∀ j, (s.unlockers j).acquired = false)
      (hcall : ∀ j ≠ i, (s.unlockers j).call = none) (hok : s.StageOk i stage)
  | spent (hacquired : ∀ j, (s.unlockers j).acquired = false)
      (hcall : ∀ j, (s.unlockers j).call = none) (hset : s.Set)
      (hblocked : s.cv.blocked .waiter = false) (houtside : s.Outside)

/-- The waiter is here. -/
def WaiterOk (s : State V E) : Prop :=
  match s.waiter with
  | .starting | .lock => s.cv.holder ≠ some .waiter ∧ s.cv.blocked .waiter = false
  | .check | .test => s.cv.holder = some .waiter ∧ s.cv.blocked .waiter = false
  | .block => s.cv.holder = some .waiter ∧ s.cv.blocked .waiter = false ∧ s.ready = false
  | .waiting => s.cv.holder ≠ some .waiter
  | .read => s.cv.holder = some .waiter ∧ s.cv.blocked .waiter = false ∧ s.ready = true
  | .unlock result => s.cv.holder = some .waiter ∧ s.cv.blocked .waiter = false ∧
      s.ready = true ∧ s.syncResult = result
  | .returned result => s.cv.holder = none ∧ s.cv.blocked .waiter = false ∧ s.ready = true ∧
      s.syncResult = result

/-- The return of the waiter is the last thing that happened. -/
def LogOk (s : State V E) : Prop :=
  match s.waiter with
  | .returned result => ∃ before, s.log = before ++ [.returned result] ∧
      ∀ r, .returned r ∉ before
  | _ => ∀ r, .returned r ∉ s.log

structure Inv (s : State V E) : Prop where
  token : s.Token
  waiter : s.WaiterOk
  log : s.LogOk
  sound : .violated ∉ s.log

lemma init_inv : Inv (init : State V E) where
  token := by
    refine .held 0 ⟨rfl, rfl⟩ (fun j hj => ?_) (fun j => ?_) ⟨rfl, rfl, rfl⟩ rfl (.inl rfl)
    · simp [init, hj]
    · by_cases hj : j = 0 <;> simp [init, hj]
  waiter := by simp [WaiterOk, init]
  log := by simp [LogOk, init]
  sound := by simp [init]

/-! ### The waiter -/

section waiter

variable {s s' : State V E}

/-- A step that leaves the result and the flag alone. -/
structure SameCell (s s' : State V E) : Prop where
  invoked : s'.invoked = s.invoked
  ready : s'.ready = s.ready
  result : s'.syncResult = s.syncResult
  writes : WaitRelaxed.writes s'.log = WaitRelaxed.writes s.log
  readies : WaitRelaxed.readies s'.log = WaitRelaxed.readies s.log

lemma SameCell.outcome (h : SameCell s s') : s'.outcome = s.outcome := by
  rw [State.outcome, State.outcome, h.invoked]

lemma SameCell.untouched (h : SameCell s s') (hs : s.Untouched) : s'.Untouched :=
  ⟨h.ready.trans hs.ready, h.writes.trans hs.writes, h.readies.trans hs.readies⟩

lemma SameCell.written (h : SameCell s s') (hs : s.Written) : s'.Written :=
  ⟨by rw [h.result, h.outcome, hs.result], by rw [h.writes, h.outcome, hs.writes]⟩

lemma SameCell.set (h : SameCell s s') (hs : s.Set) : s'.Set :=
  ⟨h.written hs.toWritten, h.ready.trans hs.ready, h.readies.trans hs.readies⟩

lemma SameCell.stage (h : SameCell s s') (houtside : s.Outside → s'.Outside)
    (hheld : ∀ i, s.cv.holder = some (.unlocker i) → s'.cv.holder = some (.unlocker i))
    (hawake : s.cv.blocked .waiter = false → s.ready = true → s'.cv.blocked .waiter = false)
    {i : ℕ} {stage : Stage V E} (hok : s.StageOk i stage) : s'.StageOk i stage := by
  cases stage with
  | lock result =>
    obtain ⟨hu, hr, ho⟩ := hok
    exact ⟨h.untouched hu, hr.trans h.outcome.symm, houtside ho⟩
  | write result =>
    obtain ⟨hu, hr, hh⟩ := hok
    exact ⟨h.untouched hu, hr.trans h.outcome.symm, hheld i hh⟩
  | store =>
    obtain ⟨hw, hr, hre, hh⟩ := hok
    exact ⟨h.written hw, h.ready.trans hr, h.readies.trans hre, hheld i hh⟩
  | notify =>
    obtain ⟨hs, hh⟩ := hok
    exact ⟨h.set hs, hheld i hh⟩
  | unlock =>
    obtain ⟨hs, hb, hh⟩ := hok
    exact ⟨h.set hs, hawake hb hs.ready, hheld i hh⟩

/-- The waiter takes the mutex when it is free, and it blocks only while the flag is not set. -/
lemma token_of_waiter (h : s.Token) (hunlockers : s'.unlockers = s.unlockers)
    (hsame : SameCell s s') (hholder : s'.cv.holder = s.cv.holder ∨ (s.Outside ∧ s'.Outside))
    (hblocked : s'.cv.blocked .waiter = true → s.cv.blocked .waiter = true ∨ s.ready = false) :
    s'.Token := by
  have houtside : s.Outside → s'.Outside := by
    intro ho
    rcases hholder with hh | ⟨-, ho'⟩
    · rw [Outside, hh]
      exact ho
    · exact ho'
  have hheld : ∀ i, s.cv.holder = some (.unlocker i) → s'.cv.holder = some (.unlocker i) := by
    intro i hi
    rcases hholder with hh | ⟨ho, -⟩
    · rw [hh, hi]
    · rcases ho with ho | ho <;> simp [hi] at ho
  have hawake : s.cv.blocked .waiter = false → s.ready = true → s'.cv.blocked .waiter = false := by
    intro hb hr
    by_contra hb'
    rcases hblocked (Bool.eq_true_of_not_eq_false hb') with hb'' | hr'
    · rw [hb] at hb''
      cases hb''
    · rw [hr] at hr'
      cases hr'
  cases h with
  | held i hi hacquired hcall huntouched hinvoked ho =>
    rw [← hunlockers] at hi hacquired hcall
    exact .held i hi hacquired hcall (hsame.untouched huntouched) (hsame.invoked.trans hinvoked)
      (houtside ho)
  | spent hacquired hcall hset hb ho =>
    rw [← hunlockers] at hacquired hcall
    exact .spent hacquired hcall (hsame.set hset) (hawake hb hset.ready) (houtside ho)
  | calling i stage hi hstage hacquired hcall hok =>
    rw [← hunlockers] at hi hstage hacquired hcall
    exact .calling i stage hi hstage hacquired hcall (hsame.stage houtside hheld hawake hok)

lemma sameCell_of_waiter (s : State V E) (cv : Monitor Thread) (waiter : Waiter V E) :
    SameCell s { s with cv, waiter } :=
  ⟨rfl, rfl, rfl, rfl, rfl⟩

theorem waiterStep_inv (h : Inv s) : Inv s.waiterStep := by
  have hwaiter := h.waiter
  have hlog := h.log
  unfold waiterStep
  cases hw : s.waiter with
  | starting =>
    simp only [WaiterOk, LogOk, hw] at hwaiter hlog
    exact ⟨token_of_waiter h.token rfl (sameCell_of_waiter s _ _) (.inl rfl) .inl, hwaiter, hlog,
      h.sound⟩
  | lock =>
    simp only [WaiterOk, LogOk, hw] at hwaiter hlog
    simp only
    split_ifs with hfree
    · exact ⟨token_of_waiter h.token rfl (sameCell_of_waiter s _ _)
        (.inr ⟨.inl hfree, .inr rfl⟩) .inl,
        ⟨rfl, hwaiter.2⟩, hlog, h.sound⟩
    · exact h
  | check =>
    simp only [WaiterOk, LogOk, hw] at hwaiter hlog
    refine ⟨token_of_waiter h.token rfl (sameCell_of_waiter s _ _) (.inl rfl) .inl, ?_, ?_, h.sound⟩
    · cases s.ready <;> simp [WaiterOk, hwaiter]
    · cases hr : s.ready <;> simpa [LogOk, hr] using hlog
  | test =>
    simp only [WaiterOk, LogOk, hw] at hwaiter hlog
    refine ⟨token_of_waiter h.token rfl (sameCell_of_waiter s _ _) (.inl rfl) .inl, ?_, ?_, h.sound⟩
    · cases s.ready <;> simp [WaiterOk, hwaiter]
    · cases hr : s.ready <;> simpa [LogOk, hr] using hlog
  | block =>
    simp only [WaiterOk, LogOk, hw] at hwaiter hlog
    obtain ⟨hholder, -, hready⟩ := hwaiter
    exact ⟨token_of_waiter h.token rfl (sameCell_of_waiter s _ _) (.inr ⟨.inr hholder, .inl rfl⟩)
      fun _ => .inr hready, by simp [WaiterOk], hlog, h.sound⟩
  | waiting =>
    simp only [LogOk, hw] at hlog
    simp only
    split_ifs with hwoken
    · exact ⟨token_of_waiter h.token rfl (sameCell_of_waiter s _ _)
        (.inr ⟨.inl hwoken.2, .inr rfl⟩) .inl, ⟨rfl, hwoken.1⟩, hlog, h.sound⟩
    · exact h
  | read =>
    simp only [WaiterOk, LogOk, hw] at hwaiter hlog
    obtain ⟨hholder, hblocked, hready⟩ := hwaiter
    exact ⟨token_of_waiter h.token rfl (sameCell_of_waiter s _ _) (.inl rfl) .inl,
      ⟨hholder, hblocked, hready, rfl⟩, hlog, h.sound⟩
  | unlock result =>
    simp only [WaiterOk, LogOk, hw] at hwaiter hlog
    obtain ⟨hholder, hblocked, hready, hresult⟩ := hwaiter
    have hsame : SameCell s ({ s with cv := s.cv.unlock, waiter := .returned result }.record
        [.returned result]) := by
      refine ⟨rfl, rfl, rfl, ?_, ?_⟩
      · rw [record, writes_append]
        exact List.append_nil _
      · rw [record, readies_append]
        exact List.append_nil _
    exact ⟨token_of_waiter h.token rfl hsame (.inr ⟨.inr hholder, .inl rfl⟩) .inl,
      ⟨rfl, hblocked, hready, hresult⟩, ⟨s.log, rfl, hlog⟩, by simpa [record] using h.sound⟩
  | returned result => exact h

theorem wake_inv (h : Inv s) : Inv s.wake := by
  cases hw : s.waiter with
  | waiting =>
    have hwake : s.wake = { s with cv := s.cv.wake .waiter } := by rw [wake, hw]
    have hwaiter := h.waiter
    have hlog := h.log
    simp only [WaiterOk, LogOk, hw] at hwaiter hlog
    rw [hwake]
    exact ⟨token_of_waiter h.token rfl ⟨rfl, rfl, rfl, rfl, rfl⟩ (.inl rfl)
      fun hb => by simp at hb, by simpa [WaiterOk, hw] using hwaiter,
      by simpa [LogOk, hw] using hlog, h.sound⟩
  | _ =>
    have hwake : s.wake = s := by rw [wake, hw]
    rw [hwake]
    exact h

end waiter

end State

end Continuable.WaitRelaxed
