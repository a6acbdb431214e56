import Continuable.WaitAndUnpack

/-!
The waiter can always return.

From every state that a run of `wait` comes to, the chain can go on with the unlocker, the call of
`unlock` gets the mutex and runs to its end, and the waiter finds the flag set.
-/

namespace Continuable.WaitAndUnpack

open Schedule ChainDestruction

variable {V E : Type}

/-- How far the waiter is from its return. -/
def rank : WaitRelaxed.Waiter V E → ℕ
  | .starting => 7
  | .lock => 6
  | .check => 5
  | .waiting => 5
  | .test => 4
  | .block => 3
  | .read => 2
  | .unlock _ => 1
  | .returned _ => 0

/-- How far a call of `unlock` is from its end. -/
def left : WaitRelaxed.Stage V E → ℕ
  | .lock _ => 4
  | .write _ => 3
  | .store => 2
  | .notify => 1
  | .unlock => 0

/-- No unlocker has the ownership and none is in a call that has taken it. -/
def Idle (w : WaitRelaxed.State V E) : Prop :=
  ∀ i, (w.unlockers i).acquired = false ∧ (w.unlockers i).call = none

section frame

variable {w : WaitRelaxed.State V E}

lemma spent_of_idle (h : w.Token) (hidle : Idle w) :
    w.Set ∧ w.cv.blocked .waiter = false ∧ w.Outside := by
  rcases h with ⟨i, hi, _⟩ | ⟨i, stage, _, hstage, _⟩ | ⟨_, _, hset, hb, ho⟩
  · rw [(hidle i).1] at hi
    cases hi.2
  · rw [(hidle i).2] at hstage
    cases hstage
  · exact ⟨hset, hb, ho⟩

/-- With the flag set and the mutex to be had, the waiter goes on. -/
lemma waiterStep_rank (h : w.Inv) (hidle : Idle w) (hw : ∀ r, w.waiter ≠ .returned r) :
    rank w.waiterStep.waiter < rank w.waiter := by
  obtain ⟨hset, hblocked, houtside⟩ := spent_of_idle h.token hidle
  have hwaiter := h.waiter
  cases hs : w.waiter with
  | returned r => exact absurd hs (hw r)
  | block =>
    simp only [WaitRelaxed.State.WaiterOk, hs, hset.ready] at hwaiter
    cases hwaiter.2.2
  | lock =>
    simp only [WaitRelaxed.State.WaiterOk, hs] at hwaiter
    have hfree : w.cv.holder = none := houtside.resolve_right hwaiter.1
    simp [WaitRelaxed.State.waiterStep, hs, hfree, rank]
  | waiting =>
    simp only [WaitRelaxed.State.WaiterOk, hs] at hwaiter
    have hfree : w.cv.holder = none := houtside.resolve_right hwaiter
    simp [WaitRelaxed.State.waiterStep, hs, hfree, hblocked, rank]
  | check => simp [WaitRelaxed.State.waiterStep, hs, hset.ready, rank]
  | test => simp [WaitRelaxed.State.waiterStep, hs, hset.ready, rank]
  | starting => simp [WaitRelaxed.State.waiterStep, hs, rank]
  | read => simp [WaitRelaxed.State.waiterStep, hs, rank]
  | unlock r => simp [WaitRelaxed.State.waiterStep, hs, rank, WaitRelaxed.State.record]

/-- With the flag not set, the waiter that has the mutex goes on until it blocks. -/
lemma waiterStep_releases (h : w.Inv) (hready : w.ready = false)
    (hheld : w.cv.holder = some .waiter) :
    w.waiterStep.cv.holder ≠ some .waiter ∨ rank w.waiterStep.waiter < rank w.waiter := by
  have hwaiter := h.waiter
  cases hs : w.waiter with
  | block => exact .inl (by simp [WaitRelaxed.State.waiterStep, hs])
  | check => exact .inr (by simp [WaitRelaxed.State.waiterStep, hs, hready, rank])
  | test => exact .inr (by simp [WaitRelaxed.State.waiterStep, hs, hready, rank])
  | _ => simp [WaitRelaxed.State.WaiterOk, hs, hready, hheld] at hwaiter

lemma unlockerStep_left (h : w.Token) {i : ℕ} {stage : WaitRelaxed.Stage V E}
    (hc : (w.unlockers i).call = some stage) (hholder : w.cv.holder ≠ some .waiter) :
    (w.unlockerStep i).cv.holder ≠ some .waiter ∧
      ∃ u, (w.unlockerStep i).unlockers = Function.update w.unlockers i u ∧
        (u.call = none ∨ ∃ next, u.call = some next ∧ left next < left stage) := by
  obtain ⟨-, -, -, hok⟩ := WaitRelaxed.State.calling_of_call h hc
  cases stage with
  | lock result =>
    have hfree : w.cv.holder = none := hok.2.2.resolve_right hholder
    simp only [WaitRelaxed.State.unlockerStep, hc, if_pos hfree]
    exact ⟨by simp [WaitRelaxed.State.record], _, rfl, .inr ⟨_, rfl, by simp [left]⟩⟩
  | write result =>
    simp only [WaitRelaxed.State.unlockerStep, hc]
    exact ⟨hholder, _, rfl, .inr ⟨_, rfl, by simp [left]⟩⟩
  | store =>
    simp only [WaitRelaxed.State.unlockerStep, hc]
    exact ⟨hholder, _, rfl, .inr ⟨_, rfl, by simp [left]⟩⟩
  | notify =>
    simp only [WaitRelaxed.State.unlockerStep, hc]
    exact ⟨hholder, _, rfl, .inr ⟨_, rfl, by simp [left]⟩⟩
  | unlock =>
    simp only [WaitRelaxed.State.unlockerStep, hc]
    exact ⟨by simp [WaitRelaxed.State.record], _, rfl, .inl rfl⟩

end frame

/-- The waiter has returned. -/
def Returned (s : State V E) : Prop := ∃ result, s.wait.waiter = .returned result

section progress

variable {o : Outcome V E} {s : State V E}

lemma reaches_of_idle (h : Inv o s) (hidle : Idle s.wait) :
    Reaches step (· ≠ .wake) Returned s := by
  generalize hn : rank s.wait.waiter = n
  induction n using Nat.strong_induction_on generalizing s with
  | _ n ih =>
    by_cases hw : ∀ r, s.wait.waiter ≠ .returned r
    · have hlt : rank s.wait.waiterStep.waiter < n := hn ▸ waiterStep_rank h.wait hidle hw
      refine .of_step .waiter (by simp) (ih _ hlt (step_inv h .waiter) (fun i => ?_) rfl)
      simp only [step, (waiterStep_same s.wait).1]
      exact hidle i
    · push Not at hw
      exact .now hw

lemma reaches_of_calling (h : Inv o s) {i : ℕ} {stage : WaitRelaxed.Stage V E}
    (hc : (s.wait.unlockers i).call = some stage) (hholder : s.wait.cv.holder ≠ some .waiter) :
    Reaches step (· ≠ .wake) Returned s := by
  generalize hn : left stage = n
  induction n using Nat.strong_induction_on generalizing s stage with
  | _ n ih =>
    obtain ⟨hholder', u, hset, hu⟩ := unlockerStep_left h.wait.token hc hholder
    have hinv := step_inv h (.unlocker i)
    refine .of_step (.unlocker i) (by simp) ?_
    rcases hu with hnone | ⟨next, hnext, hlt⟩
    · -- it was the last step
      obtain ⟨-, ha, hcall, -⟩ := WaitRelaxed.State.calling_of_call h.wait.token hc
      have hnot : ¬ Held s.wait := fun ⟨j, hj⟩ => by
        rw [ha j] at hj
        cases hj
      refine reaches_of_idle hinv fun j => ⟨?_, ?_⟩
      · exact Bool.eq_false_iff.2 fun hj => hnot ((unlockerStep_keeps s.wait i).held.1 ⟨j, hj⟩)
      · simp only [step, hset]
        by_cases hji : j = i
        · rw [hji, Function.update_self, hnone]
        · rw [Function.update_of_ne hji, hcall j hji]
    · refine ih (left next) (hn ▸ hlt) hinv ?_ hholder' rfl
      simp only [step, hset, Function.update_self, hnext]

lemma reaches_of_call (h : Inv o s) {i : ℕ} {stage : WaitRelaxed.Stage V E}
    (hc : (s.wait.unlockers i).call = some stage) : Reaches step (· ≠ .wake) Returned s := by
  generalize hn : rank s.wait.waiter = n
  induction n using Nat.strong_induction_on generalizing s with
  | _ n ih =>
    by_cases hheld : s.wait.cv.holder = some .waiter
    · obtain ⟨-, -, -, hok⟩ := WaitRelaxed.State.calling_of_call h.wait.token hc
      have hready : s.wait.ready = false := by
        cases stage with
        | lock result => exact hok.1.ready
        | write result => exact hok.1.ready
        | store => exact hok.2.1
        | notify => exact absurd (hheld.symm.trans hok.2) (by simp)
        | unlock => exact absurd (hheld.symm.trans hok.2.2) (by simp)
      have hcall : ((step s .waiter).wait.unlockers i).call = some stage := by
        simp only [step, (waiterStep_same s.wait).1]
        exact hc
      refine .of_step .waiter (by simp) ?_
      rcases waiterStep_releases h.wait hready hheld with hfree | hlt
      · exact reaches_of_calling (step_inv h .waiter) hcall hfree
      · exact ih _ (hn ▸ hlt) (step_inv h .waiter) hcall rfl
    · exact reaches_of_calling h hc hheld

/-- **The waiter is never stuck**, and needs no spurious wakeup to go on. -/
theorem reaches_returned (h : Inv o s) : Reaches step (· ≠ .wake) Returned s := by
  rcases h.wait.token with ⟨i, hi, -⟩ | ⟨i, stage, -, hstage, -⟩ | ⟨ha, hcall, -⟩
  · cases h.phase with
    | after hheld _ _ => exact absurd ⟨i, hi.2⟩ hheld
    | before _ hpending =>
      have hentered : ((step s (.use i)).wait.unlockers i).call =
          some (.lock (resultOf o)) := by
        rw [step, use_eq h.wait.token hi.2 hpending]
        simp [WaitRelaxed.State.set]
      exact .of_step (.use i) (by simp) (reaches_of_call (step_inv h (.use i)) hentered)
  · exact reaches_of_call h hstage
  · exact reaches_of_idle h fun i => ⟨ha i, hcall i⟩

end progress

lemma exists_waitAndUnpack (b : ContinuableBase V E) (schedule : List Action) :
    ∃ more, (∀ a ∈ more, a ≠ .wake) ∧
      waitAndUnpack b (schedule ++ more) = some (unpacked (resultOf b.outcome)) := by
  obtain ⟨more, hmore, result, hreturned⟩ := reaches_returned (runWait_inv b schedule)
  have hwaiter : (runWait b (schedule ++ more)).wait.waiter = .returned result := by
    rw [runWait, run_append]
    exact hreturned
  have hsome : ∃ x, waitAndUnpack b (schedule ++ more) = some x := by
    unfold waitAndUnpack waitRelaxed
    by_cases hready : b.isReady = true
    · obtain ⟨r, hunpack, -⟩ := ContinuableBase.unpack_of_ready hready
      exact ⟨unpacked r, by rw [if_pos hready, hunpack]; rfl⟩
    · exact ⟨unpacked result, by rw [if_neg hready, hwaiter]; rfl⟩
  obtain ⟨x, hx⟩ := hsome
  exact ⟨more, hmore, hx.trans (congrArg some (waitAndUnpack_of_some b _ hx))⟩

end Continuable.WaitAndUnpack
