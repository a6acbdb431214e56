import Continuable.WaitRelaxedInvariant

/-!
The steps of the unlockers that `wait_relaxed` submits.

A call of `unlock` takes the ownership token with it, and has the mutex from its first access to
the stack of the waiter to its last one.
-/

namespace Continuable.WaitRelaxed

open Schedule

variable {V E : Type}

namespace State

section unlockers

variable {s s' : State V E}

/-- A step of an unlocker that does not touch the stack of the waiter. -/
structure SameStack (s s' : State V E) : Prop where
  cv : s'.cv = s.cv
  ready : s'.ready = s.ready
  result : s'.syncResult = s.syncResult
  waiter : s'.waiter = s.waiter
  log : s'.log = s.log

lemma inv_of_sameStack (h : Inv s) (hsame : SameStack s s') (htoken : s'.Token) : Inv s' := by
  refine ⟨htoken, ?_, ?_, by rw [hsame.log]; exact h.sound⟩
  · have hw := h.waiter
    rw [WaiterOk] at hw ⊢
    rw [hsame.cv, hsame.ready, hsame.result, hsame.waiter]
    exact hw
  · have hl := h.log
    rw [LogOk] at hl ⊢
    rw [hsame.log, hsame.waiter]
    exact hl

lemma SameStack.cell (h : SameStack s s') (hinvoked : s'.invoked = s.invoked) : SameCell s s' :=
  ⟨hinvoked, h.ready, h.result, by rw [h.log], by rw [h.log]⟩

lemma SameStack.outside (h : SameStack s s') (ho : s.Outside) : s'.Outside := by
  rw [Outside, h.cv]
  exact ho

lemma SameStack.stage (h : SameStack s s') (hinvoked : s'.invoked = s.invoked) {i : ℕ}
    {stage : Stage V E} (hok : s.StageOk i stage) : s'.StageOk i stage :=
  (h.cell hinvoked).stage h.outside (fun i hi => by rw [h.cv, hi])
    (fun hb _ => by rw [h.cv, hb]) hok

lemma token_of_sameStack (h : s.Token) (hsame : SameStack s s') (hinvoked : s'.invoked = s.invoked)
    (halive : ∀ j, (s.unlockers j).acquired = true ∨ (s.unlockers j).call ≠ none →
      (s'.unlockers j).alive = (s.unlockers j).alive)
    (hacquired : ∀ j, (s'.unlockers j).acquired = (s.unlockers j).acquired)
    (hcall : ∀ j, (s'.unlockers j).call = (s.unlockers j).call) : s'.Token := by
  have hcell := hsame.cell hinvoked
  cases h with
  | held i hi ha hc huntouched hnone ho =>
    exact .held i ⟨(halive i (.inl hi.2)).trans hi.1, (hacquired i).trans hi.2⟩
      (fun j hj => (hacquired j).trans (ha j hj)) (fun j => (hcall j).trans (hc j))
      (hcell.untouched huntouched) (hinvoked.trans hnone) (hsame.outside ho)
  | calling i stage hi hstage ha hc hok =>
    exact .calling i stage ((halive i (.inr (by simp [hstage]))).trans hi)
      ((hcall i).trans hstage) (fun j => (hacquired j).trans (ha j))
      (fun j hj => (hcall j).trans (hc j hj)) (hsame.stage hinvoked hok)
  | spent ha hc hset hb ho =>
    exact .spent (fun j => (hacquired j).trans (ha j)) (fun j => (hcall j).trans (hc j))
      (hcell.set hset) (by rw [hsame.cv]; exact hb) (hsame.outside ho)

lemma move_inv (h : Inv s) (i j : ℕ) : Inv (s.move i j) := by
  unfold move
  split_ifs with hmay
  · obtain ⟨hij, hialive, hicall, hjacquired, hjcall⟩ := hmay
    set s' := (s.set i { s.unlockers i with acquired := false }).set j
      ⟨true, (s.unlockers i).acquired, none, false⟩ with hs'
    have hsame : SameStack s s' := ⟨rfl, rfl, rfl, rfl, rfl⟩
    have hj : s'.unlockers j = ⟨true, (s.unlockers i).acquired, none, false⟩ := by
      simp [hs', State.set]
    have hi : s'.unlockers i = { s.unlockers i with acquired := false } := by
      simp [hs', State.set, hij]
    have hother : ∀ k, k ≠ i → k ≠ j → s'.unlockers k = s.unlockers k := by
      intro k hki hkj
      simp [hs', State.set, hki, hkj]
    have hcall : ∀ k, (s'.unlockers k).call = (s.unlockers k).call := by
      intro k
      by_cases hkj : k = j
      · rw [hkj, hj, hjcall]
      · by_cases hki : k = i
        · rw [hki, hi]
        · rw [hother k hki hkj]
    refine inv_of_sameStack h hsame ?_
    cases hacq : (s.unlockers i).acquired with
    | true =>
      -- the ownership goes along
      rcases h.token with ⟨k, hk, ha, hc, huntouched, hnone, ho⟩ | ⟨_, _, _, _, ha, _⟩ | ⟨ha, _⟩
      · obtain rfl : i = k := by
          by_contra hik
          rw [ha i hik] at hacq
          cases hacq
        refine .held j ⟨by rw [hj], by rw [hj, hacq]⟩ (fun m hm => ?_)
          (fun m => (hcall m).trans (hc m)) ((hsame.cell rfl).untouched huntouched) hnone ho
        by_cases hmi : m = i
        · rw [hmi, hi]
        · rw [hother m hmi hm, ha m hmi]
      · rw [ha i] at hacq
        cases hacq
      · rw [ha i] at hacq
        cases hacq
    | false =>
      refine token_of_sameStack h.token hsame rfl (fun k hk => ?_) (fun k => ?_) hcall
      · by_cases hkj : k = j
        · rw [hkj] at hk
          simp [hjacquired, hjcall] at hk
        · by_cases hki : k = i
          · rw [hki, hi]
          · rw [hother k hki hkj]
      · by_cases hkj : k = j
        · rw [hkj, hj, hjacquired, hacq]
        · by_cases hki : k = i
          · rw [hki, hi, hacq]
          · rw [hother k hki hkj]
  · exact h

/-- An unlocker that has the ownership was not called yet. -/
structure Holder (s : State V E) (i : ℕ) : Prop where
  alive : (s.unlockers i).alive = true
  others : ∀ j ≠ i, (s.unlockers j).acquired = false
  calls : ∀ j, (s.unlockers j).call = none
  untouched : s.Untouched
  invoked : s.invoked = none
  outside : s.Outside

lemma holder_of_acquired (h : s.Token) {i : ℕ} (hi : (s.unlockers i).acquired = true) :
    s.Holder i := by
  rcases h with ⟨k, hk, ha, hc, huntouched, hnone, ho⟩ | ⟨_, _, _, _, ha, _⟩ | ⟨ha, _⟩
  · obtain rfl : i = k := by
      by_contra hik
      rw [ha i hik] at hi
      cases hi
    exact ⟨hk.1, ha, hc, huntouched, hnone, ho⟩
  · rw [ha i] at hi
    cases hi
  · rw [ha i] at hi
    cases hi

lemma enter_inv (h : Inv s) {i : ℕ} (hi : (s.unlockers i).acquired = true) (result : Result V E)
    (destructed : Bool) (invoked : Option (Signal V E))
    (hresult : result = (invoked.map makeResult).getD .empty) :
    Inv { s.set i ⟨true, false, some (.lock result), destructed⟩ with invoked := invoked } := by
  obtain ⟨-, ha, hc, huntouched, -, ho⟩ := holder_of_acquired h.token hi
  refine inv_of_sameStack h ⟨rfl, rfl, rfl, rfl, rfl⟩ ?_
  have hother : ∀ j ≠ i, Function.update s.unlockers i
      ⟨true, false, some (.lock result), destructed⟩ j = s.unlockers j :=
    fun j hj => Function.update_of_ne hj _ _
  refine .calling i (.lock result) (by simp [State.set]) (by simp [State.set]) (fun j => ?_)
    (fun j hj => ?_) ⟨⟨huntouched.ready, huntouched.writes, huntouched.readies⟩, hresult, ho⟩
  · by_cases hj : j = i
    · simp [State.set, hj]
    · simp only [State.set, hother j hj, ha j hj]
  · simp only [State.set, hother j hj, hc j]

lemma invoke_inv (h : Inv s) (i : ℕ) (signal : Signal V E) : Inv (s.invoke i signal) := by
  unfold invoke
  split_ifs with hmay
  · exact enter_inv h hmay.2.2 _ _ _ rfl
  · exact h

lemma destroy_inv (h : Inv s) (i : ℕ) : Inv (s.destroy i) := by
  unfold destroy
  split_ifs with hmay hacq
  · have hnone := (holder_of_acquired h.token hacq).invoked
    exact enter_inv h hacq .empty true s.invoked (by rw [hnone]; rfl)
  · have hsame : SameStack s (s.set i ⟨false, false, none, false⟩) := ⟨rfl, rfl, rfl, rfl, rfl⟩
    have hfalse : (s.unlockers i).acquired = false := Bool.eq_false_iff.2 hacq
    refine inv_of_sameStack h hsame (token_of_sameStack h.token hsame rfl ?_ ?_ ?_)
    · intro j hj
      by_cases hji : j = i
      · rw [hji] at hj
        simp [hfalse, hmay.2] at hj
      · simp [State.set, hji]
    · intro j
      by_cases hji : j = i
      · simp [State.set, hji, hfalse]
      · simp [State.set, hji]
    · intro j
      by_cases hji : j = i
      · simp [State.set, hji, hmay.2]
      · simp [State.set, hji]
  · exact h

lemma waiter_of_call (h : s.WaiterOk) {i : ℕ} (hholder : s.cv.holder = some (.unlocker i) ∨
    (s.cv.holder = none ∧ s.ready = false)) :
    ((s.waiter = .starting ∨ s.waiter = .lock) ∧ s.cv.blocked .waiter = false) ∨
      s.waiter = .waiting := by
  cases hw : s.waiter with
  | starting =>
    simp only [WaiterOk, hw] at h
    exact .inl ⟨.inl rfl, h.2⟩
  | lock =>
    simp only [WaiterOk, hw] at h
    exact .inl ⟨.inr rfl, h.2⟩
  | waiting => exact .inr rfl
  | _ =>
    simp only [WaiterOk, hw] at h
    rcases hholder with hh | ⟨hh, hr⟩ <;> simp_all

lemma inv_of_call (h : Inv s) {i : ℕ} {l : List (Event V E)}
    (hholder : s.cv.holder = some (.unlocker i) ∨ (s.cv.holder = none ∧ s.ready = false))
    (hwaiter : s'.waiter = s.waiter) (hlog : s'.log = s.log ++ l)
    (hreturned : ∀ r, .returned r ∉ l) (hsound : .violated ∉ l)
    (hcv : s'.cv.holder ≠ some .waiter)
    (hblocked : s'.cv.blocked .waiter = s.cv.blocked .waiter ∨ s'.cv.blocked .waiter = false)
    (htoken : s'.Token) : Inv s' := by
  have houtside := waiter_of_call h.waiter hholder
  have hsilent : ∀ r, .returned r ∉ s.log := by
    have hl := h.log
    rcases houtside with ⟨hw | hw, -⟩ | hw <;> simpa only [LogOk, hw] using hl
  have hall : ∀ r, .returned r ∉ s'.log := by
    intro r
    rw [hlog, List.mem_append, not_or]
    exact ⟨hsilent r, hreturned r⟩
  refine ⟨htoken, ?_, ?_, ?_⟩
  · rcases houtside with ⟨hw, hb⟩ | hw
    · have hb' : s'.cv.blocked .waiter = false := by
        rcases hblocked with hb' | hb'
        · rw [hb', hb]
        · exact hb'
      rw [← hwaiter] at hw
      rcases hw with hw | hw <;> simp only [WaiterOk, hw] <;> exact ⟨hcv, hb'⟩
    · rw [← hwaiter] at hw
      simp only [WaiterOk, hw]
      exact hcv
  · rcases houtside with ⟨hw | hw, -⟩ | hw <;> rw [← hwaiter] at hw <;>
      simpa only [LogOk, hw] using hall
  · rw [hlog, List.mem_append, not_or]
    exact ⟨h.sound, hsound⟩

lemma calling_of_call (h : s.Token) {i : ℕ} {stage : Stage V E}
    (hc : (s.unlockers i).call = some stage) :
    (s.unlockers i).alive = true ∧ (∀ j, (s.unlockers j).acquired = false) ∧
      (∀ j ≠ i, (s.unlockers j).call = none) ∧ s.StageOk i stage := by
  rcases h with ⟨k, hk, ha, hcall, -⟩ | ⟨k, stage', hk, hstage, ha, hcall, hok⟩ | ⟨ha, hcall, -⟩
  · rw [hcall i] at hc
    cases hc
  · obtain rfl : i = k := by
      by_contra hik
      rw [hcall i hik] at hc
      cases hc
    rw [hstage] at hc
    cases hc
    exact ⟨hk, ha, hcall, hok⟩
  · rw [hcall i] at hc
    cases hc

lemma token_of_next {i : ℕ} {stage : Stage V E} (halive : (s.unlockers i).alive = true)
    (ha : ∀ j, (s.unlockers j).acquired = false) (hcall : ∀ j ≠ i, (s.unlockers j).call = none)
    (hset : s'.unlockers =
      Function.update s.unlockers i { s.unlockers i with call := some stage })
    (hok : s'.StageOk i stage) : s'.Token := by
  have hi : s'.unlockers i = { s.unlockers i with call := some stage } := by
    rw [hset, Function.update_self]
  have hother : ∀ j ≠ i, s'.unlockers j = s.unlockers j := by
    intro j hj
    rw [hset, Function.update_of_ne hj]
  refine .calling i stage (by rw [hi]; exact halive) (by rw [hi]) (fun j => ?_) (fun j hj => ?_) hok
  · by_cases hj : j = i
    · rw [hj, hi]
      exact ha i
    · rw [hother j hj, ha j]
  · rw [hother j hj, hcall j hj]

theorem unlockerStep_inv (h : Inv s) (i : ℕ) : Inv (s.unlockerStep i) := by
  cases hc : (s.unlockers i).call with
  | none =>
    simp only [unlockerStep, hc]
    exact h
  | some stage =>
    obtain ⟨halive, ha, hcall, hok⟩ := calling_of_call h.token hc
    cases stage with
    | lock result =>
      obtain ⟨hu, hresult, -⟩ := hok
      simp only [unlockerStep, hc]
      split_ifs with hfree
      · refine inv_of_call (i := i) h (.inr ⟨hfree, hu.ready⟩) rfl rfl
          (by simp) (by simp) (by simp [record])
          (.inl rfl) (token_of_next halive ha hcall rfl ⟨⟨hu.ready, ?_, ?_⟩, hresult, rfl⟩)
        · simp only [record, writes_append, State.set, hu.writes]
          rfl
        · simp only [record, readies_append, State.set, hu.readies]
          rfl
      · exact h
    | write result =>
      obtain ⟨hu, hresult, hholder⟩ := hok
      simp only [unlockerStep, hc]
      refine inv_of_call h (.inl hholder) rfl rfl (by simp) (by simp) ?_ (.inl rfl)
        (token_of_next halive ha hcall rfl ⟨⟨hresult, ?_⟩, hu.ready, ?_, hholder⟩)
      · simp [record, State.set, hholder]
      · simp only [record, writes_append, State.set, hu.writes, hresult]
        rfl
      · simp only [record, readies_append, State.set, hu.readies]
        rfl
    | store =>
      obtain ⟨hw, hready, hreadies, hholder⟩ := hok
      simp only [unlockerStep, hc, hready, Bool.false_eq_true, if_false, List.nil_append]
      refine inv_of_call h (.inl hholder) rfl rfl (by simp) (by simp) ?_ (.inl rfl)
        (token_of_next halive ha hcall rfl ⟨⟨⟨hw.result, ?_⟩, rfl, ?_⟩, hholder⟩)
      · simp [record, State.set, hholder]
      · simp only [record, writes_append, State.set, hw.writes]
        rfl
      · simp only [record, readies_append, State.set, hreadies]
        rfl
    | notify =>
      obtain ⟨hset, hholder⟩ := hok
      simp only [unlockerStep, hc]
      refine inv_of_call h (.inl hholder) rfl rfl (by simp) (by simp) ?_ (.inr rfl)
        (token_of_next halive ha hcall rfl ⟨⟨⟨hset.result, ?_⟩, hset.ready, ?_⟩, rfl, hholder⟩)
      · simp [record, State.set, hholder]
      · simp only [record, writes_append, State.set, hset.writes]
        rfl
      · simp only [record, readies_append, State.set, hset.readies]
        rfl
    | unlock =>
      obtain ⟨hset, hblocked, hholder⟩ := hok
      simp only [unlockerStep, hc]
      refine inv_of_call h (.inl hholder) rfl rfl (by simp) (by simp) (by simp [record]) (.inl rfl)
        (.spent (fun j => ?_) (fun j => ?_) ⟨⟨hset.result, ?_⟩, hset.ready, ?_⟩ hblocked (.inl rfl))
      · by_cases hj : j = i
        · simp [record, State.set, hj, ha i]
        · simp [record, State.set, hj, ha j]
      · by_cases hj : j = i
        · simp [record, State.set, hj]
        · simp [record, State.set, hj, hcall j hj]
      · simp only [record, writes_append, State.set, hset.writes]
        rfl
      · simp only [record, readies_append, State.set, hset.readies]
        rfl

end unlockers

theorem step_inv {s : State V E} (h : Inv s) (a : Action V E) : Inv (step s a) := by
  cases a with
  | waiter => exact waiterStep_inv h
  | wake => exact wake_inv h
  | move i j => exact move_inv h i j
  | invoke i signal => exact invoke_inv h i signal
  | destroy i => exact destroy_inv h i
  | unlocker i => exact unlockerStep_inv h i

theorem runWaitRelaxed_inv (schedule : List (Action V E)) : Inv (runWaitRelaxed schedule) :=
  run_preserves (I := Inv) (fun _ a h => step_inv h a) init_inv schedule

end State

end Continuable.WaitRelaxed
