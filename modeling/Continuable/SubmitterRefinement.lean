import Continuable.AllCompletion
import Continuable.OnceReentry
import Continuable.OperatorTrees

/-!
The submitters of connections at their different grains.

The stages of `complete_one` take the accesses of the counter and the flag apart, so that they
interleave. Run without anything between them, they are the operation on a submitter that the
operators and the owners of a submitter are about. Where a handler reaches back into the
connection, it is these operations that happen on the stacks of the threads.
-/

namespace Continuable.SubmitterRefinement

open Schedule
open Operators (Submitter)

variable {V E : Type}

/-- What happens to a submitter. -/
inductive Operation (V E : Type)
  | createCallback
  | accept
  | receive (i : ℕ) (signal : Signal V E)

def Operation.apply (r : Submitter V E) : Operation V E → Submitter V E × Option (Signal V E)
  | .createCallback => (r.createCallback, none)
  | .accept => r.accept
  | .receive i signal => r.receive i signal

/-- The operations one after the other, and what the downstream callback is called with. -/
def perform (r : Submitter V E) : List (Operation V E) → Submitter V E × List (Signal V E)
  | [] => (r, [])
  | op :: ops =>
    let p := op.apply r
    let q := perform p.1 ops
    (q.1, p.2.toList ++ q.2)

lemma perform_append (r : Submitter V E) (l m : List (Operation V E)) :
    perform r (l ++ m) =
      ((perform (perform r l).1 m).1, (perform r l).2 ++ (perform (perform r l).1 m).2) := by
  induction l generalizing r with
  | nil => rfl
  | cons op l ih => simp only [List.cons_append, perform, ih, List.append_assoc]

/-- Some of the operations, in order, take a submitter where the machine goes. -/
def Performs {σ γ : Type} (R : Submitter V E → σ → Prop) (calls : σ → List γ)
    (kind : Signal V E → γ) (ops : List (Operation V E)) (r : Submitter V E) (s s' : σ) : Prop :=
  ∃ l, List.Sublist l ops ∧ R (perform r l).1 s' ∧
    calls s' = calls s ++ (perform r l).2.map kind

section machines

variable {σ α γ : Type} {step : σ → α → σ} {R : Submitter V E → σ → Prop} {I : σ → Prop}
variable {calls : σ → List γ} {kind : Signal V E → γ} {r : Submitter V E} {s s' : σ}

lemma Performs.stay {ops : List (Operation V E)} (h : R r s') (hcalls : calls s' = calls s) :
    Performs R calls kind ops r s s' :=
  ⟨[], List.nil_sublist _, h, hcalls.trans (List.append_nil _).symm⟩

lemma Performs.one {op : Operation V E} (h : R (op.apply r).1 s')
    (hcalls : calls s' = calls s ++ (op.apply r).2.toList.map kind) :
    Performs R calls kind [op] r s s' := by
  refine ⟨[op], List.Sublist.refl _, h, hcalls.trans ?_⟩
  simp [perform]

lemma run_performs {ops : α → List (Operation V E)} (hI : ∀ s a, I s → I (step s a))
    (hstep : ∀ r s a, R r s → I s → Performs R calls kind (ops a) r s (step s a))
    (h : R r s) (hs : I s) (schedule : List α) :
    Performs R calls kind (schedule.flatMap ops) r s (run step s schedule) := by
  induction schedule generalizing r s with
  | nil => exact .stay h rfl
  | cons a rest ih =>
    obtain ⟨first, hsub₁, hr₁, hcalls₁⟩ := hstep r s a h hs
    obtain ⟨second, hsub₂, hr₂, hcalls₂⟩ := ih hr₁ (hI s a hs)
    refine ⟨first ++ second, ?_, ?_, ?_⟩
    · rw [List.flatMap_cons]
      exact hsub₁.append hsub₂
    · rw [perform_append]
      exact hr₂
    · rw [run_cons, hcalls₂, hcalls₁, perform_append, List.map_append, List.append_assoc]

end machines

/-! ### The stages of a callback -/

section stages

open All (Thread Stage State Action Inv completeOne partialAllCallback)

variable {n : ℕ} {s s' : State V E}

/-- What the downstream callback gets: a box that was not assigned holds no values. -/
def signalOf : All.Call V E → Signal V E
  | .values boxes => .value (boxes.map (·.getD [])).flatten
  | .exception e => .exception e

/-- The submitter of a connection of `n` members. -/
def submitterOf (n : ℕ) (s : State V E) : Submitter V E :=
  ⟨.all, s.left, s.flag, (List.range n).map fun i => (s.boxes i).getD []⟩

/-- The steps from one state to the other did what the operation does. -/
structure Does (n : ℕ) (s s' : State V E) (r : Submitter V E × Option (Signal V E)) : Prop where
  submitter : submitterOf n s' = r.1
  calls : s'.calls.map signalOf = s.calls.map signalOf ++ r.2.toList

/-- What a thread does in an operation. -/
def steps : Operation V E → List (Action V E)
  | .createCallback => [.createCallback, .start]
  | .accept => .accept :: List.replicate 4 (.completeOne .dispatcher)
  | .receive i signal =>
    .resolve i signal :: .callback i :: List.replicate 4 (.completeOne (.member i))

/-- The operation may be next. -/
def MayDo (n : ℕ) (s : State V E) : Operation V E → Prop
  | .createCallback => s.created < n ∧ s.started = s.created
  | .accept => s.started = n ∧ s.stage .dispatcher = .idle
  | .receive i _ => i < s.started ∧ s.resolution i = none

lemma callOnce_does (s : State V E) (c : All.Call V E) :
    Does n s (s.callOnce c) ((submitterOf n s).callOnce (signalOf c)) := by
  unfold State.callOnce Submitter.callOnce
  by_cases hf : s.flag = true
  · rw [if_pos hf, if_pos (show (submitterOf n s).flag = true from hf)]
    exact ⟨rfl, (List.append_nil _).symm⟩
  · rw [if_neg hf, if_neg (show ¬ (submitterOf n s).flag = true from hf)]
    exact ⟨rfl, by simp⟩

lemma signalOf_boxes (s : State V E) :
    (signalOf (.values ((List.range n).map s.boxes)) : Signal V E) =
      .value (submitterOf n s).boxes.flatten := by
  simp [signalOf, submitterOf, Function.comp_def]

lemma submitterOf_assign (s : State V E) (i : ℕ) (vs : List V) :
    submitterOf n { s with boxes := Function.update s.boxes i (some vs) } =
      { submitterOf n s with boxes := (submitterOf n s).boxes.set i vs } := by
  simp only [submitterOf, Submitter.mk.injEq, true_and]
  refine List.ext_getElem (by simp) fun j hj _ => ?_
  rw [List.getElem_map, List.getElem_range, List.getElem_set]
  by_cases hji : j = i
  · subst hji; simp
  · rw [Function.update_of_ne hji, if_neg (Ne.symm hji), List.getElem_map, List.getElem_range]

lemma run_completeOne (s : State V E) (t : Thread) :
    run (All.step n) s (List.replicate 4 (.completeOne t)) =
      completeOne n (completeOne n (completeOne n (completeOne n s t) t) t) t := rfl

/-- The stages of `complete_one` are one step of the submitter. -/
lemma complete_does {t : Thread} (ht : s.stage t = .entered) :
    Does n s (run (All.step n) s (List.replicate 4 (.completeOne t)))
      (submitterOf n s).completeOne := by
  have h1 : completeOne n s t = (s.assert (0 < s.left)).enter t .asserted := by
    rw [completeOne, ht]
  have h2 : ∀ u : State V E, u.stage t = .asserted → completeOne n u t =
      State.enter { u with left := u.left - 1 } t
        (if u.left - 1 = 0 then .zero else .finished) := by
    intro u hu
    rw [completeOne, hu]
  have hasserted : ((s.assert (0 < s.left)).enter t .asserted).stage t = .asserted :=
    State.enter_stage_self ..
  rw [run_completeOne, h1, h2 _ hasserted]
  have hleft : ((s.assert (0 < s.left)).enter t .asserted).left = s.left := rfl
  rw [hleft, Submitter.completeOne]
  by_cases hz : s.left - 1 = 0
  · have h3 : ∀ u : State V E, u.stage t = .zero →
        completeOne n u t = (u.assert (u.left = 0)).enter t .checked := by
      intro u hu
      rw [completeOne, hu]
    have h4 : ∀ u : State V E, u.stage t = .checked → completeOne n u t =
        (u.callOnce (.values ((List.range n).map u.boxes))).enter t .finished := by
      intro u hu
      rw [completeOne, hu]
    rw [if_pos hz, if_pos (show (submitterOf n s).left - 1 = 0 from hz),
      h3 _ (State.enter_stage_self ..), h4 _ (State.enter_stage_self ..)]
    generalize hu : State.enter (State.assert _ _) t .checked = u
    have hcalled := callOnce_does (n := n) u (.values ((List.range n).map u.boxes))
    rw [signalOf_boxes] at hcalled
    subst hu
    exact ⟨hcalled.submitter, hcalled.calls⟩
  · have hend : ∀ u : State V E, u.stage t = .finished → completeOne n u t = u := by
      intro u hu
      rw [completeOne, hu]
    rw [if_neg hz, if_neg (show ¬ (submitterOf n s).left - 1 = 0 from hz),
      hend _ (State.enter_stage_self ..), hend _ (State.enter_stage_self ..)]
    exact ⟨rfl, (List.append_nil _).symm⟩

lemma run_of_raised {t : Thread} (ht : s.stage t = .raised) :
    run (All.step n) s (List.replicate 4 (.completeOne t)) = s := by
  refine run_of_fixed _ fun a ha => ?_
  obtain rfl := List.eq_of_mem_replicate ha
  rw [All.step, completeOne, ht]

/-- **The steps of an operation**, taken without anything between them, do what it does. -/
theorem steps_does (h : Inv n s) {op : Operation V E} (hmay : MayDo n s op) :
    Does n s (run (All.step n) s (steps op)) (op.apply (submitterOf n s)) := by
  cases op with
  | createCallback =>
    have hcreate : All.step n s .createCallback =
        { s with created := s.created + 1, left := s.left + 1 } := if_pos hmay
    have hstart : s.started < s.created + 1 := by rw [hmay.2]; exact Nat.lt_succ_self _
    rw [steps, run_cons, run_cons, run_nil, hcreate, All.step, if_pos hstart]
    exact ⟨rfl, (List.append_nil _).symm⟩
  | accept =>
    have haccept : All.step n s .accept = s.enter .dispatcher .entered := if_pos hmay
    rw [steps, run_cons, haccept]
    have hdone := complete_does (n := n) (s := s.enter .dispatcher .entered)
      (State.enter_stage_self ..)
    exact ⟨hdone.submitter, hdone.calls⟩
  | receive i signal =>
    have hidle : s.stage (.member i) = .idle := by
      by_contra hne
      rcases h.ran i hne with ⟨-, e, hres, -⟩ | ⟨-, vs, hres, -⟩ <;>
        rw [hmay.2] at hres <;> cases hres
    have hresolve : All.step n s (.resolve i signal) =
        { s with resolution := Function.update s.resolution i (some signal) } := if_pos hmay
    have hcallback : All.step n (All.step n s (.resolve i signal)) (.callback i) =
        partialAllCallback (All.step n s (.resolve i signal)) i signal := by
      rw [hresolve]
      simp only [All.step, Function.update_self, if_pos hidle]
    rw [steps, run_cons, run_cons, hcallback, hresolve]
    cases signal with
    | value vs =>
      have hdone := complete_does (n := n) (s := partialAllCallback
        { s with resolution := Function.update s.resolution i (some (.value vs)) } i (.value vs))
        (State.enter_stage_self ..)
      have hassigned : submitterOf n (partialAllCallback
          { s with resolution := Function.update s.resolution i (some (.value vs)) } i
          (.value vs)) = { submitterOf n s with boxes := (submitterOf n s).boxes.set i vs } :=
        submitterOf_assign s i vs
      rw [hassigned] at hdone
      exact ⟨hdone.submitter, hdone.calls⟩
    | exception e =>
      rw [partialAllCallback, run_of_raised (State.enter_stage_self ..)]
      have hdone := callOnce_does (n := n)
        { s with resolution := Function.update s.resolution i (some (.exception e)) }
        (.exception e)
      exact ⟨hdone.submitter, hdone.calls⟩

/-- **Operations one after the other** are a run of the connection. -/
theorem runAll_perform (n : ℕ) (ops : List (Operation V E))
    (h : Allowed (fun s op => run (All.step n) s (steps op)) (MayDo n) All.init ops) :
    submitterOf n (All.runAll n (ops.flatMap steps)) =
        (perform ⟨.all, 1, false, List.replicate n []⟩ ops).1 ∧
      (All.runAll n (ops.flatMap steps)).calls.map signalOf =
        (perform ⟨.all, 1, false, List.replicate n []⟩ ops).2 := by
  have hrun : ∀ (ops : List (Operation V E)) (s : State V E), Inv n s →
      Allowed (fun s op => run (All.step n) s (steps op)) (MayDo n) s ops →
      submitterOf n (run (All.step n) s (ops.flatMap steps)) =
          (perform (submitterOf n s) ops).1 ∧
        (run (All.step n) s (ops.flatMap steps)).calls.map signalOf =
          s.calls.map signalOf ++ (perform (submitterOf n s) ops).2 := by
    intro ops
    induction ops with
    | nil => exact fun s _ _ => ⟨rfl, (List.append_nil _).symm⟩
    | cons op ops ih =>
      rintro s hs ⟨hmay, hrest⟩
      obtain ⟨hsubmitter, hcalls⟩ := steps_does hs hmay
      obtain ⟨ih₁, ih₂⟩ :=
        ih _ (run_preserves (I := Inv n) (fun _ a h => All.step_inv h a) hs (steps op)) hrest
      rw [List.flatMap_cons, run_append, perform, ih₁, ih₂, hsubmitter, hcalls, List.append_assoc]
      exact ⟨rfl, rfl⟩
  have hinit : submitterOf n (All.init : State V E) = ⟨.all, 1, false, List.replicate n []⟩ := by
    simp [submitterOf, All.init]
  rw [← hinit]
  exact hrun ops All.init (All.init_inv n) h

end stages

/-! ### The stacks of the threads -/

section reentry

open CallOnce

variable {γ : Type} {r : Submitter V E}

lemma callOnce_enter {o : Once γ} (hflag : r.flag = true ↔ o.flag ≠ .unset) (signal : Signal V E)
    (t : ℕ) (c : γ) :
    ((r.callOnce signal).1.flag = true ↔ (o.enter t c).flag ≠ .unset) ∧
      (o.enter t c).calls = o.calls ++ (r.callOnce signal).2.toList.map fun _ => c := by
  unfold Submitter.callOnce Once.enter
  cases ho : o.flag with
  | unset =>
    have hr : ¬ r.flag = true := fun h => hflag.1 h ho
    rw [if_neg hr]
    exact ⟨by simp, rfl⟩
  | running =>
    have hr : r.flag = true := hflag.2 (by simp [ho])
    rw [if_pos hr]
    exact ⟨by simp [hr], (List.append_nil _).symm⟩
  | done =>
    have hr : r.flag = true := hflag.2 (by simp [ho])
    rw [if_pos hr]
    exact ⟨by simp [hr, ho], (List.append_nil _).symm⟩

lemma leave_flag {o : Once γ} (h : o.Inv) (t : ℕ) :
    (o.leave t).flag ≠ .unset ↔ o.flag ≠ .unset := by
  unfold Once.leave
  split
  · next hs =>
    have hrunning := h.running t (by rw [Once.Inside, hs]; exact List.mem_cons_self)
    simp [hrunning]
  · rfl

lemma wake_flag (o : Once γ) (t : ℕ) : (o.wake t).flag = o.flag := by
  unfold Once.wake
  split
  · split_ifs <;> rfl
  · rfl

/-- What the machine of handlers that reach back keeps of a signal. -/
def kindOf : Signal V E → Reentry.Call E
  | .value _ => .values
  | .exception e => .exception e

/-- The operation of a step. -/
def operations : Reentry.Action V E → List (Operation V E)
  | .start => [.createCallback]
  | .accept => [.accept]
  | .resolve _ i signal => [.receive i signal]
  | .leave _ | .wake _ => []

structure Agrees (r : Submitter V E) (s : Reentry.State V E) : Prop where
  strategy : r.strategy = .all
  left : r.left = s.left
  flag : r.flag = true ↔ s.once.flag ≠ .unset

variable {n : ℕ} {s : Reentry.State V E}

/-- One operation on both sides. -/
def Follows (s s' : Reentry.State V E) (r : Submitter V E × Option (Signal V E)) : Prop :=
  Agrees r.1 s' ∧ s'.once.calls = s.once.calls ++ r.2.toList.map kindOf

lemma enter_follows (h : Agrees r s) (t : ℕ) (signal : Signal V E) :
    Follows s { s with once := s.once.enter t (kindOf signal) } (r.callOnce signal) := by
  obtain ⟨hflag, hcalls⟩ := callOnce_enter h.flag signal t (kindOf signal)
  refine ⟨⟨?_, ?_, hflag⟩, hcalls.trans ?_⟩
  · unfold Submitter.callOnce
    split_ifs <;> exact h.strategy
  · unfold Submitter.callOnce
    split_ifs <;> exact h.left
  · unfold Submitter.callOnce
    split_ifs <;> rfl

lemma completeOne_follows (h : Agrees r s) (t : ℕ) :
    Follows s (Reentry.completeOne s t) r.completeOne := by
  have hless : Agrees { r with left := r.left - 1 } { s with left := s.left - 1 } :=
    ⟨h.strategy, by simp only [h.left], h.flag⟩
  unfold Submitter.completeOne Reentry.completeOne
  simp only
  by_cases hz : s.left - 1 = 0
  · rw [if_pos hz, if_pos (by rw [h.left]; exact hz)]
    exact enter_follows hless t (.value r.boxes.flatten)
  · rw [if_neg hz, if_neg (by rw [h.left]; exact hz)]
    exact ⟨hless, (List.append_nil _).symm⟩

lemma step_performs (h : Agrees r s) (hinv : s.once.Inv) (a : Reentry.Action V E) :
    Performs Agrees (fun s => s.once.calls) kindOf (operations a) r s (Reentry.step n s a) := by
  cases a with
  | start =>
    simp only [Reentry.step]
    split_ifs
    · refine .one ?_ (List.append_nil _).symm
      obtain ⟨strategy, left, flag, boxes⟩ := r
      obtain rfl : strategy = .all := h.strategy
      exact ⟨rfl, congrArg (· + 1) h.left, h.flag⟩
    · exact .stay h rfl
  | accept =>
    simp only [Reentry.step]
    split_ifs
    · have haccept : r.accept = r.completeOne := by rw [Submitter.accept, h.strategy]
      obtain ⟨hagrees, hcalls⟩ := completeOne_follows (s := { s with accepted := true })
        ⟨h.strategy, h.left, h.flag⟩ 0
      rw [← haccept] at hagrees hcalls
      exact .one hagrees hcalls
    · exact .stay h rfl
  | resolve t i signal =>
    simp only [Reentry.step]
    split_ifs
    · obtain ⟨strategy, left, flag, boxes⟩ := r
      obtain rfl : strategy = .all := h.strategy
      cases signal with
      | value vs =>
        obtain ⟨hagrees, hcalls⟩ := completeOne_follows (r := ⟨.all, left, flag, boxes.set i vs⟩)
          (s := { s with resolution := Function.update s.resolution i (some (.value vs)) })
          ⟨rfl, h.left, h.flag⟩ t
        exact .one hagrees hcalls
      | exception e =>
        obtain ⟨hagrees, hcalls⟩ := enter_follows
          (s := { s with resolution := Function.update s.resolution i (some (.exception e)) })
          (r := ⟨.all, left, flag, boxes⟩) ⟨rfl, h.left, h.flag⟩ t (.exception e)
        exact .one hagrees hcalls
    · exact .stay h rfl
  | leave t =>
    exact .stay ⟨h.strategy, h.left, h.flag.trans (leave_flag hinv t).symm⟩ (leave_calls _ t)
  | wake t =>
    exact .stay ⟨h.strategy, h.left, by rw [h.flag, ← wake_flag]; rfl⟩ (wake_calls _ t)

/-- **Handlers that reach back** into an `all` connection meet a submitter that goes through
operations of the schedule. -/
theorem runAll_performs (n : ℕ) (schedule : List (Reentry.Action V E)) :
    Performs Agrees (fun s => s.once.calls) kindOf (schedule.flatMap operations)
      ⟨.all, 1, false, List.replicate n []⟩ Reentry.init (Reentry.runAll n schedule) :=
  run_performs (I := Reentry.Inv n) (fun _ a hs => Reentry.step_inv hs a)
    (fun _ _ a h hs => step_performs h hs.once a)
    ⟨rfl, rfl, by simp [Reentry.init, Once.init]⟩ (Reentry.init_inv n) schedule

/-! ### Any connections -/

/-- The operation of a step of an `any` connection. -/
def anyOperations : Any.Action V E → List (Operation V E)
  | .start => [.createCallback]
  | .resolve _ i signal => [.receive i signal]
  | .leave _ | .wake _ => []

structure AgreesAny (r : Submitter V E) (s : Any.State V E) : Prop where
  strategy : r.strategy = .any
  flag : r.flag = true ↔ s.once.flag ≠ .unset

lemma anyStep_performs {s : Any.State V E} (h : AgreesAny r s) (hinv : s.once.Inv)
    (a : Any.Action V E) :
    Performs AgreesAny (fun s => s.once.calls) id (anyOperations a) r s (Any.step n s a) := by
  cases a with
  | start =>
    simp only [Any.step]
    split_ifs
    · exact .stay ⟨h.strategy, h.flag⟩ rfl
    · exact .stay h rfl
  | resolve t i signal =>
    simp only [Any.step]
    split_ifs
    · obtain ⟨hflag, hcalls⟩ := callOnce_enter h.flag signal t signal
      have hreceive : r.receive i signal = r.callOnce signal := by
        obtain ⟨strategy, left, flag, boxes⟩ := r
        obtain rfl : strategy = .any := h.strategy
        rfl
      rw [← hreceive] at hflag hcalls
      refine .one ⟨?_, hflag⟩ (hcalls.trans ?_)
      · rw [Operation.apply, hreceive]
        unfold Submitter.callOnce
        split_ifs <;> exact h.strategy
      · rw [Operation.apply, hreceive]
        unfold Submitter.callOnce
        split_ifs <;> rfl
    · exact .stay h rfl
  | leave t => exact .stay ⟨h.strategy, h.flag.trans (leave_flag hinv t).symm⟩ (leave_calls _ t)
  | wake t => exact .stay ⟨h.strategy, by rw [h.flag, ← wake_flag]; rfl⟩ (wake_calls _ t)

theorem runAny_performs (n : ℕ) (schedule : List (Any.Action V E)) :
    Performs AgreesAny (fun s => s.once.calls) id (schedule.flatMap anyOperations)
      ⟨.any, 1, false, List.replicate n []⟩ Any.init (Any.runAny n schedule) :=
  run_performs (I := Any.Inv n) (fun _ a hs => Any.step_inv hs a)
    (fun _ _ a h hs => anyStep_performs h hs.once a)
    ⟨rfl, by simp [Any.init, Once.init]⟩ (Any.init_inv n) schedule

end reentry

end Continuable.SubmitterRefinement
