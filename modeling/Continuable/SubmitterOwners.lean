import Continuable.ChainDestruction
import Continuable.OperatorTrees
import Continuable.Schedule
import Mathlib.Data.Finset.Insert

/-!
The owners of a submitter.

The downstream callback of an `all` or `any` connection is stored in a submitter, which the
dispatch and every callback that was created for a member have a `std::shared_ptr` to. The
submitter is destroyed with the last one of these, and so is the downstream callback.
-/

namespace Continuable.SubmitterOwners

open Schedule Operators ChainDestruction

/-- Where a `std::shared_ptr` to the submitter is. -/
inductive Owner
  | dispatch
  | callback (k : ℕ)
  deriving DecidableEq

/-- A submitter with its owners, how many members were started, what each member does to its
callback from now on, and what was done to the downstream callback. -/
structure State (V E : Type) where
  submitter : Submitter V E
  owners : Finset Owner
  started : ℕ
  pending : ℕ → List (Use V E)
  uses : List (Use V E)

inductive Action
  | dispatch
  | member (k : ℕ)
  deriving DecidableEq

variable {V E : Type}

def init (strategy : Strategy) (members : List (Chain.Continuation V E)) : State V E where
  submitter := ⟨strategy, 1, false, members.map fun _ => []⟩
  owners := {.dispatch}
  started := 0
  pending k := (members.map handlerUses).getD k []
  uses := []

namespace State

/-- The submitter goes on, and may call the downstream callback. -/
def submit (s : State V E) (r : Submitter V E × Option (Signal V E)) : State V E :=
  { s with submitter := r.1, uses := s.uses ++ r.2.toList.map .called }

/-- A `std::shared_ptr` is destroyed. The downstream callback goes with the last one; it has the
right to resolve unless it was called. -/
def release (s : State V E) (o : Owner) : State V E :=
  { s with
    owners := s.owners.erase o
    uses := if s.owners.erase o = ∅ ∧ s.submitter.flag = false then s.uses ++ [.destroyed]
      else s.uses }

/-- The dispatch starts the next member, or ends. -/
def dispatch (n : ℕ) (s : State V E) : State V E :=
  if s.started < n then
    { s with
      submitter := s.submitter.createCallback
      owners := insert (.callback s.started) s.owners
      started := s.started + 1 }
  else (s.submit s.submitter.accept).release .dispatch

/-- The callback of a member is used, and destroyed when it was. -/
def member (s : State V E) (k : ℕ) : State V E :=
  match s.pending k with
  | [] => s.release (.callback k)
  | .called signal :: rest =>
    { s with pending := Function.update s.pending k rest }.submit (s.submitter.receive k signal)
  | .destroyed :: rest =>
    { s with pending := Function.update s.pending k rest }.release (.callback k)

end State

def step (n : ℕ) (s : State V E) : Action → State V E
  | .dispatch => if .dispatch ∈ s.owners then s.dispatch n else s
  | .member k => if .callback k ∈ s.owners then s.member k else s

/-- A connection that is invoked. -/
def runConnection (strategy : Strategy) (members : List (Chain.Continuation V E))
    (schedule : List Action) : State V E :=
  run (step members.length) (init strategy members) schedule

/-! ### The downstream callback -/

/-- What one operation of a submitter does to its flag: it is set by the call. -/
def CallsOnce (s : Submitter V E) (r : Submitter V E × Option (Signal V E)) : Prop :=
  (r.2 = none ∧ r.1.flag = s.flag) ∨
    (∃ signal, r.2 = some signal ∧ s.flag = false ∧ r.1.flag = true)

section submitter

variable (s : Submitter V E)

lemma callOnce_callsOnce (signal : Signal V E) : CallsOnce s (s.callOnce signal) := by
  unfold Submitter.callOnce
  split_ifs with hflag
  · exact .inl ⟨rfl, rfl⟩
  · exact .inr ⟨signal, rfl, eq_false_of_ne_true hflag, rfl⟩

lemma completeOne_callsOnce : CallsOnce s s.completeOne := by
  unfold Submitter.completeOne
  simp only
  split_ifs
  · exact callOnce_callsOnce { s with left := s.left - 1 } _
  · exact .inl ⟨rfl, rfl⟩

lemma receive_callsOnce (k : ℕ) (signal : Signal V E) : CallsOnce s (s.receive k signal) := by
  unfold Submitter.receive
  split
  · exact completeOne_callsOnce { s with boxes := s.boxes.set k _ }
  · exact callOnce_callsOnce s _
  · exact callOnce_callsOnce s _

lemma accept_callsOnce : CallsOnce s s.accept := by
  unfold Submitter.accept
  split
  · exact completeOne_callsOnce s
  · exact .inl ⟨rfl, rfl⟩

lemma createCallback_flag : s.createCallback.flag = s.flag := by
  unfold Submitter.createCallback
  split <;> rfl

end submitter

/-- The downstream callback was called when the flag is set, and otherwise it was destroyed when
the submitter was. -/
def Inv (s : State V E) : Prop :=
  (s.submitter.flag = true ∧ ∃ signal, s.uses = [.called signal]) ∨
    (s.submitter.flag = false ∧ s.uses = if s.owners = ∅ then [.destroyed] else [])

section invariant

variable {s : State V E} {n : ℕ}

lemma submit_inv (h : Inv s) {r : Submitter V E × Option (Signal V E)}
    (hr : CallsOnce s.submitter r) (howner : s.owners.Nonempty) : Inv (s.submit r) := by
  rcases hr with ⟨hnone, hflag⟩ | ⟨signal, hsome, hflag, hset⟩
  · have huses : (s.submit r).uses = s.uses := by simp [State.submit, hnone]
    rcases h with ⟨hs, signal, hu⟩ | ⟨hs, hu⟩
    · exact .inl ⟨hflag.trans hs, signal, huses.trans hu⟩
    · exact .inr ⟨hflag.trans hs, huses.trans hu⟩
  · rcases h with ⟨hs, -⟩ | ⟨-, hu⟩
    · rw [hflag] at hs
      cases hs
    · rw [if_neg howner.ne_empty] at hu
      exact .inl ⟨hset, signal, by simp [State.submit, hu, hsome]⟩

lemma release_inv (h : Inv s) {o : Owner} (ho : o ∈ s.owners) : Inv (s.release o) := by
  have howner : s.owners ≠ ∅ := Finset.ne_empty_of_mem ho
  rcases h with ⟨hs, signal, hu⟩ | ⟨hs, hu⟩
  · exact .inl ⟨hs, signal, by simp [State.release, hs, hu]⟩
  · rw [if_neg howner] at hu
    exact .inr ⟨hs, by simp [State.release, hs, hu]⟩

lemma dispatch_inv (h : Inv s) (ho : .dispatch ∈ s.owners) : Inv (s.dispatch n) := by
  unfold State.dispatch
  split_ifs
  · have hflag := createCallback_flag s.submitter
    rcases h with ⟨hs, hu⟩ | ⟨hs, hu⟩
    · exact .inl ⟨hflag.trans hs, hu⟩
    · rw [if_neg (Finset.ne_empty_of_mem ho)] at hu
      exact .inr ⟨hflag.trans hs, by simp [hu]⟩
  · exact release_inv (submit_inv h (accept_callsOnce _) ⟨_, ho⟩) ho

lemma member_inv (h : Inv s) {k : ℕ} (ho : .callback k ∈ s.owners) : Inv (s.member k) := by
  unfold State.member
  split
  · exact release_inv h ho
  · exact submit_inv (s := { s with pending := _ }) h (receive_callsOnce _ _ _) ⟨_, ho⟩
  · exact release_inv (s := { s with pending := _ }) h ho

theorem step_inv (h : Inv s) (a : Action) : Inv (step n s a) := by
  cases a with
  | dispatch =>
    simp only [step]
    split_ifs with ho
    · exact dispatch_inv h ho
    · exact h
  | member k =>
    simp only [step]
    split_ifs with ho
    · exact member_inv h ho
    · exact h

end invariant

lemma init_inv (strategy : Strategy) (members : List (Chain.Continuation V E)) :
    Inv (init strategy members) := .inr ⟨rfl, by simp [init]⟩

theorem runConnection_inv (strategy : Strategy) (members : List (Chain.Continuation V E))
    (schedule : List Action) : Inv (runConnection strategy members schedule) :=
  run_preserves (I := Inv) (fun _ a h => step_inv h a) (init_inv strategy members) schedule

/-! ### Every run can be finished -/

section finishing

variable {n : ℕ}

lemma release_owners (s : State V E) (o : Owner) : (s.release o).owners = s.owners.erase o := rfl

lemma reaches_erase (s : State V E) (k : ℕ) :
    Reaches (step n) (fun _ => True) (fun t => t.owners = s.owners.erase (.callback k)) s := by
  by_cases hk : .callback k ∈ s.owners
  · generalize hp : s.pending k = us
    induction us generalizing s with
    | nil =>
      refine .of_step (.member k) trivial (.now ?_)
      simp only [step, if_pos hk, State.member, hp]
      exact release_owners s _
    | cons u rest ih =>
      refine .of_step (.member k) trivial ?_
      simp only [step, if_pos hk, State.member, hp]
      cases u with
      | called signal => exact ih _ hk (Function.update_self ..)
      | destroyed => exact .now (release_owners _ _)
  · exact .now (Finset.erase_eq_of_notMem hk).symm

lemma reaches_dispatched (s : State V E) :
    Reaches (step n) (fun _ => True) (fun t => .dispatch ∉ t.owners) s := by
  by_cases hd : .dispatch ∈ s.owners
  · generalize hm : n - s.started = m
    induction m generalizing s with
    | zero =>
      have hend : ¬ s.started < n := by omega
      refine .of_step .dispatch trivial (.now ?_)
      simp only [step, if_pos hd, State.dispatch, if_neg hend]
      exact Finset.notMem_erase _ _
    | succ m ih =>
      have hstarted : s.started < n := by omega
      refine .of_step .dispatch trivial ?_
      simp only [step, if_pos hd, State.dispatch, if_pos hstarted]
      exact ih _ (Finset.mem_insert_of_mem hd) (by simp only; omega)
  · exact .now hd

lemma reaches_empty (s : State V E) (hd : .dispatch ∉ s.owners) :
    Reaches (step n) (fun _ => True) (fun t => t.owners = ∅) s := by
  generalize ho : s.owners = owners
  induction owners using Finset.induction_on generalizing s with
  | empty => exact .now ho
  | insert o owners hnew ih =>
    cases o with
    | dispatch => exact absurd (by simp [ho]) hd
    | callback k =>
      refine (reaches_erase s k).trans fun t ht => ?_
      rw [ho, Finset.erase_insert hnew] at ht
      refine ih t (fun hmem => hd ?_) ht
      rw [ht] at hmem
      rw [ho]
      exact Finset.mem_insert_of_mem hmem

end finishing

/-- A connection whose members end can always end. -/
theorem exists_finished (strategy : Strategy) (members : List (Chain.Continuation V E))
    (schedule : List Action) :
    ∃ more, (runConnection strategy members (schedule ++ more)).owners = ∅ := by
  obtain ⟨more, -, hmore⟩ := (reaches_dispatched (n := members.length)
    (runConnection strategy members schedule)).trans reaches_empty
  exact ⟨more, by rw [runConnection, run_append]; exact hmore⟩

/-- **A connection uses the downstream callback up**, once, when nothing owns the submitter any
more. -/
theorem uses_of_finished (strategy : Strategy) (members : List (Chain.Continuation V E))
    (schedule : List Action) (h : (runConnection strategy members schedule).owners = ∅) :
    ∃ o, (runConnection strategy members schedule).uses = [useOf o] := by
  rcases runConnection_inv strategy members schedule with ⟨-, signal, hu⟩ | ⟨-, hu⟩
  · exact ⟨some signal, hu⟩
  · exact ⟨none, by rw [hu, if_pos h]; rfl⟩

/-- One of two members never resolves, so the submitter is destroyed before it completes. -/
example : (runConnection .all [.lazy 0 (some (.value [1])), .lazy 1 none]
    [.dispatch, .member 0, .dispatch, .dispatch, .member 0, .member 1] : State ℕ ℕ).uses =
      [.destroyed] := by
  decide

end Continuable.SubmitterOwners
