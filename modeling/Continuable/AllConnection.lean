import Continuable.Schedule
import Continuable.Primitives
import Mathlib.Logic.Function.Basic

/-!
The submitter of an `all` connection, under every interleaving.

One thread runs the dispatch loop and then accepts the connection; every member that was
started may resolve on a thread of its own. The members and the dispatch loop share a counter,
which starts at one so that the connection cannot finish while it is still being dispatched.
-/

namespace Continuable.All

open Schedule

/-- The threads that run `complete_one`: the dispatch loop and the members' callbacks. -/
inductive Thread
  | dispatcher
  | member (i : ℕ)
  deriving DecidableEq

/-- Where a thread is. The stages in between are those of `complete_one` and `invoke`, each an
access of the shared state; `raised` is the end of a callback that passed on an exception. -/
inductive Stage
  | idle
  | entered
  | asserted
  | zero
  | checked
  | finished
  | raised
  deriving DecidableEq

namespace Stage

/-- The thread has not decremented the counter. -/
def counts : Stage → Bool
  | .idle | .entered | .asserted | .raised => true
  | .zero | .checked | .finished => false

/-- The thread decremented the counter to zero and has not called the callback. -/
def closing : Stage → Bool
  | .zero | .checked => true
  | _ => false

end Stage

/-- What the downstream callback is called with: the boxes, or an exception. -/
inductive Call (V E : Type)
  | values (boxes : List (Option (List V)))
  | exception (exception : Option E)
  deriving DecidableEq

/-- The state of a `result_submitter` and of the threads around it. -/
structure State (V E : Type) where
  created : ℕ
  started : ℕ
  resolution : ℕ → Option (Signal V E)
  stage : Thread → Stage
  boxes : ℕ → Option (List V)
  left : ℕ
  flag : Bool
  calls : List (Call V E)
  raised : List (Option E)
  asserts : Bool

variable {V E : Type}

def init : State V E where
  created := 0
  started := 0
  resolution := fun _ => none
  stage := fun _ => .idle
  boxes := fun _ => none
  left := 1
  flag := false
  calls := []
  raised := []
  asserts := true

namespace State

def enter (s : State V E) (t : Thread) (g : Stage) : State V E :=
  { s with stage := Function.update s.stage t g }

/-- `std::call_once` on `flag_`. -/
def callOnce (s : State V E) (c : Call V E) : State V E :=
  if s.flag then s else { s with flag := true, calls := s.calls ++ [c] }

def assert (s : State V E) (p : Bool) : State V E := { s with asserts := s.asserts && p }

@[simp] lemma enter_stage_self (s : State V E) (t : Thread) (g : Stage) :
    (s.enter t g).stage t = g := Function.update_self ..

lemma enter_stage_of_ne (s : State V E) {t u : Thread} (hu : u ≠ t) (g : Stage) :
    (s.enter t g).stage u = s.stage u := Function.update_of_ne hu ..

lemma assert_of (s : State V E) {p : Bool} (hp : p = true) : s.assert p = s := by
  simp [State.assert, hp]

end State

inductive Action (V E : Type)
  | createCallback
  | start
  | accept
  | resolve (i : ℕ) (signal : Signal V E)
  | callback (i : ℕ)
  | completeOne (t : Thread)

/-- The next access of `complete_one` and `invoke`. -/
def completeOne (n : ℕ) (s : State V E) (t : Thread) : State V E :=
  match s.stage t with
  | .entered => (s.assert (0 < s.left)).enter t .asserted
  | .asserted =>
    let s := { s with left := s.left - 1 }
    s.enter t (if s.left = 0 then .zero else .finished)
  | .zero => (s.assert (s.left = 0)).enter t .checked
  | .checked => (s.callOnce (.values ((List.range n).map s.boxes))).enter t .finished
  | _ => s

/-- `partial_all_callback`, up to its call of `complete_one`. -/
def partialAllCallback (s : State V E) (i : ℕ) : Signal V E → State V E
  | .value vs => { s with boxes := Function.update s.boxes i (some vs) }.enter (.member i) .entered
  | .exception e =>
    { s.callOnce (.exception e) with raised := s.raised ++ [e] }.enter (.member i) .raised

/-- A step of a connection of `n` members. -/
def step (n : ℕ) (s : State V E) : Action V E → State V E
  | .createCallback =>
    if s.created < n ∧ s.started = s.created then
      { s with created := s.created + 1, left := s.left + 1 }
    else s
  | .start => if s.started < s.created then { s with started := s.started + 1 } else s
  | .accept =>
    if s.started = n ∧ s.stage .dispatcher = .idle then s.enter .dispatcher .entered else s
  | .resolve i signal =>
    if i < s.started ∧ s.resolution i = none then
      { s with resolution := Function.update s.resolution i (some signal) }
    else s
  | .callback i =>
    match s.resolution i with
    | some signal => if s.stage (.member i) = .idle then partialAllCallback s i signal else s
    | none => s
  | .completeOne t => completeOne n s t

/-- Every interleaving of the dispatch loop and the members' callbacks. -/
def runAll (n : ℕ) (schedule : List (Action V E)) : State V E := run (step n) init schedule

/-! ### The invariant -/

/-- The threads there are once a number of callbacks was created. -/
def threads (created : ℕ) : Finset Thread :=
  insert .dispatcher ((Finset.range created).image .member)

@[simp] lemma dispatcher_mem_threads (c : ℕ) : .dispatcher ∈ threads c := by simp [threads]

@[simp] lemma member_mem_threads {i c : ℕ} : .member i ∈ threads c ↔ i < c := by simp [threads]

/-- What the counter and the calls say about the threads: members are still counted, one
thread counted down to zero, or it has called the callback. -/
inductive Phase (n : ℕ) (s : State V E) : Prop
  | counting (hleft : 0 < s.left) (hidle : ∀ t, (s.stage t).closing = false)
      (hcalls : ∀ bs, .values bs ∉ s.calls)
  | closing (t : Thread) (hleft : s.left = 0) (ht : (s.stage t).closing = true)
      (hidle : ∀ u, u ≠ t → (s.stage u).closing = false) (hcalls : s.calls = [])
  | closed (hleft : s.left = 0) (hidle : ∀ t, (s.stage t).closing = false)
      (hcalls : s.calls = [.values ((List.range n).map s.boxes)])

/-- The callback of a member ran: it passed on its exception, or assigned its own box. -/
def Ran (s : State V E) (i : ℕ) : Prop :=
  (s.stage (.member i) = .raised ∧ ∃ e, s.resolution i = some (.exception e) ∧ e ∈ s.raised) ∨
    (s.stage (.member i) ≠ .raised ∧
      ∃ vs, s.resolution i = some (.value vs) ∧ s.boxes i = some vs)

structure Inv (n : ℕ) (s : State V E) : Prop where
  started_le : s.started ≤ s.created
  created_le : s.created ≤ n
  dispatched : s.stage .dispatcher ≠ .idle → s.started = n
  dispatcher_ne : s.stage .dispatcher ≠ .raised
  resolved : ∀ i, s.resolution i ≠ none → i < s.started
  ran : ∀ i, s.stage (.member i) ≠ .idle → Ran s i
  left_eq : s.left = tally (threads s.created) s.stage Stage.counts
  asserts : s.asserts = true
  flag : s.flag = true ↔ s.calls ≠ []
  phase : Phase n s
  first : ∀ e rest, s.raised = e :: rest → s.calls = [.exception e]
  thrown : ∀ e, .exception e ∈ s.calls → s.raised ≠ []
  raiser : ∀ e ∈ s.raised, ∃ i, s.resolution i = some (.exception e) ∧
    s.stage (.member i) = .raised

lemma init_inv (n : ℕ) : Inv n (init : State V E) := by
  refine ⟨Nat.le_refl _, Nat.zero_le _, by simp [init], by simp [init], by simp [init],
    by simp [init], ?_, rfl, by simp [init], ?_, by simp [init], by simp [init], by simp [init]⟩
  · simp [init, tally, threads, Stage.counts]
  · exact Phase.counting (Nat.succ_pos 0) (fun _ => rfl) (by simp [init])

end Continuable.All
