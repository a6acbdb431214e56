import Continuable.Endings
import Continuable.Schedule
import Continuable.StdPromise
import Mathlib.Logic.Function.Basic

/-!
`to_future`.

The handler that a continuable is ended with owns a `std::promise`. It is moved along the chain, and
everything it was moved from is destroyed without the promise. The chain calls it or destroys it,
and after a call it is destroyed as well.
-/

namespace Continuable.ToFuture

open Schedule ChainDestruction StdPromise

/-- A `promise_callback`; one that was moved from has no promise. -/
structure PromiseCallback where
  alive : Bool
  owns : Bool
  deriving DecidableEq

/-- The callbacks, the promise that one of them owns, and what the chain is still going to do to
that one. -/
structure State (V E : Type) where
  callbacks : ℕ → PromiseCallback
  promise : Promise (Boxed V) E
  pending : List (Use V E)

inductive Action
  | move (i j : ℕ)
  | use (i : ℕ)
  | destroy (i : ℕ)
  deriving DecidableEq

variable {V E : Type}

/-- `future_trait::resolve`: what the values are boxed into. -/
def resolve (vs : List V) : Call (Boxed V) E := .setValue (boxed vs)

/-- `promise_callback::operator()`. -/
def promiseCallback (p : Promise (Boxed V) E) : Signal V E → Promise (Boxed V) E
  | .value args => p.set (resolve args)
  | .exception error => p.set (.setException error)

def init (uses : List (Use V E)) : State V E where
  callbacks i := if i = 0 then ⟨true, true⟩ else ⟨false, false⟩
  promise := Promise.init
  pending := uses

namespace State

def set (s : State V E) (i : ℕ) (c : PromiseCallback) : State V E :=
  { s with callbacks := Function.update s.callbacks i c }

/-- A callback is constructed from another one; there is no assignment. -/
def move (s : State V E) (i j : ℕ) : State V E :=
  if (s.callbacks i).alive = true ∧ (s.callbacks j).alive = false then
    (s.set i ⟨true, false⟩).set j ⟨true, (s.callbacks i).owns⟩
  else s

/-- The destructor, which destroys the promise. -/
def destruct (s : State V E) (i : ℕ) : State V E :=
  { s.set i ⟨false, false⟩ with
    promise := if (s.callbacks i).owns = true then s.promise.abandon else s.promise }

/-- The chain does the next thing to the callback that owns the promise. -/
def use (s : State V E) (i : ℕ) : State V E :=
  if (s.callbacks i).alive = true ∧ (s.callbacks i).owns = true then
    match s.pending with
    | [] => s
    | .called signal :: rest =>
      { s with promise := promiseCallback s.promise signal, pending := rest }
    | .destroyed :: rest => { s with pending := rest }.destruct i
  else s

/-- A callback is destroyed that was moved from, or that the chain is done with. -/
def destroy (s : State V E) (i : ℕ) : State V E :=
  if (s.callbacks i).alive = true ∧ ((s.callbacks i).owns = false ∨ s.pending = []) then
    s.destruct i
  else s

end State

def step (s : State V E) : Action → State V E
  | .move i j => s.move i j
  | .use i => s.use i
  | .destroy i => s.destroy i

/-- Every run of `to_future` on a continuable. -/
def runToFuture (b : ContinuableBase V E) (schedule : List Action) : State V E :=
  run step (init b.handlerUses) schedule

/-! ### The promise -/

/-- What becomes of the promise of a continuable that ends with an outcome. -/
def settled : Outcome V E → Promise (Boxed V) E
  | none => Promise.init.abandon
  | some signal => promiseCallback Promise.init signal

lemma settled_shared (o : Outcome V E) : (settled o : Promise (Boxed V) E).shared ≠ .pending := by
  rcases o with _ | ⟨vs | _ | e⟩ <;> simp [settled, promiseCallback, resolve, Promise.abandon,
    Promise.set, Promise.init, Call.stored]

lemma settled_calls (o : Outcome V E) : (settled o : Promise (Boxed V) E).calls.length ≤ 1 := by
  rcases o with _ | ⟨vs | e⟩ <;> simp [settled, promiseCallback, Promise.abandon, Promise.set,
    Promise.init]

/-- Either one callback owns the promise and the chain did not come to it, or the promise was
settled. -/
inductive Inv (o : Outcome V E) (s : State V E) : Prop
  | owned (i : ℕ) (hi : s.callbacks i = ⟨true, true⟩)
      (hother : ∀ j ≠ i, (s.callbacks j).owns = false) (hpromise : s.promise = Promise.init)
      (hpending : s.pending = [useOf o])
  | settled (hpromise : s.promise = settled o) (hpending : s.pending = [])

section invariant

variable {o : Outcome V E} {s : State V E}

lemma init_inv (o : Outcome V E) : Inv o (init [useOf o]) :=
  .owned 0 rfl (fun j hj => by simp [init, hj]) rfl rfl

lemma move_inv (h : Inv o s) (i j : ℕ) : Inv o (s.move i j) := by
  unfold State.move
  split_ifs with hmay
  · obtain ⟨hi, hj⟩ := hmay
    cases h with
    | settled hpromise hpending => exact .settled hpromise hpending
    | owned k hk hother hpromise hpending =>
      have hjk : k ≠ j := by
        rintro rfl
        rw [hk] at hj
        cases hj
      by_cases hik : i = k
      · -- the promise goes along
        subst hik
        refine .owned j ?_ (fun m hm => ?_) hpromise hpending
        · simp [State.set, hk]
        · by_cases hmi : m = i
          · simp [State.set, hmi, hjk]
          · simp [State.set, hmi, hm, hother m hmi]
      · refine .owned k ?_ (fun m hm => ?_) hpromise hpending
        · simp [State.set, hjk, Ne.symm hik, hk]
        · by_cases hmj : m = j
          · simp [State.set, hmj, hother i hik]
          · by_cases hmi : m = i
            · rw [hmi] at hmj
              simp [State.set, hmi, hmj]
            · simp [State.set, hmi, hmj, hother m hm]
  · exact h

lemma use_promise {i : ℕ} (hi : s.callbacks i = ⟨true, true⟩) (hpromise : s.promise = Promise.init)
    (hpending : s.pending = [useOf o]) :
    (step s (.use i)).promise = settled o ∧ (step s (.use i)).pending = [] := by
  have hmay : (s.callbacks i).alive = true ∧ (s.callbacks i).owns = true := by
    rw [hi]
    exact ⟨rfl, rfl⟩
  simp only [step, State.use, if_pos hmay, hpending]
  cases o with
  | none => simp [useOf, State.destruct, State.set, hi, hpromise, settled]
  | some signal => simp [useOf, hpromise, settled]

lemma use_inv (h : Inv o s) (i : ℕ) : Inv o (s.use i) := by
  by_cases hmay : (s.callbacks i).alive = true ∧ (s.callbacks i).owns = true
  · cases h with
    | settled hpromise hpending =>
      simp only [State.use, if_pos hmay, hpending]
      exact .settled hpromise hpending
    | owned k hk hother hpromise hpending =>
      have hik : i = k := by
        by_contra hik
        rw [hother i hik] at hmay
        cases hmay.2
      obtain ⟨hused, hdone⟩ := use_promise (hik ▸ hk) hpromise hpending
      exact .settled hused hdone
  · rw [State.use, if_neg hmay]
    exact h

lemma destroy_inv (h : Inv o s) (i : ℕ) : Inv o (s.destroy i) := by
  unfold State.destroy
  split_ifs with hmay
  · cases h with
    | settled hpromise hpending =>
      refine .settled ?_ hpending
      have habandon : s.promise.abandon = s.promise :=
        Promise.abandon_of_ready (by rw [hpromise]; exact settled_shared o)
      have hsame : (s.destruct i).promise = s.promise := by
        simp only [State.destruct, habandon, ite_self]
      exact hsame.trans hpromise
    | owned k hk hother hpromise hpending =>
      have howns : (s.callbacks i).owns = false := hmay.2.resolve_right (by simp [hpending])
      have hik : k ≠ i := by
        rintro rfl
        rw [hk] at howns
        cases howns
      refine .owned k ?_ (fun m hm => ?_) ?_ hpending
      · simp [State.destruct, State.set, hik, hk]
      · by_cases hmi : m = i
        · simp [State.destruct, State.set, hmi]
        · simp [State.destruct, State.set, hmi, hother m hm]
      · simp [State.destruct, howns, hpromise]
  · exact h

theorem step_inv (h : Inv o s) (a : Action) : Inv o (step s a) := by
  cases a with
  | move i j => exact move_inv h i j
  | use i => exact use_inv h i
  | destroy i => exact destroy_inv h i

lemma reaches_settled (h : Inv o s) :
    Reaches step (fun _ => True) (fun t => t.promise = settled o) s := by
  cases h with
  | settled hpromise _ => exact .now hpromise
  | owned i hi _ hpromise hpending =>
    exact .of_step (.use i) trivial (.now (use_promise hi hpromise hpending).1)

end invariant

theorem runToFuture_inv (b : ContinuableBase V E) (schedule : List Action) :
    Inv b.outcome (runToFuture b schedule) := by
  rw [runToFuture, b.handlerUses_eq]
  exact run_preserves (I := Inv b.outcome) (fun _ a h => step_inv h a) (init_inv _) schedule

/-! ### What is seen of the future -/

section runs

variable (b : ContinuableBase V E) (schedule : List Action)

lemma promise_init_or_settled : (runToFuture b schedule).promise = Promise.init ∨
    (runToFuture b schedule).promise = settled b.outcome := by
  cases runToFuture_inv b schedule with
  | owned _ _ _ hpromise _ => exact .inl hpromise
  | settled hpromise _ => exact .inr hpromise

lemma calls_le_one : (runToFuture b schedule).promise.calls.length ≤ 1 := by
  rcases promise_init_or_settled b schedule with hinit | hsettled
  · simp [hinit, Promise.init]
  · rw [hsettled]
    exact settled_calls b.outcome

lemma promise_of_fixed (h : ∀ a, step (runToFuture b schedule) a = runToFuture b schedule) :
    (runToFuture b schedule).promise = settled b.outcome := by
  cases runToFuture_inv b schedule with
  | settled hpromise _ => exact hpromise
  | owned i hi _ hpromise hpending =>
    have hused := (use_promise hi hpromise hpending).2
    rw [h (.use i), hpending] at hused
    cases hused

/-- Every run can go on until the promise is settled. -/
lemma exists_settled : ∃ more, (runToFuture b (schedule ++ more)).promise = settled b.outcome := by
  obtain ⟨more, -, hmore⟩ := reaches_settled (runToFuture_inv b schedule)
  exact ⟨more, by rw [runToFuture, run_append]; exact hmore⟩

lemma runToFuture_use : (runToFuture b [.use 0]).promise = settled b.outcome := by
  rw [runToFuture, b.handlerUses_eq, run_cons, run_nil]
  cases b.outcome with
  | none => rfl
  | some signal => rfl

end runs

end Continuable.ToFuture
