import Continuable.Monitor
import Continuable.Primitives
import Continuable.Schedule

/-!
Waiting with a timeout.

The waiter and the callback of the continuable share a frame. The callback stores the result and
the flag and notifies the waiter without taking the mutex of the condition variable, so the
notification may come after the waiter has tested the flag and before it blocks.
-/

namespace Continuable.WaitUnsafe

open Schedule

inductive Thread
  | waiter
  | resolver
  deriving DecidableEq

/-- `wait_frame`. -/
structure Frame (V E : Type) where
  cv : Monitor Thread
  rwMutex : Option Thread
  ready : Bool
  syncResult : Result V E

/-- Where the thread in `wait_unsafe` is: the continuable is started, the flag is tested before
and inside of the wait, and the result is read. -/
inductive Waiter (V E : Type)
  | starting
  | check
  | lock
  | test
  | block
  | waiting
  | expired
  | unlock
  | lockResult
  | read
  | unlockResult (result : Result V E)
  | returned (result : Result V E)

/-- Where the thread in `unlocker::unlock` is. -/
inductive Resolver (V E : Type)
  | idle
  | lockFrame (result : Result V E)
  | lockResult (result : Result V E)
  | write (result : Result V E)
  | unlockResult
  | store
  | notify
  | leave
  | left

structure State (V E : Type) where
  frame : Frame V E
  acquired : Bool
  waiter : Waiter V E
  resolver : Resolver V E

/-- The `unlocker` is called, or destroyed with the empty result; the waiter wakes up by itself
or its time is over. -/
inductive Action (V E : Type)
  | waiter
  | wake
  | timeout
  | unlock (result : Result V E)
  | resolver

variable {V E : Type}

def init : State V E := ⟨⟨Monitor.init, none, false, .empty⟩, true, .starting, .idle⟩

namespace State

def setCv (s : State V E) (cv : Monitor Thread) : State V E :=
  { s with frame := { s.frame with cv } }

def setRwMutex (s : State V E) (rwMutex : Option Thread) : State V E :=
  { s with frame := { s.frame with rwMutex } }

/-- A step of `wait_unsafe`. The predicate is tested under the mutex, and a wait that is over
tests it once more without looking at the result. -/
def waiterStep (s : State V E) : State V E :=
  match s.waiter with
  | .starting => { s with waiter := .check }
  | .check => { s with waiter := if s.frame.ready then .lockResult else .lock }
  | .lock =>
    if s.frame.cv.holder = none then { s.setCv (s.frame.cv.lock .waiter) with waiter := .test }
    else s
  | .test => { s with waiter := if s.frame.ready then .unlock else .block }
  | .block => { s.setCv (s.frame.cv.block .waiter) with waiter := .waiting }
  | .waiting =>
    if s.frame.cv.blocked .waiter = false ∧ s.frame.cv.holder = none then
      { s.setCv (s.frame.cv.lock .waiter) with waiter := .test }
    else s
  | .expired =>
    if s.frame.cv.holder = none then { s.setCv (s.frame.cv.lock .waiter) with waiter := .unlock }
    else s
  | .unlock => { s.setCv s.frame.cv.unlock with waiter := .lockResult }
  | .lockResult =>
    if s.frame.rwMutex = none then { s.setRwMutex (some .waiter) with waiter := .read } else s
  | .read => { s with waiter := .unlockResult s.frame.syncResult }
  | .unlockResult result => { s.setRwMutex none with waiter := .returned result }
  | .returned _ => s

def wake (s : State V E) : State V E :=
  match s.waiter with
  | .waiting => s.setCv (s.frame.cv.wake .waiter)
  | _ => s

def timeout (s : State V E) : State V E :=
  match s.waiter with
  | .waiting => { s.setCv (s.frame.cv.wake .waiter) with waiter := .expired }
  | _ => s

/-- `unlocker::unlock` is entered; only the first call has the ownership. -/
def unlock (s : State V E) (result : Result V E) : State V E :=
  if s.acquired then { s with acquired := false, resolver := .lockFrame result } else s

/-- A step of `unlocker::unlock`. The frame is gone once the waiter has returned. -/
def resolverStep (s : State V E) : State V E :=
  match s.resolver with
  | .idle | .left => s
  | .lockFrame result =>
    match s.waiter with
    | .returned _ => { s with resolver := .left }
    | _ => { s with resolver := .lockResult result }
  | .lockResult result =>
    if s.frame.rwMutex = none then
      { s.setRwMutex (some .resolver) with resolver := .write result }
    else s
  | .write result =>
    { s with frame := { s.frame with syncResult := result }, resolver := .unlockResult }
  | .unlockResult => { s.setRwMutex none with resolver := .store }
  | .store => { s with frame := { s.frame with ready := true }, resolver := .notify }
  | .notify => { s.setCv s.frame.cv.notifyAll with resolver := .leave }
  | .leave => { s with resolver := .left }

end State

def step (s : State V E) : Action V E → State V E
  | .waiter => s.waiterStep
  | .wake => s.wake
  | .timeout => s.timeout
  | .unlock result => s.unlock result
  | .resolver => s.resolverStep

/-- Every run of `wait_unsafe` on a continuable that is not ready. -/
def runWaitUnsafe (schedule : List (Action V E)) : State V E := run step init schedule

/-- The waiter is blocked, and nothing will wake it. -/
def Lost (s : State V E) : Prop :=
  s.resolver = .left ∧ s.frame.ready = true ∧ s.waiter = .waiting ∧
    s.frame.cv.blocked .waiter = true

/-- The waiter is notified after it has tested the flag and before it blocks. -/
def misses (s : State V E) : Action V E → Bool
  | .resolver => (s.resolver matches .notify) && (s.waiter matches .block)
  | .waiter | .wake | .timeout | .unlock _ => false

/-! ### The flag -/

/-- The flag is set before the waiter is notified. -/
structure Inv (s : State V E) : Prop where
  notify : s.resolver = .notify ∨ s.resolver = .leave → s.frame.ready = true
  left : s.resolver = .left → s.frame.ready = true ∨ ∃ result, s.waiter = .returned result

section invariant

variable {s : State V E}

lemma init_inv : Inv (init : State V E) := ⟨by simp [init], by simp [init]⟩

lemma waiterStep_spec (s : State V E) :
    s.waiterStep.resolver = s.resolver ∧ s.waiterStep.frame.ready = s.frame.ready ∧
      ∀ result, s.waiter = .returned result → s.waiterStep.waiter = .returned result := by
  unfold State.waiterStep
  cases hw : s.waiter with
  | returned result => exact ⟨rfl, rfl, fun r hr => by rw [hw, hr]⟩
  | lock => split_ifs <;> exact ⟨rfl, rfl, fun _ hr => by cases hr⟩
  | waiting => split_ifs <;> exact ⟨rfl, rfl, fun _ hr => by cases hr⟩
  | expired => split_ifs <;> exact ⟨rfl, rfl, fun _ hr => by cases hr⟩
  | lockResult => split_ifs <;> exact ⟨rfl, rfl, fun _ hr => by cases hr⟩
  | _ => exact ⟨rfl, rfl, fun _ hr => by cases hr⟩

lemma unlock_inv (h : Inv s) (result : Result V E) : Inv (s.unlock result) := by
  unfold State.unlock
  split_ifs
  · exact ⟨by simp, by simp⟩
  · exact h

lemma resolverStep_inv (h : Inv s) : Inv s.resolverStep := by
  unfold State.resolverStep
  cases hr : s.resolver with
  | idle => exact h
  | left => exact h
  | lockFrame result =>
    cases hw : s.waiter with
    | returned r => exact ⟨by simp, fun _ => .inr ⟨r, rfl⟩⟩
    | _ => exact ⟨by simp, by simp⟩
  | lockResult result =>
    simp only
    split_ifs
    · exact ⟨by simp, by simp⟩
    · exact h
  | write result => exact ⟨by simp, by simp⟩
  | unlockResult => exact ⟨by simp, by simp⟩
  | store => exact ⟨fun _ => rfl, by simp⟩
  | notify => exact ⟨fun _ => h.notify (.inl hr), by simp⟩
  | leave => exact ⟨by simp, fun _ => .inl (h.notify (.inr hr))⟩

lemma wake_spec (s : State V E) :
    s.wake.resolver = s.resolver ∧ s.wake.frame.ready = s.frame.ready ∧
      s.wake.waiter = s.waiter := by
  unfold State.wake
  split <;> exact ⟨rfl, rfl, rfl⟩

lemma timeout_spec (s : State V E) :
    s.timeout.resolver = s.resolver ∧ s.timeout.frame.ready = s.frame.ready ∧
      ∀ result, s.waiter = .returned result → s.timeout.waiter = .returned result := by
  unfold State.timeout
  cases hw : s.waiter with
  | waiting => exact ⟨rfl, rfl, fun _ hr => by cases hr⟩
  | _ => exact ⟨rfl, rfl, fun _ hr => by rw [hw, hr]⟩

lemma inv_of_waiter {s' : State V E} (h : Inv s) (hresolver : s'.resolver = s.resolver)
    (hready : s'.frame.ready = s.frame.ready)
    (hreturned : ∀ result, s.waiter = .returned result → s'.waiter = .returned result) :
    Inv s' := by
  constructor
  · rw [hresolver, hready]
    exact h.notify
  · rw [hresolver, hready]
    exact fun hl => (h.left hl).imp_right fun ⟨result, hr⟩ => ⟨result, hreturned result hr⟩

theorem step_inv (h : Inv s) (a : Action V E) : Inv (step s a) := by
  cases a with
  | waiter =>
    obtain ⟨hresolver, hready, hreturned⟩ := waiterStep_spec s
    exact inv_of_waiter h hresolver hready hreturned
  | wake =>
    obtain ⟨hresolver, hready, hwaiter⟩ := wake_spec s
    exact inv_of_waiter h hresolver hready fun _ hr => hwaiter.trans hr
  | timeout =>
    obtain ⟨hresolver, hready, hreturned⟩ := timeout_spec s
    exact inv_of_waiter h hresolver hready hreturned
  | unlock result => exact unlock_inv h result
  | resolver => exact resolverStep_inv h

theorem run_inv (schedule : List (Action V E)) : Inv (run step (init : State V E) schedule) :=
  run_preserves (I := Inv) (fun _ a h => step_inv h a) init_inv schedule

end invariant

/-! ### The notification -/

/-- Once it was notified, the waiter neither is blocked nor about to block. -/
def Awake (s : State V E) : Prop :=
  s.resolver = .leave ∨ s.resolver = .left →
    s.waiter ≠ .block ∧ (s.waiter = .waiting → s.frame.cv.blocked .waiter = false)

section notification

variable {s : State V E}

lemma ready_of_notified (h : Inv s) (hr : s.resolver = .leave ∨ s.resolver = .left) :
    s.frame.ready = true ∨ ∃ result, s.waiter = .returned result := by
  rcases hr with hr | hr
  · exact .inl (h.notify (.inr hr))
  · exact h.left hr

lemma waiterStep_awake (h : Inv s) (ha : Awake s) : Awake s.waiterStep := by
  intro hr
  rw [(waiterStep_spec s).1] at hr
  obtain ⟨hblock, hwaiting⟩ := ha hr
  have hready := ready_of_notified h hr
  unfold State.waiterStep
  cases hw : s.waiter with
  | starting => simp
  | check => simp only; split_ifs <;> simp
  | lock => simp only; split_ifs <;> simp [hw]
  | test =>
    -- the flag is set, so the test does not fail
    have hset : s.frame.ready = true := hready.resolve_right (by simp [hw])
    simp [hset]
  | block => exact absurd hw hblock
  | waiting => simp only; split_ifs <;> simp [hw, hwaiting hw]
  | expired => simp only; split_ifs <;> simp [hw]
  | unlock => simp
  | lockResult => simp only; split_ifs <;> simp [hw]
  | read => simp
  | unlockResult result => simp
  | returned result => simp [hw]

lemma resolverStep_awake (ha : Awake s) (hok : misses s .resolver = false) :
    Awake s.resolverStep := by
  unfold State.resolverStep
  cases hr : s.resolver with
  | idle => exact ha
  | left => exact ha
  | lockFrame result =>
    cases s.waiter <;> simp [Awake]
  | lockResult result =>
    simp only
    split_ifs
    · simp [Awake]
    · exact ha
  | write result => simp [Awake]
  | unlockResult => simp [Awake]
  | store => simp [Awake]
  | notify =>
    intro _
    refine ⟨fun hw => ?_, fun _ => rfl⟩
    simp only [State.setCv] at hw
    simp [misses, hr, hw] at hok
  | leave => exact fun _ => ha (.inl hr)

theorem step_awake (h : Inv s) (ha : Awake s) {a : Action V E} (hok : misses s a = false) :
    Awake (step s a) := by
  cases a with
  | waiter => exact waiterStep_awake h ha
  | resolver => exact resolverStep_awake ha hok
  | unlock result =>
    rw [step, State.unlock]
    split_ifs
    · simp [Awake]
    · exact ha
  | wake =>
    rw [step, State.wake]
    split
    · exact fun hr => ⟨(ha hr).1, fun _ => Monitor.wake_blocked _ _⟩
    · exact ha
  | timeout =>
    rw [step, State.timeout]
    split
    · exact fun _ => ⟨by simp, by simp⟩
    · exact ha

end notification

/-- **Lost wakeups.** In a run in which no notification comes between a test of the flag and the
block that follows it, the waiter is never left blocked. In every other run it is left blocked
when it and the callback go on from there. -/
theorem runWaitUnsafe_lost (schedule : List (Action V E)) :
    (Allowed step (fun s a => misses s a = false) init schedule →
      ∀ pre post, schedule = pre ++ post → ¬ Lost (runWaitUnsafe pre)) ∧
    (¬ Allowed step (fun s a => misses s a = false) init schedule →
      ∃ pre a post, schedule = pre ++ a :: post ∧
        Lost (runWaitUnsafe (pre ++ [a, .waiter, .resolver]))) := by
  constructor
  · rintro hallowed pre post rfl ⟨hleft, -, hwaiting, hblocked⟩
    have hstep : ∀ (s : State V E) a, Inv s ∧ Awake s → misses s a = false →
        Inv (step s a) ∧ Awake (step s a) :=
      fun s a h hok => ⟨step_inv h.1 a, step_awake h.1 h.2 hok⟩
    have hinit : Inv (init : State V E) ∧ Awake (init : State V E) :=
      ⟨init_inv, by simp [Awake, init]⟩
    have hawake := (run_preserves_of_allowed hstep hinit pre hallowed.initial).2
    have hwoken := (hawake (.inr hleft)).2 hwaiting
    rw [runWaitUnsafe] at hblocked
    rw [hwoken] at hblocked
    cases hblocked
  · intro hmissed
    rw [allowed_iff] at hmissed
    push Not at hmissed
    obtain ⟨pre, a, post, rfl, hmiss⟩ := hmissed
    refine ⟨pre, a, post, rfl, ?_⟩
    have hinv := run_inv (V := V) (E := E) pre
    rw [runWaitUnsafe, run_append]
    generalize run step (init : State V E) pre = s at hmiss hinv ⊢
    obtain ⟨rfl, hr, hw⟩ : a = .resolver ∧ s.resolver = .notify ∧ s.waiter = .block := by
      cases a with
      | resolver =>
        refine ⟨rfl, ?_⟩
        cases hr : s.resolver <;> cases hw : s.waiter <;> simp [misses, hr, hw] at hmiss ⊢
      | _ => simp [misses] at hmiss
    have hready := hinv.notify (.inl hr)
    simp [Lost, run, step, State.resolverStep, State.waiterStep, State.setCv, hr, hw, hready]

/-- The waiter tests the flag, the callback does all of its work, and the waiter blocks. -/
def notifiedTooEarly : List (Action ℕ Empty) :=
  [.waiter, .waiter, .waiter, .waiter, .unlock (.value [1]), .resolver, .resolver, .resolver,
    .resolver, .resolver, .resolver, .waiter, .resolver]

theorem notifiedTooEarly_lost : Lost (runWaitUnsafe notifiedTooEarly) := ⟨rfl, rfl, rfl, rfl⟩

/-- The waiter is blocked when it is notified. -/
def notifiedInTime : List (Action ℕ Empty) :=
  [.waiter, .waiter, .waiter, .waiter, .waiter, .unlock (.value [1]), .resolver, .wake, .resolver,
    .resolver, .resolver, .waiter, .waiter, .waiter, .resolver, .resolver, .resolver, .waiter]

theorem notifiedInTime_notLost :
    (∀ pre post, notifiedInTime = pre ++ post → ¬ Lost (runWaitUnsafe pre)) ∧
      ∃ pre a post, notifiedTooEarly = pre ++ a :: post ∧
        Lost (runWaitUnsafe (pre ++ [a, .waiter, .resolver])) :=
  ⟨(runWaitUnsafe_lost notifiedInTime).1 (by decide),
    (runWaitUnsafe_lost notifiedTooEarly).2 (by decide)⟩

end Continuable.WaitUnsafe
