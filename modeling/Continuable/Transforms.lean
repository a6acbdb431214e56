import Continuable.ToFuture
import Continuable.WaitProgress

/-!
When `wait` and `to_future` agree.

Both end a continuable with a handler of their own, and see what it ends with unless that is a
cancellation: `wait` tests the exception for null, while the callback of `to_future` stores it in
the promise untested.
-/

namespace Continuable.Transforms

open StdPromise WaitAndUnpack ToFuture

variable {V E : Type}

/-- `get` on the future of a continuable. -/
def futureGet (b : ContinuableBase V E) (schedule : List ToFuture.Action) :
    Option (Except (StdPromise.Failure E) (Boxed V)) :=
  (runToFuture b schedule).promise.get

/-- What `wait` and `get` make of the way a continuable ends. -/
def SameEnding : Outcome V E → Except (WaitAndUnpack.Failure E) (Boxed V) →
    Except (StdPromise.Failure E) (Boxed V) → Prop
  | some (.value vs), w, f => w = .ok (boxed vs) ∧ f = .ok (boxed vs)
  | some (.exception (some e)), w, f => w = .error (.rethrown e) ∧ f = .error (.rethrown e)
  | some (.exception none), w, f => w = .error .waitTransformCanceled ∧ ∃ x, f = .error x
  | none, w, f => (∃ x, w = .error x) ∧ ∃ x, f = .error x

/-- On every run both transforms observe the same ending. Neither blocks for ever: every run can go
on until there is something to observe, and there is when nothing is left to do. Spurious wakeups
of the waiter are not counted upon. The promise is satisfied at most once, and never with a null
exception. -/
structure Agree (b : ContinuableBase V E) : Prop where
  same : ∀ waited received w f, waitAndUnpack b waited = some w →
    futureGet b received = some f → SameEnding b.outcome w f
  waits : ∀ schedule, ∃ more, (∀ a ∈ more, a ≠ .wake) ∧
    (waitAndUnpack b (schedule ++ more)).isSome = true
  gets : ∀ schedule, ∃ more, (futureGet b (schedule ++ more)).isSome = true
  waited : ∀ schedule,
    (∀ a, a ≠ .wake → WaitAndUnpack.step (runWait b schedule) a = runWait b schedule) →
    (waitAndUnpack b schedule).isSome = true
  received : ∀ schedule, (∀ a, ToFuture.step (runToFuture b schedule) a = runToFuture b schedule) →
    (futureGet b schedule).isSome = true
  nonNull : ∀ schedule, .setException none ∉ (runToFuture b schedule).promise.calls
  once : ∀ schedule, (runToFuture b schedule).promise.calls.length ≤ 1

/-! ### The future of a continuable that is not cancelled -/

section future

variable {o : Outcome V E}

/-- What the future fails or succeeds with. -/
def expected : Outcome V E → Except (StdPromise.Failure E) (Boxed V)
  | some (.value vs) => .ok (boxed vs)
  | some (.exception (some e)) => .error (.rethrown e)
  | _ => .error .brokenPromise

lemma get_settled (h : o ≠ some (.exception none)) :
    (settled o : Promise (Boxed V) E).get = some (expected o) := by
  rcases o with _ | ⟨vs | _ | e⟩
  · rfl
  · rfl
  · exact absurd rfl h
  · rfl

lemma sameEnding_expected (h : o ≠ some (.exception none)) :
    SameEnding o (unpacked (resultOf o)) (expected o) := by
  rcases o with _ | ⟨vs | _ | e⟩
  · exact ⟨⟨_, rfl⟩, _, rfl⟩
  · exact ⟨rfl, rfl⟩
  · exact absurd rfl h
  · exact ⟨rfl, rfl⟩

lemma nonNull_settled (h : o ≠ some (.exception none)) :
    .setException none ∉ (settled o : Promise (Boxed V) E).calls := by
  rcases o with _ | ⟨vs | _ | e⟩
  · simp [settled, Promise.abandon, Promise.init]
  · simp [settled, promiseCallback, resolve, Promise.set, Promise.init]
  · exact absurd rfl h
  · simp [settled, promiseCallback, Promise.set, Promise.init]

end future

lemma agree_of_ne {b : ContinuableBase V E} (h : b.outcome ≠ some (.exception none)) :
    Agree b where
  same waited received w f hw hf := by
    have hpromise : (runToFuture b received).promise = settled b.outcome := by
      rcases promise_init_or_settled b received with hinit | hsettled
      · rw [futureGet, hinit] at hf
        cases hf
      · exact hsettled
    rw [futureGet, hpromise, get_settled h] at hf
    obtain rfl : expected b.outcome = f := Option.some.inj hf
    rw [waitAndUnpack_of_some b waited hw]
    exact sameEnding_expected h
  waits schedule := by
    obtain ⟨more, hwake, hmore⟩ := exists_waitAndUnpack b schedule
    exact ⟨more, hwake, by rw [hmore]; rfl⟩
  gets schedule := by
    obtain ⟨more, hmore⟩ := exists_settled b schedule
    exact ⟨more, by rw [futureGet, hmore, get_settled h]; rfl⟩
  waited schedule hfixed := by
    rw [waitAndUnpack_of_fixed b schedule hfixed]
    rfl
  received schedule hfixed := by
    rw [futureGet, promise_of_fixed b schedule hfixed, get_settled h]
    rfl
  nonNull schedule := by
    rcases promise_init_or_settled b schedule with hinit | hsettled
    · simp [hinit, Promise.init]
    · rw [hsettled]
      exact nonNull_settled h
  once := calls_le_one b

/-- **When `wait` and `to_future` observe the same ending**: if and only if the continuable does not
end with a cancellation. -/
theorem agree_iff (b : ContinuableBase V E) : Agree b ↔ b.outcome ≠ some (.exception none) := by
  refine ⟨fun h hcancelled => ?_, agree_of_ne⟩
  -- the chain calls the callback, which stores the null exception
  refine h.nonNull [.use 0] ?_
  rw [runToFuture_use, hcancelled]
  exact List.mem_singleton_self _

/-- `make_cancelling_continuable`. -/
def makeCancellingContinuable : ContinuableBase V E := .chain (.ready 0 (.exception none))

/-- `wait` throws, and the promise is called with a null exception. -/
theorem makeCancellingContinuable_disagrees :
    ¬ Agree (makeCancellingContinuable : ContinuableBase ℕ ℕ) ∧
      waitAndUnpack (makeCancellingContinuable : ContinuableBase ℕ ℕ) [] =
        some (.error .waitTransformCanceled) ∧
      (runToFuture (makeCancellingContinuable : ContinuableBase ℕ ℕ) [.use 0]).promise =
        ⟨.undefined, [.setException none]⟩ := by
  refine ⟨fun h => ?_, rfl, rfl⟩
  exact h.nonNull [.use 0] (List.mem_singleton_self _)

end Continuable.Transforms
