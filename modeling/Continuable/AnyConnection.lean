import Continuable.CallOnce
import Continuable.Schedule
import Continuable.Primitives

/-!
The submitter of an `any` connection, with the call stacks of the threads.

Every resolution of a member calls the downstream callback through `std::call_once`. The
callback is arbitrary code, which runs while the call has not returned and may resolve other
members on its own thread.
-/

namespace Continuable.Any

open Schedule CallOnce

/-- The state of an `any_result_submitter`, with the resolutions so far. The dispatch loop runs
on thread zero, beneath everything else on the stack of that thread. -/
structure State (V E : Type) where
  started : ℕ
  resolutions : List (ℕ × Signal V E)
  once : Once (Signal V E)

inductive Action (V E : Type)
  | start
  | resolve (t i : ℕ) (signal : Signal V E)
  | leave (t : ℕ)
  | wake (t : ℕ)

variable {V E : Type}

def init : State V E := ⟨0, [], Once.init⟩

/-- A member that was started may resolve once, on a thread that does not wait. -/
def MayResolve (s : State V E) (t i : ℕ) : Prop :=
  i < s.started ∧ i ∉ s.resolutions.map Prod.fst ∧ s.once.Free t

instance (s : State V E) (t i : ℕ) : Decidable (MayResolve s t i) :=
  inferInstanceAs (Decidable (_ ∧ _ ∧ _))

/-- A step of a connection of `n` members. `continuable_dispatcher` starts the next one;
`any_result_submitter::invoke` calls `std::call_once`. -/
def step (n : ℕ) (s : State V E) : Action V E → State V E
  | .start =>
    if s.started < n ∧ s.once.stack 0 = [] then { s with started := s.started + 1 } else s
  | .resolve t i signal =>
    if MayResolve s t i then
      { s with resolutions := s.resolutions ++ [(i, signal)], once := s.once.enter t signal }
    else s
  | .leave t => { s with once := s.once.leave t }
  | .wake t => { s with once := s.once.wake t }

/-- Every run of the dispatch loop, the members and the downstream callback. -/
def runAny (n : ℕ) (schedule : List (Action V E)) : State V E := run (step n) init schedule

/-- A member is resolved from inside of the downstream callback of the connection. -/
def Reenters (s : State V E) : Action V E → Prop
  | .resolve t i _ => MayResolve s t i ∧ s.once.Inside t
  | _ => False

instance (s : State V E) : (a : Action V E) → Decidable (Reenters s a)
  | .resolve t i _ => inferInstanceAs (Decidable (MayResolve s t i ∧ s.once.Inside t))
  | .start | .leave _ | .wake _ => inferInstanceAs (Decidable False)

section invariant

variable {n : ℕ} {s : State V E}

/-- The downstream callback was called with the first resolution, if there was one. -/
structure Inv (n : ℕ) (s : State V E) : Prop where
  started_le : s.started ≤ n
  once : s.once.Inv
  calls : s.once.calls = (s.resolutions.head?.map Prod.snd).toList
  members : ∀ r ∈ s.resolutions, r.1 < s.started
  nodup : (s.resolutions.map Prod.fst).Nodup

lemma init_inv (n : ℕ) : Inv n (init : State V E) :=
  ⟨Nat.zero_le n, CallOnce.init_inv, rfl, by simp [init], List.nodup_nil⟩

lemma calls_eq_nil_iff (h : s.once.Inv) : s.once.calls = [] ↔ s.once.flag = .unset := by
  rcases h.calls with ⟨hf, hc⟩ | ⟨hf, hc⟩
  · simp [hf, hc]
  · refine ⟨fun hn => ?_, fun hu => absurd hu hf⟩
    rw [hn] at hc
    cases hc

lemma enter_calls (o : Once (Signal V E)) (t : ℕ) (c : Signal V E) :
    (o.enter t c).calls = if o.flag = .unset then o.calls ++ [c] else o.calls := by
  unfold Once.enter
  cases o.flag <;> rfl

lemma resolve_inv (h : Inv n s) {t i : ℕ} (hmay : MayResolve s t i) (signal : Signal V E) :
    Inv n { s with
      resolutions := s.resolutions ++ [(i, signal)], once := s.once.enter t signal } := by
  obtain ⟨hi, hnew, -⟩ := hmay
  refine ⟨h.started_le, enter_inv h.once t signal, ?_, ?_, ?_⟩
  · simp only
    rw [enter_calls]
    have hnil := calls_eq_nil_iff h.once
    have hcalls := h.calls
    cases hr : s.resolutions with
    | nil =>
      rw [hr] at hcalls
      rw [if_pos (hnil.1 hcalls), hcalls]
      rfl
    | cons r rest =>
      rw [hr] at hcalls
      have hset : s.once.flag ≠ .unset := fun hu => by
        rw [hnil.2 hu] at hcalls
        cases hcalls
      rw [if_neg hset, hcalls]
      rfl
  · intro r hr
    rcases List.mem_append.1 hr with hr | hr
    · exact h.members r hr
    · obtain rfl : r = (i, signal) := by simpa using hr
      exact hi
  · simp only [List.map_append, List.map_cons, List.map_nil]
    rw [List.nodup_append]
    refine ⟨h.nodup, List.nodup_singleton i, ?_⟩
    rintro a ha b hb rfl
    obtain rfl : a = i := by simpa using hb
    exact hnew ha

theorem step_inv (h : Inv n s) (a : Action V E) : Inv n (step n s a) := by
  cases a with
  | start =>
    simp only [step]
    split_ifs with hg
    · exact ⟨hg.1, h.once, h.calls, fun r hr => Nat.lt_succ_of_lt (h.members r hr), h.nodup⟩
    · exact h
  | resolve t i signal =>
    simp only [step]
    split_ifs with hg
    · exact resolve_inv h hg signal
    · exact h
  | leave t =>
    exact ⟨h.started_le, leave_inv h.once t, (leave_calls _ t).trans h.calls, h.members,
      h.nodup⟩
  | wake t =>
    exact ⟨h.started_le, wake_inv h.once t, (wake_calls _ t).trans h.calls, h.members, h.nodup⟩

theorem runAny_inv (n : ℕ) (schedule : List (Action V E)) : Inv n (runAny n schedule) :=
  run_preserves (I := Inv n) (fun _ a h => step_inv h a) (init_inv n) schedule

end invariant

/-! ### Re-entry -/

lemma step_shallow {n : ℕ} {s : State V E} (a : Action V E) (h : s.once.Shallow)
    (hok : ¬ Reenters s a) : (step n s a).once.Shallow := by
  cases a with
  | start =>
    simp only [step]
    split_ifs
    · exact h
    · exact h
  | resolve t i signal =>
    simp only [step]
    split_ifs with hmay
    · exact enter_shallow h hmay.2.2 (fun hin => hok ⟨hmay, hin⟩) signal
    · exact h
  | leave t => exact leave_shallow h t
  | wake t => exact wake_shallow h t

/-- **An `any` connection and its own handler**: no thread comes to wait for itself if and only
if no member is resolved from inside of the downstream callback. -/
theorem not_selfWaits_iff (n : ℕ) (schedule : List (Action V E)) :
    (∀ pre post, schedule = pre ++ post → ∀ t, ¬ (runAny n pre).once.SelfWaits t) ↔
      Allowed (step n) (fun s a => ¬ Reenters s a) init schedule := by
  have hbad : ∀ (s : State V E) a, Inv n s → ¬ ¬ Reenters s a →
      ∃ t, (step n s a).once.SelfWaits t := by
    intro s a hinv hre
    cases a with
    | resolve t i signal =>
      obtain ⟨hmay, hin⟩ := not_not.1 hre
      simp only [step, if_pos hmay]
      exact ⟨t, enter_selfWaits hinv.once hin signal⟩
    | start => exact absurd id hre
    | leave t => exact absurd id hre
    | wake t => exact absurd id hre
  have hiff := avoids_iff_allowed (J := fun s => s.once.Shallow) (fun _ a h => step_inv h a)
    (fun _ a _ h hok => step_shallow a h hok)
    (fun _ h => not_exists.2 (not_selfWaits_of_shallow h)) hbad (init_inv n)
    (fun _ => Nat.zero_le 1) schedule
  simp only [not_exists] at hiff
  exact hiff

end Continuable.Any
