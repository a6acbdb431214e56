import Mathlib.Data.List.Count
import Mathlib.Logic.Function.Basic

/-!
`std::call_once` with the call stacks of the threads.

The first call on a flag runs its function, and every call that comes while the function runs
waits until it has returned; calls that come later return at once. A function that reaches the
same flag again therefore waits for itself.
-/

namespace Continuable.CallOnce

inductive Flag
  | unset
  | running
  | done
  deriving DecidableEq

/-- A call on the flag that has not returned. -/
inductive Frame
  | running
  | waiting
  deriving DecidableEq

/-- A flag, the calls on it that each thread is inside of, the innermost one first, and the
functions that were run. -/
structure Once (γ : Type) where
  flag : Flag
  stack : ℕ → List Frame
  calls : List γ

variable {γ : Type}

namespace Once

def init : Once γ := ⟨.unset, fun _ => [], []⟩

/-- A thread calls `call_once`. -/
def enter (o : Once γ) (t : ℕ) (c : γ) : Once γ :=
  match o.flag with
  | .unset =>
    { flag := .running, stack := Function.update o.stack t (.running :: o.stack t),
      calls := o.calls ++ [c] }
  | .running => { o with stack := Function.update o.stack t (.waiting :: o.stack t) }
  | .done => o

/-- The function that a thread runs returns. -/
def leave (o : Once γ) (t : ℕ) : Once γ :=
  match o.stack t with
  | .running :: rest => { o with flag := .done, stack := Function.update o.stack t rest }
  | _ => o

/-- A thread that waits goes on, once the function has returned. -/
def wake (o : Once γ) (t : ℕ) : Once γ :=
  match o.stack t with
  | .waiting :: rest =>
    if o.flag = .done then { o with stack := Function.update o.stack t rest } else o
  | _ => o

/-- The thread does not wait. -/
def Free (o : Once γ) (t : ℕ) : Prop := (o.stack t).head? ≠ some .waiting

instance (o : Once γ) (t : ℕ) : Decidable (o.Free t) :=
  inferInstanceAs (Decidable ((o.stack t).head? ≠ some .waiting))

/-- The thread is inside of the function that the flag runs. -/
def Inside (o : Once γ) (t : ℕ) : Prop := .running ∈ o.stack t

instance (o : Once γ) (t : ℕ) : Decidable (o.Inside t) :=
  inferInstanceAs (Decidable (.running ∈ o.stack t))

/-- The thread waits for a call that is below on its own stack. -/
def SelfWaits (o : Once γ) (t : ℕ) : Prop :=
  ∃ above below, o.stack t = above ++ .waiting :: below ∧ .running ∈ below

structure Inv (o : Once γ) : Prop where
  calls : (o.flag = .unset ∧ o.calls = []) ∨ (o.flag ≠ .unset ∧ o.calls.length = 1)
  running : ∀ t, o.Inside t → o.flag = .running
  unique : ∀ t u, o.Inside t → o.Inside u → t = u
  single : ∀ t, (o.stack t).count .running ≤ 1

/-- No thread is inside of more than one call. -/
def Shallow (o : Once γ) : Prop := ∀ t, (o.stack t).length ≤ 1

end Once

open Once

variable {o : Once γ}

lemma init_inv : Inv (init : Once γ) :=
  ⟨Or.inl ⟨rfl, rfl⟩, by simp [Inside, init], by simp [Inside, init], by simp [init]⟩

lemma Once.Inv.calls_le (h : Inv o) : o.calls.length ≤ 1 := by
  rcases h.calls with ⟨-, hc⟩ | ⟨-, hc⟩
  · simp [hc]
  · omega

lemma enter_inv (h : Inv o) (t : ℕ) (c : γ) : Inv (o.enter t c) := by
  unfold Once.enter
  cases hf : o.flag with
  | done => exact h
  | running =>
    have hinside : ∀ u, .running ∈ Function.update o.stack t (.waiting :: o.stack t) u →
        o.Inside u := by
      intro u hu
      by_cases hut : u = t
      · subst hut; simpa [Inside] using hu
      · simpa [Inside, Function.update_of_ne hut] using hu
    refine ⟨?_, fun u _ => rfl, fun u w hu hw => h.unique u w (hinside u hu) (hinside w hw),
      fun u => ?_⟩
    · rcases h.calls with ⟨hu, -⟩ | hc
      · rw [hf] at hu; cases hu
      · exact Or.inr ⟨by simp, hc.2⟩
    · by_cases hut : u = t
      · subst hut
        simpa using h.single u
      · simpa [Function.update_of_ne hut] using h.single u
  | unset =>
    have hnone : ∀ u, ¬ o.Inside u := fun u hu => by have := h.running u hu; simp [hf] at this
    have hcount : ∀ u, (o.stack u).count .running = 0 := fun u =>
      List.count_eq_zero.2 (hnone u)
    have hinside : ∀ u, .running ∈ Function.update o.stack t (.running :: o.stack t) u →
        u = t := by
      intro u hu
      by_contra hut
      rw [Function.update_of_ne hut] at hu
      exact hnone u hu
    refine ⟨Or.inr ⟨by simp, ?_⟩, fun u _ => rfl, fun u w hu hw =>
      (hinside u hu).trans (hinside w hw).symm, fun u => ?_⟩
    · rcases h.calls with ⟨-, hc⟩ | ⟨hn, -⟩
      · simp [hc]
      · exact absurd hf hn
    · by_cases hut : u = t
      · subst hut
        simp [hcount]
      · simp [Function.update_of_ne hut, hcount]

lemma inside_of_pop {t : ℕ} {f : Frame} {rest : List Frame} (hs : o.stack t = f :: rest) {u : ℕ}
    (hu : .running ∈ Function.update o.stack t rest u) : o.Inside u := by
  by_cases hut : u = t
  · subst hut
    rw [Function.update_self] at hu
    rw [Inside, hs]
    exact List.mem_cons_of_mem _ hu
  · simpa [Inside, Function.update_of_ne hut] using hu

lemma single_of_pop (h : Inv o) {t : ℕ} {f : Frame} {rest : List Frame}
    (hs : o.stack t = f :: rest) (u : ℕ) :
    (Function.update o.stack t rest u).count .running ≤ 1 := by
  have hu := h.single u
  by_cases hut : u = t
  · subst hut
    rw [hs, List.count_cons] at hu
    rw [Function.update_self]
    omega
  · rwa [Function.update_of_ne hut]

lemma leave_inv (h : Inv o) (t : ℕ) : Inv (o.leave t) := by
  unfold Once.leave
  split
  · next rest hs =>
    have ht : o.Inside t := by rw [Inside, hs]; exact List.mem_cons_self
    -- the frame that returned was the only one that runs
    have hnone : ∀ u, .running ∉ Function.update o.stack t rest u := by
      intro u hu
      obtain rfl := h.unique u t (inside_of_pop hs hu) ht
      have := h.single u
      rw [hs, List.count_cons_self] at this
      rw [Function.update_self] at hu
      have := List.count_pos_iff.2 hu
      omega
    refine ⟨Or.inr ⟨by simp, ?_⟩, fun u hu => absurd hu (hnone u),
      fun u _ hu => absurd hu (hnone u), single_of_pop h hs⟩
    rcases h.calls with ⟨hf, -⟩ | ⟨-, hc⟩
    · rw [h.running t ht] at hf; cases hf
    · exact hc
  · exact h

lemma wake_inv (h : Inv o) (t : ℕ) : Inv (o.wake t) := by
  unfold Once.wake
  split
  · next rest hs =>
    split_ifs with hf
    · exact ⟨h.calls, fun u hu => h.running u (inside_of_pop hs hu),
        fun u w hu hw => h.unique u w (inside_of_pop hs hu) (inside_of_pop hs hw),
        single_of_pop h hs⟩
    · exact h
  · exact h

lemma leave_calls (o : Once γ) (t : ℕ) : (o.leave t).calls = o.calls := by
  unfold Once.leave
  split <;> rfl

lemma wake_calls (o : Once γ) (t : ℕ) : (o.wake t).calls = o.calls := by
  unfold Once.wake
  split
  · split_ifs <;> rfl
  · rfl

lemma Once.Inv.calls_ne_nil (h : Inv o) {t : ℕ} (ht : o.Inside t) : o.calls ≠ [] := by
  intro hn
  rcases h.calls with ⟨hf, -⟩ | ⟨-, hc⟩
  · rw [h.running t ht] at hf; cases hf
  · rw [hn] at hc; cases hc

/-! ### Waiting for oneself -/

lemma not_selfWaits_of_shallow (h : o.Shallow) (t : ℕ) : ¬ o.SelfWaits t := by
  rintro ⟨above, below, hs, hb⟩
  have hlen := h t
  rw [hs, List.length_append, List.length_cons] at hlen
  have := List.length_pos_of_mem hb
  omega

/-- A call from inside of the function that the flag runs waits for itself. -/
lemma enter_selfWaits (h : Inv o) {t : ℕ} (ht : o.Inside t) (c : γ) :
    (o.enter t c).SelfWaits t := by
  refine ⟨[], o.stack t, ?_, ht⟩
  simp [Once.enter, h.running t ht]

lemma shallow_update (h : o.Shallow) (t : ℕ) {l : List Frame} (hl : l.length ≤ 1) (u : ℕ) :
    (Function.update o.stack t l u).length ≤ 1 := by
  by_cases hut : u = t
  · subst hut; rwa [Function.update_self]
  · rw [Function.update_of_ne hut]; exact h u

lemma enter_shallow (h : o.Shallow) {t : ℕ} (hfree : o.Free t) (ht : ¬ o.Inside t) (c : γ) :
    (o.enter t c).Shallow := by
  have hnil : o.stack t = [] := by
    unfold Free at hfree
    unfold Inside at ht
    cases hs : o.stack t with
    | nil => rfl
    | cons f rest =>
      rw [hs] at hfree ht
      cases f with
      | running => exact absurd List.mem_cons_self ht
      | waiting => exact absurd rfl hfree
  unfold Once.enter
  cases o.flag with
  | done => exact h
  | running => exact shallow_update h t (by simp [hnil])
  | unset => exact shallow_update h t (by simp [hnil])

lemma leave_shallow (h : o.Shallow) (t : ℕ) : (o.leave t).Shallow := by
  unfold Once.leave
  split
  · next rest hs =>
    have := h t
    rw [hs, List.length_cons] at this
    exact shallow_update h t (by omega)
  · exact h

lemma wake_shallow (h : o.Shallow) (t : ℕ) : (o.wake t).Shallow := by
  unfold Once.wake
  split
  · next rest hs =>
    split_ifs with hf
    · have := h t
      rw [hs, List.length_cons] at this
      exact shallow_update h t (by omega)
    · exact h
  · exact h

/-! ### Waiting for others -/

/-- A flag runs on some thread, and nobody waits on a flag that was not reached. -/
structure Once.Live (o : Once γ) : Prop where
  inside : o.flag = .running → ∃ t, o.Inside t
  waits : ∀ t, .waiting ∈ o.stack t → o.flag ≠ .unset

lemma init_live : Live (init : Once γ) := ⟨by simp [init], by simp [init]⟩

lemma enter_live (h : o.Live) (t : ℕ) (c : γ) : (o.enter t c).Live := by
  unfold Once.enter
  cases hf : o.flag with
  | done => exact h
  | unset => exact ⟨fun _ => ⟨t, by simp [Inside]⟩, fun u _ => by simp⟩
  | running =>
    obtain ⟨u, hu⟩ := h.inside hf
    refine ⟨fun _ => ⟨u, ?_⟩, fun w _ => by simp⟩
    by_cases hut : u = t
    · subst hut
      simpa [Inside] using hu
    · simpa [Inside, Function.update_of_ne hut] using hu

lemma leave_live (h : o.Live) (t : ℕ) : (o.leave t).Live := by
  unfold Once.leave
  split
  · exact ⟨by simp, fun u _ => by simp⟩
  · exact h

lemma wake_live (h : o.Live) (t : ℕ) : (o.wake t).Live := by
  unfold Once.wake
  split
  · next rest hs =>
    split_ifs with hf
    · exact ⟨by simp [hf], fun u _ => by simp [hf]⟩
    · exact h
  · exact h

lemma stack_of_inside (hs : o.Shallow) {t : ℕ} (ht : o.Inside t) : o.stack t = [.running] := by
  have hlen := hs t
  cases hstack : o.stack t with
  | nil =>
    rw [Inside, hstack] at ht
    cases ht
  | cons f rest =>
    rw [hstack, List.length_cons] at hlen
    obtain rfl : rest = [] := List.length_eq_zero_iff.1 (by omega)
    rw [Inside, hstack, List.mem_singleton] at ht
    rw [ht]

/-- A thread returns from its call: at once, or after the function of another thread has
returned. -/
lemma exists_idle (hs : o.Shallow) (hl : o.Live) (t : ℕ) :
    o.stack t = [] ∨ (o.leave t).stack t = [] ∨
      ∃ u, ((o.leave u).wake t).stack t = [] := by
  cases hstack : o.stack t with
  | nil => exact Or.inl rfl
  | cons f rest =>
    have hlen := hs t
    rw [hstack, List.length_cons] at hlen
    obtain rfl : rest = [] := List.length_eq_zero_iff.1 (by omega)
    cases f with
    | running =>
      refine Or.inr (Or.inl ?_)
      simp [Once.leave, hstack]
    | waiting =>
      refine Or.inr (Or.inr ?_)
      have hflag := hl.waits t (by simp [hstack])
      cases hf : o.flag with
      | unset => exact absurd hf hflag
      | done =>
        refine ⟨t, ?_⟩
        simp [Once.leave, Once.wake, hstack, hf]
      | running =>
        obtain ⟨u, hu⟩ := hl.inside hf
        have hut : t ≠ u := by
          rintro rfl
          rw [Inside, hstack] at hu
          simp at hu
        refine ⟨u, ?_⟩
        simp [Once.leave, Once.wake, stack_of_inside hs hu, Function.update_of_ne hut, hstack]

end Continuable.CallOnce
