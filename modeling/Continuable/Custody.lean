import Mathlib.Data.List.Count
import Mathlib.Logic.Function.Basic

/-!
Custody of numbered items that must each be used once.

Every item is held in one slot from its creation on. It may be handed over to another slot, and
it leaves the last slot by being used, by being let go of deliberately, or by getting lost. What
happened to each item is tracked by a function, so that an item cannot be in two places.
-/

namespace Continuable.Custody

/-- How an item leaves the slot that held it. -/
inductive Fate
  | used
  | released
  | lost
  deriving DecidableEq

/-- Slots with what they hold, and records of the items that were used and released. -/
structure Slots where
  content : ℕ → Option ℕ
  created : ℕ
  used : List ℕ
  released : List ℕ

/-- Where an item is. -/
inductive Place
  | unborn
  | held (slot : ℕ)
  | gone (fate : Fate)
  deriving DecidableEq

namespace Slots

def create (c : Slots) (i : ℕ) : Slots :=
  { c with content := Function.update c.content i (some c.created), created := c.created + 1 }

/-- Hand what one slot holds over to another one, which holds nothing. -/
def transfer (c : Slots) (i j : ℕ) : Slots :=
  { c with content := Function.update (Function.update c.content j (c.content i)) i none }

/-- What a slot holds leaves it. -/
def leave (c : Slots) (i : ℕ) (fate : Fate) : Slots :=
  { c with
    content := Function.update c.content i none
    used := if fate = .used then c.used ++ (c.content i).toList else c.used
    released := if fate = .released then c.released ++ (c.content i).toList else c.released }

end Slots

/-- The function says where each item is. -/
structure Tracks (place : ℕ → Place) (c : Slots) : Prop where
  held : ∀ x i, place x = .held i ↔ c.content i = some x
  unborn : ∀ x, place x = .unborn ↔ c.created ≤ x
  used : ∀ x, c.used.count x = if place x = .gone .used then 1 else 0
  released : ∀ x, x ∈ c.released ↔ place x = .gone .released

/-- Move the items of one slot to another place. -/
def relocate (place : ℕ → Place) (i : ℕ) (p : Place) : ℕ → Place :=
  fun x => if place x = .held i then p else place x

variable {place : ℕ → Place} {c : Slots}

lemma create_tracks (h : Tracks place c) {i : ℕ} (hi : c.content i = none) :
    Tracks (Function.update place c.created (.held i)) (c.create i) := by
  have hnew : place c.created = .unborn := (h.unborn _).2 (Nat.le_refl _)
  refine ⟨fun x j => ?_, fun x => ?_, fun x => ?_, fun x => ?_⟩
  · simp only [Slots.create]
    by_cases hx : x = c.created
    · subst hx
      rw [Function.update_self]
      by_cases hj : j = i
      · subst hj; simp
      · rw [Function.update_of_ne hj]
        have : c.content j ≠ some c.created := fun hc => by
          rw [(h.held _ j).2 hc] at hnew; cases hnew
        simp [this, Ne.symm hj]
    · rw [Function.update_of_ne hx, h.held]
      by_cases hj : j = i
      · subst hj; simp [hi, Ne.symm hx]
      · rw [Function.update_of_ne hj]
  · simp only [Slots.create]
    by_cases hx : x = c.created
    · subst hx; simp
    · rw [Function.update_of_ne hx, h.unborn]
      omega
  · simp only [Slots.create]
    rw [h.used]
    by_cases hx : x = c.created
    · subst hx; simp [hnew]
    · rw [Function.update_of_ne hx]
  · simp only [Slots.create]
    rw [h.released]
    by_cases hx : x = c.created
    · subst hx; simp [hnew]
    · rw [Function.update_of_ne hx]

lemma transfer_tracks (h : Tracks place c) {i j : ℕ} (hij : i ≠ j) (hj : c.content j = none) :
    Tracks (relocate place i (.held j)) (c.transfer i j) := by
  have hnone : ∀ x, place x ≠ .held j := fun x hx => by
    rw [(h.held x j).1 hx] at hj; cases hj
  refine ⟨fun x k => ?_, fun x => ?_, fun x => ?_, fun x => ?_⟩
  · simp only [Slots.transfer, relocate]
    by_cases hki : k = i
    · subst hki
      rw [Function.update_self]
      split_ifs with hx
      · simp [Ne.symm hij]
      · simp [hx]
    · rw [Function.update_of_ne hki]
      by_cases hkj : k = j
      · subst hkj
        rw [Function.update_self, ← h.held]
        split_ifs with hx
        · simp [hx]
        · simp [hx, hnone]
      · rw [Function.update_of_ne hkj, ← h.held]
        split_ifs with hx
        · simp [hx, Ne.symm hkj, Ne.symm hki]
        · rfl
  · simp only [Slots.transfer, relocate]
    rw [← h.unborn]
    split_ifs with hx
    · simp [hx]
    · rfl
  · simp only [Slots.transfer, relocate]
    rw [h.used]
    split_ifs with h1 h2 h3 h4 <;> simp_all
  · simp only [Slots.transfer, relocate]
    rw [h.released]
    split_ifs with hx
    · simp [hx]
    · rfl

lemma leave_tracks (h : Tracks place c) (i : ℕ) (fate : Fate) :
    Tracks (relocate place i (.gone fate)) (c.leave i fate) := by
  have hcontent : ∀ x, x ∈ (c.content i).toList ↔ place x = .held i := by
    intro x
    rw [h.held, Option.mem_toList]
  refine ⟨fun x k => ?_, fun x => ?_, fun x => ?_, fun x => ?_⟩
  · simp only [Slots.leave, relocate]
    by_cases hki : k = i
    · subst hki
      rw [Function.update_self]
      split_ifs with hx
      · simp
      · simp [hx]
    · rw [Function.update_of_ne hki, ← h.held]
      split_ifs with hx
      · simp [hx, Ne.symm hki]
      · rfl
  · simp only [Slots.leave, relocate]
    rw [← h.unborn]
    split_ifs with hx
    · simp [hx]
    · rfl
  · have hcount : (c.content i).toList.count x = if place x = .held i then 1 else 0 := by
      rw [List.Nodup.count (by cases c.content i <;> simp)]
      simp only [hcontent]
    simp only [Slots.leave, relocate]
    have hused := h.used x
    cases fate with
    | used =>
      rw [if_pos rfl, List.count_append, hcount, hused]
      by_cases hx : place x = .held i
      · simp [hx]
      · simp [hx]
    | released =>
      rw [if_neg (by decide), hused]
      by_cases hx : place x = .held i
      · simp [hx]
      · simp [hx]
    | lost =>
      rw [if_neg (by decide), hused]
      by_cases hx : place x = .held i
      · simp [hx]
      · simp [hx]
  · simp only [Slots.leave, relocate]
    have hreleased := h.released x
    cases fate with
    | used =>
      rw [if_neg (by decide), hreleased]
      by_cases hx : place x = .held i
      · simp [hx]
      · simp [hx]
    | released =>
      rw [if_pos rfl, List.mem_append, hcontent, hreleased]
      by_cases hx : place x = .held i
      · simp [hx]
      · simp [hx]
    | lost =>
      rw [if_neg (by decide), hreleased]
      by_cases hx : place x = .held i
      · simp [hx]
      · simp [hx]

end Continuable.Custody
