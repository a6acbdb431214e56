import Continuable.ResultVariantOperations

/-!
The tag of a result variant agrees with its storage, unless a payload throws at the wrong moment or
a variant is assigned to itself.
-/

namespace Continuable.ResultVariant

open Schedule Custody State

variable {s : State} {i j : ℕ} {v other : Variant} {kind : Kind}

lemma Orderly.step (h : Orderly s) {op : Operation} (hok : faulty s op = false) :
    Orderly (step s op) := by
  cases op with
  | default i =>
    simp only [ResultVariant.step]
    split
    · exact h.default ‹_›
    · exact h
  | fill i kind throws =>
    simp only [ResultVariant.step]
    split
    · exact h.fill ‹_› kind throws
    · exact h
  | moveConstruct i j throws =>
    simp only [ResultVariant.step]
    split
    · exact h.moveConstruct ‹_› ‹_› throws
    · exact h
  | moveAssign i j throws =>
    simp only [ResultVariant.step]
    split
    · next v other hi hj =>
      refine h.moveAssign hi hj fun hslot => ?_
      simpa [faulty, occupied, hi, hj, hslot] using hok
    · exact h
  | setEmpty i =>
    simp only [ResultVariant.step]
    split
    · exact h
    · exact h.clear ‹_›
  | assign i kind throws =>
    simp only [ResultVariant.step]
    split
    · exact h
    · next v hi =>
      refine h.assign hi kind fun hslot => ?_
      simpa [faulty, occupied, hi, hslot] using hok
  | destruct i =>
    simp only [ResultVariant.step]
    split
    · exact h
    · exact h.destruct ‹_›

lemma orderly_init : Orderly .init := by
  refine ⟨⟨rfl, fun _ => .unborn, ⟨?_, ?_, ?_, ?_⟩, by simp⟩, by simp [State.init]⟩ <;>
    simp [payloads, State.init]

lemma Orderly.consistent (h : Orderly s) : Consistent s := by
  obtain ⟨place, ht, hlost⟩ := h.accounted.tracked
  have halive : ∀ p, Alive s p ↔ ∃ i, place p = .held i := fun p => by
    simp only [ht.held, payloads, Option.map_eq_some_iff, Option.bind_eq_some_iff, Alive]
    constructor
    · rintro ⟨i, v, k, hv, hs⟩
      exact ⟨i, (k, p), ⟨v, hv, hs⟩, rfl⟩
    · rintro ⟨i, ⟨k, q⟩, ⟨v, hv, hs⟩, rfl⟩
      exact ⟨i, v, k, hv, hs⟩
  refine ⟨h.slots, h.accounted.sound, fun p hp => ?_⟩
  rw [halive]
  have hcount : s.destroyed.count p = if place p = .gone .used then 1 else 0 := ht.used p
  cases hpl : place p with
  | unborn =>
    have : s.constructed ≤ p := (ht.unborn p).1 hpl
    omega
  | held i => exact .inl ⟨⟨i, rfl⟩, by rw [hcount, hpl]; simp⟩
  | gone fate =>
    cases fate with
    | used => exact .inr ⟨by simp, by rw [hcount, hpl]; simp⟩
    | released => cases (ht.released p).2 hpl
    | lost => exact absurd hpl (hlost p)

/-! ### The operations that go wrong -/

lemma destroy_violated (h : s.violated = true) : (s.destroy i).violated = true := by
  unfold destroy
  repeat' split
  all_goals first | exact h | rfl

lemma retag_violated {slot : Slot} : (s.retag i slot).violated = s.violated := by
  unfold retag
  split <;> rfl

lemma construct_violated : (s.construct i kind).violated = s.violated := by
  unfold construct
  split <;> rfl

lemma read_variants : (s.read j kind).variants = s.variants := by
  unfold State.read
  repeat' split
  all_goals rfl

/-- What is alive in the variant is destroyed before it is moved. -/
lemma moveAssign_self_violates (h : Consistent s) (hi : s.variants i = some v)
    (hh : v.slot.holds = some kind) (throws : Bool) :
    (s.moveAssign i i v throws).violated = true := by
  have hd := destroy_eq hi (h.slots i v hi)
  have hread : (((s.destroy i).retag i v.slot).read i kind).violated = true := by
    simp [hd, retag, State.read, State.set, violate]
  simp only [State.moveAssign, hh]
  cases throws with
  | true => exact hread
  | false =>
    change (State.retag (State.destroy _ i) i .empty).violated = true
    rw [retag_violated]
    exact destroy_violated (by rw [construct_violated, hread])

/-- The tag was set before the payload was moved. -/
lemma moveAssign_throws_slot (h : Consistent s) (hi : s.variants i = some v)
    (hh : other.slot.holds = some kind) :
    (s.moveAssign i j other true).variants i = some ⟨other.slot, none⟩ := by
  have hd := destroy_eq hi (h.slots i v hi)
  simp [State.moveAssign, hh, read_variants, retag, hd, State.set]

lemma not_consistent_of_slot (hv : s.variants i = some ⟨v.slot, none⟩) (hslot : v.slot ≠ .empty) :
    ¬ Consistent s := fun h => hslot (holds_eq_none (h.slots i _ hv).symm)

lemma faulty_not_consistent (h : Consistent s) {op : Operation} (hf : faulty s op = true) :
    ¬ Consistent (step s op) := by
  cases op with
  | moveAssign i j throws =>
    simp only [faulty, Bool.and_eq_true, Bool.or_eq_true, decide_eq_true_eq, occupied,
      Option.any_eq_true] at hf
    obtain ⟨⟨hi, other, hj, hslot⟩, hcase⟩ := hf
    obtain ⟨v, hi⟩ := Option.isSome_iff_exists.1 hi
    obtain ⟨kind, hh⟩ := Option.ne_none_iff_exists'.1 fun hc => hslot (holds_eq_none hc)
    have hstep : step s (.moveAssign i j throws) = s.moveAssign i j other throws := by
      simp [step, hi, hj]
    rw [hstep]
    rcases hcase with hthrows | hij
    · subst hthrows
      exact not_consistent_of_slot (moveAssign_throws_slot h hi hh) hslot
    · subst hij
      cases hi.symm.trans hj
      intro hc
      have hsound := hc.sound
      rw [moveAssign_self_violates h hi hh throws] at hsound
      cases hsound
  | assign i kind throws =>
    simp only [faulty, Bool.and_eq_true, occupied, Option.any_eq_true, decide_eq_true_eq] at hf
    obtain ⟨⟨v, hi, hslot⟩, hthrows⟩ := hf
    have hstep : step s (.assign i kind throws) = s.destroy i := by
      simp [step, hi, State.assign, hthrows]
    have hd : (s.destroy i).variants i = some ⟨v.slot, none⟩ := by
      rw [destroy_eq hi (h.slots i v hi)]
      exact Function.update_self ..
    rw [hstep]
    exact not_consistent_of_slot hd hslot
  | default | fill | moveConstruct | setEmpty | destruct => cases hf

/-- Everything is consistent after every operation of a history, if and only if no operation of it
is a move assignment of a payload that throws or of a variant to itself, or an assignment over a
payload that throws. -/
theorem runVariants_consistent_iff (history : List Operation) :
    (∀ pre post, history = pre ++ post → Consistent (runVariants pre)) ↔
      Allowed step (fun s op => faulty s op = false) .init history := by
  constructor
  · intro h
    rw [allowed_iff]
    intro pre op post hsplit
    refine Bool.eq_false_of_not_eq_true fun hf => ?_
    have hstep : runVariants (pre ++ [op]) = step (runVariants pre) op := run_append step _ pre [op]
    refine faulty_not_consistent (h pre (op :: post) hsplit) hf ?_
    rw [← hstep]
    exact h (pre ++ [op]) post (by simp [hsplit])
  · rintro h pre post rfl
    have hrun : Orderly (runVariants pre) :=
      run_preserves_of_allowed (fun _ _ hs hok => hs.step hok) orderly_init pre h.initial
    exact hrun.consistent

/-- A move assignment throws, and the target says that it has the value. -/
theorem throwing_moveAssign_not_consistent :
    ¬ ∀ history : List Operation, Consistent (runVariants history) := by
  intro h
  have hslots := (h [.default 0, .fill 1 .value false, .moveAssign 0 1 true]).slots 0
    ⟨.value, none⟩ (by decide)
  cases hslots

end Continuable.ResultVariant
