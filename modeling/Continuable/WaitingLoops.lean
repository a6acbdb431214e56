import Continuable.Waiting

/-!
Loops over computations that wait for events.

The body of a loop comes to what the loop goes on with, or to what the loop comes to. A loop comes
to what it comes to in some number of iterations; it is a fixed point of its body.
-/

namespace Continuable.Waiting.Wait

variable {ε α β : Type}

/-- Nothing is ever come to. -/
def never : Wait ε α := ⟨fun _ => none, fun _ _ _ h => by cases h⟩

@[simp] lemma never_known (l : List ε) : (never : Wait ε α).known l = none := rfl

@[simp] lemma never_after (e : ε) : (never : Wait ε α).after e = never := rfl

lemma never_bind (f : α → Wait ε β) : (never : Wait ε α).bind f = never := by
  ext l : 2
  induction l with
  | nil => exact bind_known_nil rfl
  | cons e l ih => rw [← after_known, bind_after rfl, never_after, ih, never_known, never_known]

/-- What is at hand, if anything ever is. -/
def ofOption : Option α → Wait ε α
  | some a => now a
  | none => never

lemma bind_ofOption_known (w : Wait ε α) (f : α → Option β) (l : List ε) :
    (w.bind fun a => ofOption (f a)).known l = (w.known l).bind f := by
  have hof : ∀ (o : Option β) (m : List ε), (ofOption o : Wait ε β).known m = o := by
    intro o m
    cases o <;> rfl
  induction l generalizing w with
  | nil =>
    cases hw : w.known [] with
    | some a => rw [bind_of_some hw, hof, Option.bind_some]
    | none => rw [bind_known_nil hw, Option.bind_none]
  | cons e l ih =>
    cases hw : w.known [] with
    | some a => rw [bind_of_some hw, hof, known_of_nil hw, Option.bind_some]
    | none => rw [← after_known, bind_after hw, ih, after_known]

/-- What is known of a computation that goes on is known of what it goes on with, unless nothing is
known whatever that is. -/
lemma bind_known_cases (w : Wait ε α) (l : List ε) :
    (∀ f : α → Wait ε β, (w.bind f).known l = none) ∨
      ∃ a m, ∀ f : α → Wait ε β, (w.bind f).known l = (f a).known m := by
  induction l generalizing w with
  | nil =>
    cases hw : w.known [] with
    | some a => exact .inr ⟨a, [], fun f => by rw [bind_of_some hw]⟩
    | none => exact .inl fun f => bind_known_nil hw
  | cons e l ih =>
    cases hw : w.known [] with
    | some a => exact .inr ⟨a, e :: l, fun f => by rw [bind_of_some hw]⟩
    | none =>
      have hafter : ∀ f : α → Wait ε β, (w.bind f).known (e :: l) = ((w.after e).bind f).known l :=
        fun f => by rw [← bind_after hw, after_known]
      simp only [hafter]
      exact ih (w.after e)

lemma bind_mono {w : Wait ε α} {f g : α → Wait ε β}
    (h : ∀ a l b, (f a).known l = some b → (g a).known l = some b) {l : List ε} {b : β}
    (hf : (w.bind f).known l = some b) : (w.bind g).known l = some b := by
  rcases bind_known_cases (β := β) w l with hnone | ⟨a, m, hknown⟩
  · rw [hnone f] at hf
    cases hf
  · rw [hknown] at hf ⊢
    exact h a m b hf

/-! ### Iterations -/

variable (body : α → Wait ε (α ⊕ β))

/-- What a loop comes to in at most `n` iterations. -/
def iterate : ℕ → α → Wait ε β
  | 0, _ => never
  | n + 1, a => (body a).bind (Sum.elim (iterate n) now)

variable {body} {a : α} {b : β} {l : List ε}

lemma iterate_succ_known {n : ℕ} (h : (iterate body n a).known l = some b) :
    (iterate body (n + 1) a).known l = some b := by
  induction n generalizing a l b with
  | zero => cases h
  | succ n ih =>
    refine bind_mono (fun x l b hx => ?_) h
    cases x with
    | inl a => exact ih hx
    | inr b' => exact hx

lemma iterate_mono {n m : ℕ} (hnm : n ≤ m) (h : (iterate body n a).known l = some b) :
    (iterate body m a).known l = some b := by
  induction hnm with
  | refl => exact h
  | step _ ih => exact iterate_succ_known ih

lemma iterate_unique {n m : ℕ} {b' : β} (h : (iterate body n a).known l = some b)
    (h' : (iterate body m a).known l = some b') : b = b' := by
  have hn := iterate_mono (Nat.le_max_left n m) h
  have hm := iterate_mono (Nat.le_max_right n m) h'
  exact Option.some.inj (hn.symm.trans hm)

variable (body) in
open Classical in
/-- What a loop comes to in any number of iterations. -/
noncomputable def loop (a : α) : Wait ε β where
  known l := if h : ∃ b n, (iterate body n a).known l = some b then some h.choose else none
  stays l e b hb := by
    split_ifs at hb with h
    obtain ⟨n, hn⟩ := h.choose_spec
    rw [Option.some.inj hb] at hn
    have hstays := (iterate body n a).stays l e b hn
    have hlater : ∃ b n, (iterate body n a).known (l ++ [e]) = some b := ⟨b, n, hstays⟩
    obtain ⟨m, hm⟩ := hlater.choose_spec
    rw [dif_pos hlater, iterate_unique hm hstays]

lemma loop_known_iff :
    (loop body a).known l = some b ↔ ∃ n, (iterate body n a).known l = some b := by
  classical
  change (if h : ∃ b n, (iterate body n a).known l = some b then some h.choose else none) =
    some b ↔ _
  constructor
  · intro hb
    split_ifs at hb with h
    obtain ⟨n, hn⟩ := h.choose_spec
    exact ⟨n, Option.some.inj hb ▸ hn⟩
  · rintro ⟨n, hn⟩
    have h : ∃ b n, (iterate body n a).known l = some b := ⟨b, n, hn⟩
    obtain ⟨m, hm⟩ := h.choose_spec
    rw [dif_pos h, iterate_unique hm hn]

lemma exists_iterate (body : α → Wait ε (α ⊕ β)) (a : α) (l : List ε) :
    ∃ enough, ∀ n ≥ enough, (iterate body n a).known l = (loop body a).known l := by
  cases hl : (loop body a).known l with
  | some b =>
    obtain ⟨enough, hb⟩ := loop_known_iff.1 hl
    exact ⟨enough, fun n hn => iterate_mono hn hb⟩
  | none =>
    refine ⟨0, fun n _ => ?_⟩
    cases hn : (iterate body n a).known l with
    | none => rfl
    | some b =>
      rw [loop_known_iff.2 ⟨n, hn⟩] at hl
      cases hl

/-- **A loop is a fixed point of its body.** -/
theorem loop_eq (body : α → Wait ε (α ⊕ β)) (a : α) :
    loop body a = (body a).bind (Sum.elim (loop body) now) := by
  ext l b
  rw [loop_known_iff]
  constructor
  · rintro ⟨_ | n, hn⟩
    · cases hn
    · refine bind_mono (fun x l b hx => ?_) hn
      cases x with
      | inl a' => exact loop_known_iff.2 ⟨n, hx⟩
      | inr b' => exact hx
  · intro hb
    rcases bind_known_cases (β := β) (body a) l with hnone | ⟨x, m, hknown⟩
    · rw [hnone] at hb
      cases hb
    · rw [hknown] at hb
      cases x with
      | inl a' =>
        obtain ⟨n, hn⟩ := loop_known_iff.1 hb
        exact ⟨n + 1, (hknown (Sum.elim (iterate body n) now)).trans hn⟩
      | inr b' => exact ⟨1, (hknown (Sum.elim (iterate body 0) now)).trans hb⟩

end Continuable.Waiting.Wait
