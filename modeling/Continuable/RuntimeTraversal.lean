import Continuable.AsyncTraversalSpec
import Continuable.LoopAnswers
import Continuable.RuntimeSequences

/-!
Sequences in event loops go through the asynchronous traversal.

The frame of `when_seq` recurses over what is left of the pack. That is what the traversal of the
boxes does between two continuables that it starts, and what it goes on with when the handlers of
one call the resume callable.
-/

namespace Continuable.Runtime

open ChainDestruction (Use)
open Traversal (Visitor acceptedLeaves)
open ResumableLoop (Loop)

variable {V E : Type}

/-- An element of the boxed pack. -/
structure Slot (V E : Type) where
  position : ℕ
  arg : V ⊕ Continuation V E

/-- `box_continuables` on a flat pack. -/
def boxContinuables (first : ℕ) : List (V ⊕ Continuation V E) → List (Slot V E)
  | [] => []
  | a :: rest => ⟨first, a⟩ :: boxContinuables (first + 1) rest

/-- `unbox_continuables`: the elements with the boxes in the place of the continuables. -/
def filled (boxes : ℕ → List V) (first : ℕ) : List (V ⊕ Continuation V E) → List (List V)
  | [] => []
  | .inl v :: rest => [v] :: filled boxes (first + 1) rest
  | .inr _ :: rest => boxes first :: filled boxes (first + 1) rest

section traversal

variable (garbage : ℕ → List V) (results : ℕ → Use V E) (args : List (V ⊕ Continuation V E))

/-- `sequential_dispatch_visitor` over the boxes and the callback of `sequential_dispatch_data`,
where the continuables that are started come to the results. -/
def sequentialTraversal : Visitor ((ℕ → List V) × List (Use V E)) (Slot V E) where
  accepts s := s.arg.isRight
  visit s d :=
    match s.arg with
    | .inl _ => (true, d)
    | .inr c =>
      match c.isReady, c.unpack with
      | true, some r =>
        (true, Function.update d.1 s.position (unpackInto (garbage s.position) r), d.2)
      | _, _ => (false, d)
  detach _ d := (.kept, d)
  wake s d :=
    match results s.position with
    | .called (.value vs) => (true, Function.update d.1 s.position vs, d.2)
    | u => (false, d.1, d.2 ++ [u])
  resumed _ d := d
  complete d := (d.1, d.2 ++ [.called (.value (filled d.1 0 args).flatten)])

/-- The continuable that was started last comes to its result. -/
def settleLast : Move (SeqData V E) V E → Move (SeqData V E) V E
  | .start s _ =>
    match (sequentialDispatchVisitor garbage).resume s (results s.boxes.length) with
    | .inl s => (sequentialDispatchVisitor garbage).advance s
    | .inr u => .stop u
  | m => m

/-- The loop over the boxes is where the frame is. -/
def Corresponds (m : Move (SeqData V E) V E)
    (l : Loop ((ℕ → List V) × List (Use V E)) (Slot V E)) : Prop :=
  match m with
  | .start s c => ∃ before, args = before ++ .inr c :: s.rest ∧
      s.boxes = filled l.user.1 0 before ∧ l.user.2 = [] ∧
      l.pending = some (⟨before.length, .inr c⟩,
        (boxContinuables (before.length + 1) s.rest).filter fun s => s.arg.isRight)
  | .stop u => l.user.2 = [u] ∧ l.pending = none
  | .leak => False

end traversal

section correspondence

variable {garbage : ℕ → List V} {results : ℕ → Use V E}

lemma length_boxContinuables (first : ℕ) (args : List (V ⊕ Continuation V E)) :
    (boxContinuables first args).length = args.length := by
  induction args generalizing first with
  | nil => rfl
  | cons a rest ih => rw [boxContinuables, List.length_cons, List.length_cons, ih]

lemma filled_append (boxes : ℕ → List V) (first : ℕ) (l m : List (V ⊕ Continuation V E)) :
    filled boxes first (l ++ m) = filled boxes first l ++ filled boxes (first + l.length) m := by
  induction l generalizing first with
  | nil => rfl
  | cons a l ih =>
    rcases a with v | c <;>
      simp only [List.cons_append, filled, ih, List.length_cons, Nat.add_assoc, Nat.add_comm 1]

lemma length_filled (boxes : ℕ → List V) (first : ℕ) (l : List (V ⊕ Continuation V E)) :
    (filled boxes first l).length = l.length := by
  induction l generalizing first with
  | nil => rfl
  | cons a l ih => rcases a with v | c <;> simp only [filled, List.length_cons, ih]

lemma filled_update (boxes : ℕ → List V) (first i : ℕ) (vs : List V)
    (l : List (V ⊕ Continuation V E)) (hi : first + l.length ≤ i) :
    filled (Function.update boxes i vs) first l = filled boxes first l := by
  induction l generalizing first with
  | nil => rfl
  | cons a l ih =>
    rw [List.length_cons] at hi
    rcases a with v | c
    · simp only [filled, ih (first + 1) (by omega)]
    · have hne : first ≠ i := by omega
      simp only [filled, ih (first + 1) (by omega), Function.update_of_ne hne]

lemma acceptedLeaves_boxContinuables (args : List (V ⊕ Continuation V E)) (first : ℕ)
    (rest : List (V ⊕ Continuation V E)) :
    acceptedLeaves (sequentialTraversal garbage results args).accepts
        ((boxContinuables first rest).map .leaf) =
      (boxContinuables first rest).filter fun s => s.arg.isRight := by
  induction rest generalizing first with
  | nil => rfl
  | cons a rest ih =>
    simp only [boxContinuables, List.map_cons, acceptedLeaves, Traversal.Pack.accepted, ih]
    rcases a with v | c <;> rfl

lemma filled_snoc (boxes : ℕ → List V) (before : List (V ⊕ Continuation V E))
    (a : V ⊕ Continuation V E) :
    filled boxes 0 (before ++ [a]) =
      filled boxes 0 before ++ filled boxes before.length [a] := by
  rw [filled_append, Nat.zero_add]

lemma filled_assign (boxes : ℕ → List V) (before : List (V ⊕ Continuation V E))
    (c : Continuation V E) (vs : List V) :
    filled (Function.update boxes before.length vs) 0 (before ++ [.inr c]) =
      filled boxes 0 before ++ [vs] := by
  have hbefore : filled (Function.update boxes before.length vs) 0 before =
      filled boxes 0 before := filled_update _ _ _ _ _ (Nat.zero_add _).le
  simp only [filled_snoc, hbefore, filled, Function.update_self]

section visitor

variable {args : List (V ⊕ Continuation V E)} {i : ℕ} {c : Continuation V E}
variable (d : (ℕ → List V) × List (Use V E))

lemma visit_of_unpack {r : Result V E} (hready : c.isReady = true) (hunpack : c.unpack = some r) :
    (sequentialTraversal garbage results args).visit ⟨i, .inr c⟩ d =
      (true, Function.update d.1 i (unpackInto (garbage i) r), d.2) := by
  simp only [sequentialTraversal, hready, hunpack]

lemma wake_of_values {vs : List V} (h : results i = .called (.value vs)) :
    (sequentialTraversal garbage results args).wake ⟨i, .inr c⟩ d =
      (true, Function.update d.1 i vs, d.2) := by
  simp only [sequentialTraversal, h]

lemma wake_of_ends {u : Use V E} (h : results i = u) (hu : ∀ vs, u ≠ .called (.value vs)) :
    (sequentialTraversal garbage results args).wake ⟨i, .inr c⟩ d =
      (false, d.1, d.2 ++ [u]) := by
  rcases u with (vs | e) | _
  · exact absurd rfl (hu vs)
  · simp only [sequentialTraversal, h]
  · simp only [sequentialTraversal, h]

end visitor

variable (garbage results) in
/-- Between two continuables that are started, the loop goes through the boxes as the frame does
through the pack. -/
lemma run_corresponds {args before rest : List (V ⊕ Continuation V E)}
    (hargs : args = before ++ rest) {l : Loop ((ℕ → List V) × List (Use V E)) (Slot V E)}
    (hcallback : l.user.2 = []) (hpending : l.pending = none) :
    Corresponds args (visit garbage (filled l.user.1 0 before) rest)
      (Loop.run (sequentialTraversal garbage results args).toBody
        ((boxContinuables before.length rest).filter fun s => s.arg.isRight) l) := by
  induction rest generalizing before l with
  | nil =>
    rw [List.append_nil] at hargs
    refine ⟨?_, hpending⟩
    simp only [boxContinuables, List.filter_nil, Loop.run, sequentialTraversal, Loop.emit, hargs]
    rw [hcallback]
    rfl
  | cons a rest ih =>
    have hsplit : args = (before ++ [a]) ++ rest := by rw [hargs, List.append_assoc]; rfl
    have hlength : (before ++ [a]).length = before.length + 1 := List.length_append
    rcases a with v | c
    · have hrest := ih hsplit hcallback hpending
      rw [hlength, filled_snoc] at hrest
      exact hrest
    · have hslots : (boxContinuables before.length (.inr c :: rest)).filter
          (fun s => s.arg.isRight) = ⟨before.length, .inr c⟩ ::
            (boxContinuables (before.length + 1) rest).filter fun s => s.arg.isRight := rfl
      rw [hslots, visit]
      split
      · -- the box is assigned at once
        next r hready hunpack =>
        have hvisit : (sequentialTraversal garbage results args).visit ⟨before.length, .inr c⟩
            l.user = (true, Function.update l.user.1 before.length
              (unpackInto (garbage before.length) r), l.user.2) :=
          visit_of_unpack l.user hready hunpack
        rw [Loop.run_of_continues _ _ (by rw [hvisit]), hvisit, length_filled]
        have hrest := ih hsplit (l := (l.emit (.visit ⟨before.length, .inr c⟩)).withUser
          (Function.update l.user.1 before.length (unpackInto (garbage before.length) r),
            l.user.2)) hcallback hpending
        rw [hlength, Loop.withUser, filled_assign] at hrest
        exact hrest
      · -- the continuable is started
        next hnot =>
        have hvisit : (sequentialTraversal garbage results args).visit ⟨before.length, .inr c⟩
            l.user = (false, l.user) := by
          simp only [sequentialTraversal]
        have huser : (Loop.handed (sequentialTraversal garbage results args).toBody
            ⟨before.length, .inr c⟩ l).user = l.user := by
          change ((sequentialTraversal garbage results args).visit _ l.user).2 = l.user
          rw [hvisit]
        rw [Loop.run_of_declines _ _ (by rw [hvisit])]
        exact ⟨before, hargs, congrArg (fun d => filled d.1 0 before) huser.symm,
          (congrArg Prod.snd huser).trans hcallback, rfl⟩

/-- The handlers of the continuable that was started last use the callback. -/
lemma wake_stops {args : List (V ⊕ Continuation V E)} {i : ℕ} {c : Continuation V E}
    {rest : List (Slot V E)} {l : Loop ((ℕ → List V) × List (Use V E)) (Slot V E)} {u : Use V E}
    (hpending : l.pending = some (⟨i, .inr c⟩, rest)) (hcallback : l.user.2 = [])
    (hr : results i = u) (hu : ∀ vs, u ≠ .called (.value vs)) :
    Corresponds args (.stop u)
      (Loop.wake (sequentialTraversal garbage results args).toBody l) := by
  have hwake : (sequentialTraversal garbage results args).wake ⟨i, .inr c⟩ l.user =
      (false, l.user.1, l.user.2 ++ [u]) := wake_of_ends l.user hr hu
  rw [Loop.wake_of_pending _ _ hpending, if_neg (by rw [hwake]; exact Bool.false_ne_true)]
  refine ⟨?_, rfl⟩
  change ((sequentialTraversal garbage results args).wake ⟨i, .inr c⟩ l.user).2.2 = [u]
  rw [hwake, hcallback]
  rfl

lemma wake_corresponds {args : List (V ⊕ Continuation V E)} {m : Move (SeqData V E) V E}
    {l : Loop ((ℕ → List V) × List (Use V E)) (Slot V E)} (h : Corresponds args m l) :
    Corresponds args (settleLast garbage results m)
      (Loop.wake (sequentialTraversal garbage results args).toBody l) := by
  cases m with
  | leak => exact h.elim
  | stop u =>
    obtain ⟨hcallback, hpending⟩ := h
    simp only [settleLast, Loop.wake, hpending]
    exact ⟨hcallback, hpending⟩
  | start s c =>
    obtain ⟨before, hargs, hboxes, hcallback, hpending⟩ := h
    have hlength : s.boxes.length = before.length := by rw [hboxes, length_filled]
    rw [settleLast, hlength]
    rcases hr : results before.length with (vs | e) | _
    · -- the box is assigned, and both go on behind it
      have hwake : (sequentialTraversal garbage results args).wake ⟨before.length, .inr c⟩
          l.user = (true, Function.update l.user.1 before.length vs, l.user.2) :=
        wake_of_values l.user hr
      have huser : (Loop.decided (sequentialTraversal garbage results args).toBody
          ⟨before.length, .inr c⟩ l).user =
            (Function.update l.user.1 before.length vs, l.user.2) := by
        change ((sequentialTraversal garbage results args).wake _ l.user).2 = _
        rw [hwake]
      have hsplit : args = (before ++ [.inr c]) ++ s.rest := by
        rw [hargs, List.append_assoc]
        rfl
      have hrest := run_corresponds garbage results hsplit
        (l := (Loop.decided (sequentialTraversal garbage results args).toBody
          ⟨before.length, .inr c⟩ l).emit (.resume ⟨before.length, .inr c⟩))
        ((congrArg Prod.snd huser).trans hcallback) rfl
      rw [Loop.emit_user, huser, filled_assign, ← hboxes, List.length_append,
        List.length_singleton] at hrest
      rw [Loop.wake_of_pending _ _ hpending, if_pos (by rw [hwake])]
      exact hrest
    · exact wake_stops hpending hcallback hr (by simp)
    · exact wake_stops hpending hcallback hr (by simp)

/-- **Sequences are traversed**: whenever the continuables that it started have come to their
results, the frame of `when_seq` is where the asynchronous traversal of the boxes is. -/
theorem traversal_corresponds (garbage : ℕ → List V) (results : ℕ → Use V E)
    (args : List (V ⊕ Continuation V E)) (wakes : ℕ) :
    Corresponds args
      ((settleLast garbage results)^[wakes]
        ((sequentialDispatchVisitor garbage).advance ⟨[], args⟩))
      ((Traversal.traversal (sequentialTraversal garbage results args) args.length
        ((boxContinuables 0 args).map .leaf) (fun _ => [], []) wakes).loop
          (sequentialTraversal garbage results args)) := by
  have hleaves : acceptedLeaves (sequentialTraversal garbage results args).accepts
      ((boxContinuables 0 args).map .leaf) = _ := acceptedLeaves_boxContinuables args 0 args
  rw [Traversal.traversal_loop]
  · rw [hleaves, Loop.after]
    induction wakes with
    | zero =>
      have hargs : args = [] ++ args := rfl
      exact run_corresponds garbage results hargs rfl rfl
    | succ n ih =>
      rw [Function.iterate_succ_apply', Function.iterate_succ_apply']
      exact wake_corresponds ih
  · rw [hleaves]
    exact (List.length_filter_le _ _).trans (length_boxContinuables 0 args).le

end correspondence

end Continuable.Runtime
