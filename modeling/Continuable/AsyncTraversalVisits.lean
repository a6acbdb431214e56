import Continuable.AsyncTraversalSpec
import Continuable.LoopAnswers

/-!
What the asynchronous traversal visits.

An activation that handed out a leaf does nothing any more, so it does not matter whether the
leaf is resumed before or after that activation returns. Which leaves are resumed is for the
visitor to say, which writes its answers down.
-/

namespace Continuable.Traversal

open ResumableLoop

variable {σ α : Type}

/-! ### A leaf that was handed out -/

/-- An activation that hands a leaf to the visitor does nothing after that. -/
def Sealed (trace : List (ℕ × Step α)) : Prop :=
  trace.Pairwise fun x y => (∃ a, x.2 = .visitor (.detach a)) → y.1 ≠ x.1

/-- No activation is under way. -/
structure Closed (f : Frame σ α) : Prop where
  sealed : Sealed f.trace
  started : ∀ x ∈ f.trace, x.1 < f.activations

/-- The activation is under way and has handed out nothing. -/
structure Open (k : ℕ) (f : Frame σ α) : Prop extends Closed f where
  active : k < f.activations
  attached : ∀ a, (k, .visitor (.detach a)) ∉ f.trace

/-- How a traversal function leaves the frame, by whether it detached. -/
def Leaves (k : ℕ) (r : Bool × Frame σ α) : Prop :=
  Closed r.2 ∧ (r.1 = false → Open k r.2)

lemma Closed.withUser {f : Frame σ α} (h : Closed f) (u : σ) : Closed (f.withUser u) :=
  ⟨h.sealed, h.started⟩

lemma Open.withUser {k : ℕ} {f : Frame σ α} (h : Open k f) (u : σ) : Open k (f.withUser u) :=
  ⟨h.toClosed.withUser u, h.active, h.attached⟩

lemma Open.emit_closed {k : ℕ} {f : Frame σ α} (h : Open k f) (s : Step α) :
    Closed (f.emit k s) := by
  refine ⟨?_, ?_⟩
  · refine List.pairwise_append.2 ⟨h.sealed, List.pairwise_singleton _ _, ?_⟩
    rintro ⟨j, t⟩ hx y hy ⟨a, rfl⟩ hk
    obtain rfl : y = (k, s) := by simpa using hy
    obtain rfl : k = j := hk
    exact h.attached a hx
  · intro x hx
    rcases List.mem_append.1 hx with hx | hx
    · exact h.started x hx
    · obtain rfl : x = (k, s) := by simpa using hx
      exact h.active

lemma Open.emit {k : ℕ} {f : Frame σ α} (h : Open k f) {s : Step α}
    (hs : ∀ a, s ≠ .visitor (.detach a)) : Open k (f.emit k s) := by
  refine ⟨h.emit_closed s, h.active, fun a ha => ?_⟩
  rcases List.mem_append.1 ha with ha | ha
  · exact h.attached a ha
  · simp only [List.mem_singleton, Prod.mk.injEq, true_and] at ha
    exact hs a ha.symm

lemma Closed.activate {f : Frame σ α} (h : Closed f) :
    Open f.activations { f with activations := f.activations + 1 } := by
  refine ⟨⟨h.sealed, fun x hx => ?_⟩, Nat.lt_succ_self _, fun a ha => ?_⟩
  · have := h.started x hx
    simp only
    omega
  · exact absurd (h.started _ ha) (Nat.lt_irrefl _)

section sealing

variable {v : Visitor σ α} {resume : Resume σ α} (k : ℕ)

/-- Calling the resume callable keeps the activations that handed out a leaf sealed. -/
def Seals (resume : Resume σ α) : Prop :=
  ∀ a current parents f, Closed f → Closed (resume a current parents f)

lemma asyncContinue_closed (hr : Seals resume) (a : α) (current : Range α)
    (hierarchy : List (Range α)) {f : Frame σ α} (h : Open k f) :
    Closed (asyncContinue v resume k a current hierarchy f) := by
  have hclosed := h.emit_closed (.visitor (.detach a))
  unfold asyncContinue
  rcases v.detach a f.user with ⟨r, u⟩
  cases r with
  | immediately => exact (hr a current hierarchy _ (hclosed.withUser u)).withUser _
  | kept => exact ⟨hclosed.sealed, hclosed.started⟩
  | dropped => exact hclosed.withUser u

mutual

theorem asyncTraverseOne_leaves (hr : Seals resume) (p : Pack α) (dynamic : Bool)
    (rest : List (Pack α)) (hierarchy : List (Range α)) {f : Frame σ α} (h : Open k f) :
    Leaves k (asyncTraverseOne v resume k p dynamic rest hierarchy f) := by
  have hderef : Open k (f.emit k .dereference) := h.emit (by simp)
  match p with
  | .leaf a =>
    unfold asyncTraverseOne
    by_cases ha : v.accepts a = true
    · have hvisit := (hderef.emit (s := .visitor (.visit a)) (by simp)).withUser
        (v.visit a f.user).2
      simp only [ha, if_true, emit_user]
      by_cases hc : (v.visit a f.user).1 = true
      · simp only [hc, if_true]
        exact ⟨hvisit.toClosed, fun _ => hvisit⟩
      · simp only [hc, Bool.false_eq_true, if_false]
        have hnext := (hvisit.emit (s := .increment) (by simp)).emit (s := .dereference) (by simp)
        exact ⟨asyncContinue_closed k hr a _ hierarchy hnext, fun hd => by cases hd⟩
    · simp only [ha, Bool.false_eq_true, if_false]
      exact ⟨h.toClosed, fun _ => h⟩
  | .tuple elements =>
    exact asyncTraverseStatic_leaves hr elements _ false ⟨hderef.toClosed, fun _ => hderef⟩
  | .container elements => exact asyncTraverseDynamic_leaves hr elements _ hderef

theorem asyncTraverseStatic_leaves (hr : Seals resume) (elements : List (Pack α))
    (hierarchy : List (Range α)) (detached : Bool) {f : Frame σ α}
    (h : Leaves k (detached, f)) :
    Leaves k (asyncTraverseStatic v resume k elements hierarchy detached f) := by
  match elements with
  | [] => exact h
  | p :: rest =>
    unfold asyncTraverseStatic
    cases detached with
    | true => exact asyncTraverseStatic_leaves hr rest hierarchy true h
    | false =>
      exact asyncTraverseStatic_leaves hr rest hierarchy _
        (asyncTraverseOne_leaves hr p false rest hierarchy (h.2 rfl))

theorem asyncTraverseDynamic_leaves (hr : Seals resume) (elements : List (Pack α))
    (hierarchy : List (Range α)) {f : Frame σ α} (h : Open k f) :
    Leaves k (asyncTraverseDynamic v resume k elements hierarchy f) := by
  match elements with
  | [] => exact ⟨h.toClosed, fun _ => h⟩
  | p :: rest =>
    have hone := asyncTraverseOne_leaves hr p true rest hierarchy h
    unfold asyncTraverseDynamic
    generalize asyncTraverseOne v resume k p true rest hierarchy f = r at hone ⊢
    obtain ⟨d, g⟩ := r
    cases d with
    | true => exact hone
    | false => exact asyncTraverseDynamic_leaves hr rest hierarchy ((hone.2 rfl).emit (by simp))

end

lemma resumeNext_closed (hr : Seals resume) (current : Range α) (hierarchy : List (Range α))
    {f : Frame σ α} (h : Open k f) : Closed (resumeNext v resume k current hierarchy f) := by
  have htop : ∀ (current : Range α) (hierarchy : List (Range α)) {f : Frame σ α}, Open k f →
      Leaves k (if current.isFinished then (false, f)
        else asyncTraverse v resume k current hierarchy f) := by
    intro current hierarchy f h
    unfold asyncTraverse
    split_ifs
    · exact ⟨h.toClosed, fun _ => h⟩
    · exact asyncTraverseDynamic_leaves k hr _ _ h
    · exact asyncTraverseStatic_leaves k hr _ _ false ⟨h.toClosed, fun _ => h⟩
  induction hierarchy generalizing current f with
  | nil =>
    have hleaves := htop current [] h
    unfold resumeNext
    simp only
    generalize (if current.isFinished then (false, f)
      else asyncTraverse v resume k current [] f) = r at hleaves ⊢
    obtain ⟨d, g⟩ := r
    cases d with
    | true => exact hleaves.1
    | false => exact ((hleaves.2 rfl).emit_closed _).withUser _
  | cons parent hierarchy ih =>
    have hleaves := htop current (parent :: hierarchy) h
    unfold resumeNext
    simp only
    generalize (if current.isFinished then (false, f)
      else asyncTraverse v resume k current (parent :: hierarchy) f) = r at hleaves ⊢
    obtain ⟨d, g⟩ := r
    cases d with
    | true => exact hleaves.1
    | false => exact ih parent.next ((hleaves.2 rfl).emit (by simp))

end sealing

lemma resumeTraversal_seals (v : Visitor σ α) (fuel : ℕ) : Seals (resumeTraversal v fuel) := by
  induction fuel with
  | zero => exact fun _ _ _ _ h => h
  | succ fuel ih =>
    intro a current parents f h
    exact resumeNext_closed _ ih current parents (h.activate.emit (by simp))

lemma wake_closed (v : Visitor σ α) (fuel : ℕ) {f : Frame σ α} (h : Closed f) :
    Closed (wake v fuel f) := by
  have hwoken : ∀ u, Closed { f.withUser u with pending := none } :=
    fun _ => ⟨h.sealed, h.started⟩
  unfold wake
  rcases f.pending with _ | ⟨a, current, parents⟩
  · exact h
  · simp only
    split_ifs
    · exact (resumeTraversal_seals v fuel a current parents _ (hwoken _)).withUser _
    · exact hwoken _

lemma traversal_closed (v : Visitor σ α) (fuel : ℕ) (args : List (Pack α)) (u : σ)
    (wakes : ℕ) : Closed (traversal v fuel args u wakes) := by
  unfold traversal
  induction wakes with
  | zero =>
    have hinit : Closed (⟨u, 0, [], none⟩ : Frame σ α) := ⟨List.Pairwise.nil, by simp⟩
    exact resumeNext_closed _ (resumeTraversal_seals v fuel) _ _ hinit.activate
  | succ n ih =>
    rw [Function.iterate_succ_apply']
    exact wake_closed v fuel ih

/-! ### By the answers of the visitor -/

/-- The visitor, with its answers written down. -/
def Visitor.recorded (v : Visitor σ α) : Visitor (σ × List (Answer α)) α :=
  { v.toBody.recorded with accepts := v.accepts }

/-- What the visitor answers in a traversal. -/
def answers (v : Visitor σ α) (fuel : ℕ) (args : List (Pack α)) (u : σ) (wakes : ℕ) :
    List (Answer α) :=
  (traversal v.recorded fuel args (u, []) wakes).user.2

/-- What a traversal of the leaves does, by the answers of the visitor. -/
structure Visits (leaves : List α) (trace : List (ℕ × Step α)) (given : List (Answer α)) :
    Prop where
  asked : visited (observed trace) = asked given
  /-- A leaf is detached when the visitor does not continue at it. -/
  declined : detached (observed trace) = declined given
  /-- Every leaf was visited in order, the visitor called the callable of every detached one, and
  the traversal completed after that, once; or the leaves were visited in order up to one that
  was detached and whose callable the visitor did not call, and the traversal did not complete. -/
  ends : Finished leaves (called given) (observed trace) ∨
    ∃ a rest, Stopped leaves (called given) (observed trace) a rest
  /-- An activation that handed out a leaf did nothing after that. -/
  sealed : Sealed trace

/-- **What a traversal of a pack does**, whenever it stands still. -/
theorem traversal_visits (v : Visitor σ α) (args : List (Pack α)) (u : σ) (wakes fuel : ℕ)
    (hfuel : (acceptedLeaves v.accepts args).length ≤ fuel) :
    Visits (acceptedLeaves v.accepts args) (traversal v fuel args u wakes).trace
      (answers v fuel args u wakes) := by
  have hlog : observed (traversal v fuel args u wakes).trace =
      (Loop.after v.toBody (acceptedLeaves v.accepts args) u wakes).log :=
    congrArg Loop.log (traversal_loop args u wakes fuel hfuel)
  -- the visitor that writes its answers down is traversed in the same way
  have hrecorded : (traversal v.recorded fuel args (u, []) wakes).loop v.recorded =
      Loop.after v.toBody.recorded (acceptedLeaves v.accepts args) (u, []) wakes :=
    traversal_loop args (u, []) wakes fuel hfuel
  have hanswers : answers v fuel args u wakes =
      (Loop.after v.toBody.recorded (acceptedLeaves v.accepts args) (u, []) wakes).user.2 :=
    congrArg (fun l : Loop _ α => l.user.2) hrecorded
  have hforget := Loop.after_forget v.toBody (acceptedLeaves v.accepts args) u wakes
  obtain ⟨hasked, hdeclined, hcalled⟩ :=
    Loop.after_told v.toBody (acceptedLeaves v.accepts args) u wakes
  rw [show (Loop.after v.toBody.recorded (acceptedLeaves v.accepts args) (u, []) wakes).log =
    (Loop.after v.toBody (acceptedLeaves v.accepts args) u wakes).log from
      congrArg Loop.log hforget] at hasked hdeclined hcalled
  rw [← hanswers] at hasked hdeclined hcalled
  refine ⟨hlog ▸ hasked, hlog ▸ hdeclined, ?_, (traversal_closed v fuel args u wakes).sealed⟩
  rw [hlog, ← hcalled]
  rcases after_idle v.toBody (acceptedLeaves v.accepts args) u wakes with ⟨h, -⟩ | ⟨a, rest, h, -⟩
  · exact Or.inl h
  · exact Or.inr ⟨a, rest, h⟩

/-- A visitor that goes on at even leaves and keeps the resume callable of odd ones. -/
def keepsOdd : Visitor Unit ℕ where
  accepts := fun _ => true
  visit := fun a _ => (a % 2 = 0, ())
  detach := fun _ _ => (.kept, ())
  wake := fun _ _ => (true, ())
  resumed := fun _ _ => ()
  complete := fun _ => ()

/-- A pack with empty containers and leaves at several depths. -/
def zeroOneTwo : List (Pack ℕ) :=
  [.leaf 0, .tuple [.container [], .container [.leaf 1]], .leaf 2]

/-- Before the visitor calls the callable it keeps, the traversal stands at the odd leaf; after
that it has completed. -/
theorem traversal_visits_keepsOdd :
    (∃ a rest,
      Stopped [0, 1, 2] [] (observed (traversal keepsOdd 3 zeroOneTwo () 0).trace) a rest) ∧
      Finished [0, 1, 2] [1] (observed (traversal keepsOdd 3 zeroOneTwo () 1).trace) := by
  have hbefore := (traversal_visits keepsOdd zeroOneTwo () 0 3 (by decide)).ends
  have hafter := (traversal_visits keepsOdd zeroOneTwo () 1 3 (by decide)).ends
  refine ⟨hbefore.resolve_left ?_, hafter.resolve_right ?_⟩
  · rintro ⟨l, hl, -⟩
    have hmem : Event.complete ∉ observed (traversal keepsOdd 3 zeroOneTwo () 0).trace := by decide
    exact hmem (by rw [hl]; simp)
  · rintro ⟨a, rest, -, -, hcomplete⟩
    exact hcomplete (by decide)

end Continuable.Traversal
