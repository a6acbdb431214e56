import Continuable.AsyncTraversal

/-!
The asynchronous traversal is a resumable loop over the accepted leaves.

The ranges on the stack hold exactly the leaves that are left, so replaying the stack loops
over them.
-/

namespace Continuable.Traversal

open ResumableLoop

variable {σ α : Type}

section leaves

variable (accepts : α → Bool)

mutual

/-- The leaves of a pack that the visitor accepts, from left to right. -/
def Pack.accepted : Pack α → List α
  | .leaf a => if accepts a then [a] else []
  | .tuple elements => acceptedLeaves elements
  | .container elements => acceptedLeaves elements

def acceptedLeaves : List (Pack α) → List α
  | [] => []
  | p :: rest => p.accepted ++ acceptedLeaves rest

end

/-- The leaves behind the elements that are being traversed. -/
def behind (parents : List (Range α)) : List α :=
  parents.flatMap fun r => acceptedLeaves accepts r.elements.tail

/-- The leaves a stack of ranges has left. -/
def remaining (current : Range α) (parents : List (Range α)) : List α :=
  acceptedLeaves accepts current.elements ++ behind accepts parents

end leaves

/-! ### Refinement of the loop -/

/-- The calls of the visitor in a trace. -/
def observed (trace : List (ℕ × Step α)) : List (Event α) :=
  trace.filterMap fun
    | (_, .visitor e) => some e
    | _ => none

section refinement

variable (v : Visitor σ α)

/-- The loop a frame stands for. -/
def Frame.loop (f : Frame σ α) : Loop σ α :=
  ⟨f.user, observed f.trace, f.pending.map fun p => (p.1, remaining v.accepts p.2.1 p.2.2)⟩

@[simp] lemma loop_emit_dereference (f : Frame σ α) (k : ℕ) :
    (f.emit k .dereference).loop v = f.loop v := by
  simp [Frame.loop, Frame.emit, observed, List.filterMap_append]

@[simp] lemma loop_emit_increment (f : Frame σ α) (k : ℕ) :
    (f.emit k .increment).loop v = f.loop v := by
  simp [Frame.loop, Frame.emit, observed, List.filterMap_append]

@[simp] lemma loop_emit_visitor (f : Frame σ α) (k : ℕ) (e : Event α) :
    (f.emit k (.visitor e)).loop v = (f.loop v).emit e := by
  simp [Frame.loop, Frame.emit, observed, List.filterMap_append, Loop.emit]

@[simp] lemma loop_withUser (f : Frame σ α) (u : σ) :
    (f.withUser u).loop v = (f.loop v).withUser u := rfl

@[simp] lemma loop_user (f : Frame σ α) : (f.loop v).user = f.user := rfl

@[simp] lemma withUser_user (f : Frame σ α) (u : σ) : (f.withUser u).user = u := rfl

@[simp] lemma emit_user (f : Frame σ α) (k : ℕ) (s : Step α) : (f.emit k s).user = f.user := rfl

lemma loop_resumed {f : Frame σ α} {l : Loop σ α} (a : α) (h : f.loop v = l) :
    (f.withUser (v.resumed a f.user)).loop v = l.withUser (v.resumed a l.user) := by
  rw [← h]; rfl

/-- What is left to do once a traversal function returned: nothing when it detached, else to
loop over the items behind it. -/
def settle (items : List α) (r : Bool × Frame σ α) : Loop σ α :=
  if r.1 then r.2.loop v else Loop.run v.toBody items (r.2.loop v)

@[simp] lemma settle_detached (items : List α) (f : Frame σ α) :
    settle v items (true, f) = f.loop v := rfl

@[simp] lemma settle_attached (items : List α) (f : Frame σ α) :
    settle v items (false, f) = Loop.run v.toBody items (f.loop v) := rfl

/-- The resume callable replays every stack of fewer than `n` leaves. -/
def Replays (resume : Resume σ α) (n : ℕ) : Prop :=
  ∀ a current parents f, (remaining v.accepts current parents).length < n →
    (resume a current parents f).loop v =
      Loop.run v.toBody (remaining v.accepts current parents) ((f.loop v).emit (.resume a))

variable {v} {resume : Resume σ α} {n : ℕ}
variable (k : ℕ)

lemma asyncTraverseOne_leaf (hr : Replays v resume n) (a : α) (ha : v.accepts a) (dynamic : Bool)
    (rest : List (Pack α)) (hierarchy : List (Range α)) (f : Frame σ α)
    (hn : (acceptedLeaves v.accepts rest ++ behind v.accepts hierarchy).length < n) :
    settle v (acceptedLeaves v.accepts rest ++ behind v.accepts hierarchy)
        (asyncTraverseOne v resume k (.leaf a) dynamic rest hierarchy f) =
      Loop.run v.toBody (a :: (acceptedLeaves v.accepts rest ++ behind v.accepts hierarchy))
        (f.loop v) := by
  have hrep := hr a ⟨dynamic, rest⟩ hierarchy
  have hrem : remaining v.accepts ⟨dynamic, rest⟩ hierarchy =
      acceptedLeaves v.accepts rest ++ behind v.accepts hierarchy := rfl
  rw [hrem] at hrep
  unfold asyncTraverseOne Loop.run
  simp only [if_pos ha, loop_user, emit_user]
  by_cases hc : (v.visit a f.user).1 = true
  · simp [hc]
  · simp only [hc, Bool.false_eq_true, if_false, settle_detached, asyncContinue]
    simp only [withUser_user, emit_user, Loop.withUser_user]
    rcases hd : v.detach a (v.visit a f.user).2 with ⟨r, u⟩
    cases r with
    | immediately =>
      refine (loop_resumed v a (hrep _ hn)).trans ?_
      simp
    | kept => simp [Frame.loop, hrem, observed, Frame.emit, Frame.withUser, Loop.emit,
        Loop.withUser, List.filterMap_append]
    | dropped => simp

mutual

theorem asyncTraverseOne_settle (hr : Replays v resume n) (p : Pack α) (dynamic : Bool)
    (rest : List (Pack α)) (hierarchy : List (Range α)) (f : Frame σ α)
    (hn : (p.accepted v.accepts ++
      (acceptedLeaves v.accepts rest ++ behind v.accepts hierarchy)).length ≤ n) :
    settle v (acceptedLeaves v.accepts rest ++ behind v.accepts hierarchy)
        (asyncTraverseOne v resume k p dynamic rest hierarchy f) =
      Loop.run v.toBody (p.accepted v.accepts ++
        (acceptedLeaves v.accepts rest ++ behind v.accepts hierarchy)) (f.loop v) := by
  match p with
  | .leaf a =>
    by_cases ha : v.accepts a = true
    · simp only [Pack.accepted, ha, if_true, List.singleton_append, List.length_cons] at hn ⊢
      exact asyncTraverseOne_leaf k hr a ha dynamic rest hierarchy f (by omega)
    · simp [asyncTraverseOne, Pack.accepted, ha]
  | .tuple elements =>
    have h := asyncTraverseStatic_settle hr elements
      (⟨dynamic, .tuple elements :: rest⟩ :: hierarchy) false (f.emit k .dereference) hn
    rw [settle_attached, loop_emit_dereference] at h
    unfold asyncTraverseOne Pack.accepted
    exact h
  | .container elements =>
    have h := asyncTraverseDynamic_settle hr elements
      (⟨dynamic, .container elements :: rest⟩ :: hierarchy) (f.emit k .dereference) hn
    rw [loop_emit_dereference] at h
    unfold asyncTraverseOne Pack.accepted
    exact h

theorem asyncTraverseStatic_settle (hr : Replays v resume n) (elements : List (Pack α))
    (hierarchy : List (Range α)) (detached : Bool) (f : Frame σ α)
    (hn : (acceptedLeaves v.accepts elements ++ behind v.accepts hierarchy).length ≤ n) :
    settle v (behind v.accepts hierarchy)
        (asyncTraverseStatic v resume k elements hierarchy detached f) =
      settle v (acceptedLeaves v.accepts elements ++ behind v.accepts hierarchy)
        (detached, f) := by
  match elements with
  | [] => rfl
  | p :: rest =>
    simp only [acceptedLeaves, List.append_assoc, List.length_append] at hn ⊢
    have hrest := fun d f => asyncTraverseStatic_settle hr rest hierarchy d f
      (by simp only [List.length_append]; omega)
    unfold asyncTraverseStatic
    cases detached with
    | true => exact hrest true f
    | false =>
      rw [hrest]
      exact asyncTraverseOne_settle hr p false rest hierarchy f
        (by simp only [List.length_append]; omega)

theorem asyncTraverseDynamic_settle (hr : Replays v resume n) (elements : List (Pack α))
    (hierarchy : List (Range α)) (f : Frame σ α)
    (hn : (acceptedLeaves v.accepts elements ++ behind v.accepts hierarchy).length ≤ n) :
    settle v (behind v.accepts hierarchy)
        (asyncTraverseDynamic v resume k elements hierarchy f) =
      Loop.run v.toBody (acceptedLeaves v.accepts elements ++ behind v.accepts hierarchy)
        (f.loop v) := by
  match elements with
  | [] => rfl
  | p :: rest =>
    simp only [acceptedLeaves, List.append_assoc, List.length_append] at hn ⊢
    have hone := asyncTraverseOne_settle hr p true rest hierarchy f
      (by simp only [List.length_append]; omega)
    unfold asyncTraverseDynamic
    generalize asyncTraverseOne v resume k p true rest hierarchy f = r at hone ⊢
    obtain ⟨d, g⟩ := r
    cases d with
    | true => exact hone
    | false =>
      have hrest := asyncTraverseDynamic_settle hr rest hierarchy (g.emit k .increment)
        (by simp only [List.length_append]; omega)
      rw [loop_emit_increment] at hrest
      exact hrest.trans hone

end

lemma asyncTraverse_settle (hr : Replays v resume n) (current : Range α)
    (hierarchy : List (Range α)) (f : Frame σ α)
    (hn : (remaining v.accepts current hierarchy).length ≤ n) :
    settle v (behind v.accepts hierarchy) (asyncTraverse v resume k current hierarchy f) =
      Loop.run v.toBody (remaining v.accepts current hierarchy) (f.loop v) := by
  unfold asyncTraverse
  by_cases hdyn : current.dynamic = true
  · rw [if_pos hdyn]
    exact asyncTraverseDynamic_settle k hr current.elements hierarchy f hn
  · rw [if_neg hdyn]
    exact asyncTraverseStatic_settle k hr current.elements hierarchy false f hn

lemma top_settle (hr : Replays v resume n) (current : Range α)
    (hierarchy : List (Range α)) (f : Frame σ α)
    (hn : (remaining v.accepts current hierarchy).length ≤ n) :
    settle v (behind v.accepts hierarchy)
        (if current.isFinished then (false, f)
          else asyncTraverse v resume k current hierarchy f) =
      Loop.run v.toBody (remaining v.accepts current hierarchy) (f.loop v) := by
  by_cases hfin : current.isFinished = true
  · have hnil : current.elements = [] := List.isEmpty_iff.1 hfin
    rw [if_pos hfin, settle_attached, remaining, hnil]
    rfl
  · rw [if_neg hfin]
    exact asyncTraverse_settle k hr current hierarchy f hn

lemma resumeNext_loop (hr : Replays v resume n) (current : Range α)
    (hierarchy : List (Range α)) (f : Frame σ α)
    (hn : (remaining v.accepts current hierarchy).length ≤ n) :
    (resumeNext v resume k current hierarchy f).loop v =
      Loop.run v.toBody (remaining v.accepts current hierarchy) (f.loop v) := by
  induction hierarchy generalizing current f with
  | nil =>
    have htop := top_settle k hr current [] f hn
    unfold resumeNext
    simp only
    generalize (if current.isFinished then (false, f)
      else asyncTraverse v resume k current [] f) = r at htop ⊢
    obtain ⟨d, g⟩ := r
    cases d with
    | true => exact htop
    | false => rw [← htop]; simp [asyncComplete, behind, Loop.run, Loop.withUser]
  | cons parent hierarchy ih =>
    have htop := top_settle k hr current (parent :: hierarchy) f hn
    -- popping a range leaves the leaves behind it
    have hpop : remaining v.accepts parent.next hierarchy =
      behind v.accepts (parent :: hierarchy) := rfl
    have hlen : (remaining v.accepts parent.next hierarchy).length ≤ n := by
      rw [remaining, List.length_append] at hn
      rw [hpop]
      omega
    unfold resumeNext
    simp only
    generalize (if current.isFinished then (false, f)
      else asyncTraverse v resume k current (parent :: hierarchy) f) = r at htop ⊢
    obtain ⟨d, g⟩ := r
    cases d with
    | true => exact htop
    | false =>
      rw [if_neg (by simp), ih parent.next _ hlen, loop_emit_increment, ← htop, hpop]
      rfl

/-- The fuel is enough for as many leaves. -/
lemma resumeTraversal_replays (fuel : ℕ) : Replays v (resumeTraversal v fuel) fuel := by
  induction fuel with
  | zero => intro a current parents f hn; omega
  | succ fuel ih =>
    intro a current parents f hn
    unfold resumeTraversal activate
    simp only
    rw [resumeNext_loop _ ih current parents _ (by omega), loop_emit_visitor]
    rfl

lemma traversePackAsync_loop (args : List (Pack α)) (u : σ) (fuel : ℕ)
    (hfuel : (acceptedLeaves v.accepts args).length ≤ fuel) :
    (traversePackAsync v fuel args u).loop v =
      Loop.run v.toBody (acceptedLeaves v.accepts args) ⟨u, [], none⟩ := by
  have hrem : remaining v.accepts ⟨false, args⟩ [] = acceptedLeaves v.accepts args :=
    List.append_nil _
  unfold traversePackAsync activate
  simp only
  rw [resumeNext_loop _ (resumeTraversal_replays fuel) _ _ _ (hrem ▸ hfuel), hrem]
  rfl

lemma wake_loop (f : Frame σ α) (fuel : ℕ)
    (hfuel : ∀ a rest, (f.loop v).pending = some (a, rest) → rest.length < fuel) :
    (wake v fuel f).loop v = (f.loop v).wake v.toBody := by
  unfold wake Loop.wake
  rcases hp : f.pending with _ | ⟨a, current, parents⟩
  · simp [Frame.loop, hp]
  · have hpl : (f.loop v).pending = some (a, remaining v.accepts current parents) := by
      simp [Frame.loop, hp]
    have hlt := hfuel _ _ hpl
    rw [hpl]
    simp only [loop_user]
    by_cases hw : (v.wake a f.user).1 = true
    · simp only [hw, if_true]
      exact loop_resumed v a (resumeTraversal_replays fuel a current parents _ hlt)
    · simp only [hw, Bool.false_eq_true, if_false]
      rfl

/-- **Refinement**: the traversal of a pack is the resumable loop over its accepted leaves. -/
theorem traversal_loop (args : List (Pack α)) (u : σ) (wakes fuel : ℕ)
    (hfuel : (acceptedLeaves v.accepts args).length ≤ fuel) :
    (traversal v fuel args u wakes).loop v =
      Loop.after v.toBody (acceptedLeaves v.accepts args) u wakes := by
  unfold traversal Loop.after
  induction wakes with
  | zero => exact traversePackAsync_loop args u fuel hfuel
  | succ m ih =>
    rw [Function.iterate_succ_apply', Function.iterate_succ_apply']
    rw [wake_loop, ih]
    intro a rest hp
    -- the loop stands still, so what it left is a proper part of the leaves
    rw [ih] at hp
    rcases after_idle v.toBody (acceptedLeaves v.accepts args) u m with ⟨-, hn⟩ | h
    · rw [Loop.after, hp] at hn; cases hn
    · obtain ⟨b, rest', ⟨⟨l, -, hitems⟩, -, -⟩, hp'⟩ := h
      rw [Loop.after, hp] at hp'
      obtain ⟨rfl, rfl⟩ : a = b ∧ rest = rest' := by simpa using hp'
      rw [hitems, List.length_append, List.length_cons] at hfuel
      omega

end refinement

end Continuable.Traversal
