import Continuable.ResumableLoop

/-!
The asynchronous pack traversal.

The position of a traversal is reified as a stack of ranges: the elements that are left in the
innermost node, and for every node around it the elements from the one being traversed on. A
detached traversal hands this stack to the visitor, and calling the resume callable replays it
in a new activation, also while the activation that detached has not returned.
-/

namespace Continuable.Traversal

open ResumableLoop

/-- A pack. A `std::array` has an iterator pair, so it is traversed as a container. -/
inductive Pack (α : Type)
  | leaf (a : α)
  | tuple (elements : List (Pack α))
  | container (elements : List (Pack α))

/-- `static_async_range` and `dynamic_async_range`: the elements from the current one on. -/
structure Range (α : Type) where
  dynamic : Bool
  elements : List (Pack α)

namespace Range

variable {α : Type}

def next (r : Range α) : Range α := { r with elements := r.elements.tail }

def isFinished (r : Range α) : Bool := r.elements.isEmpty

end Range

/-- What an activation does: it touches the pack, or calls the visitor. -/
inductive Step (α : Type)
  | dereference
  | increment
  | visitor (event : Event α)
  deriving DecidableEq

/-- The visitor, with the leaf types it accepts. -/
structure Visitor (σ α : Type) extends Body σ α where
  accepts : α → Bool

/-- The state of an `async_traversal_frame`. Every activation of the traversal has a number of
its own, which tags what it does. -/
structure Frame (σ α : Type) where
  user : σ
  activations : ℕ
  trace : List (ℕ × Step α)
  pending : Option (α × Range α × List (Range α))

namespace Frame

variable {σ α : Type}

def emit (f : Frame σ α) (k : ℕ) (s : Step α) : Frame σ α :=
  { f with trace := f.trace ++ [(k, s)] }

def withUser (f : Frame σ α) (u : σ) : Frame σ α := { f with user := u }

end Frame

variable {σ α : Type}

/-- A resume callable: the leaf it was handed out with and the range to go on with, inside the
ranges of the nodes around it. -/
abbrev Resume (σ α : Type) := α → Range α → List (Range α) → Frame σ α → Frame σ α

section point

/-! ### `async_traversal_point`

The detached flag is local to an activation, so it is passed along and returned. -/

variable (v : Visitor σ α) (resume : Resume σ α) (k : ℕ)

/-- `async_traversal_frame::async_continue`. -/
def asyncContinue (a : α) (current : Range α) (hierarchy : List (Range α)) (f : Frame σ α) :
    Frame σ α :=
  let d := v.detach a f.user
  let f := (f.emit k (.visitor (.detach a))).withUser d.2
  match d.1 with
  | .immediately =>
    let f := resume a current hierarchy f
    f.withUser (v.resumed a f.user)
  | .kept => { f with pending := some (a, current, hierarchy) }
  | .dropped => f

mutual

/-- `async_traverse_one_impl` at the element in front of `rest`. -/
def asyncTraverseOne (p : Pack α) (dynamic : Bool) (rest : List (Pack α))
    (hierarchy : List (Range α)) (f : Frame σ α) : Bool × Frame σ α :=
  match p with
  | .leaf a =>
    if v.accepts a then
      let f := (f.emit k .dereference).emit k (.visitor (.visit a))
      let c := v.visit a f.user
      let f := f.withUser c.2
      if c.1 then (false, f)
      else
        let f := (f.emit k .increment).emit k .dereference
        (true, asyncContinue v resume k a ⟨dynamic, rest⟩ hierarchy f)
    else (false, f)
  | .tuple elements =>
    asyncTraverseStatic elements (⟨dynamic, .tuple elements :: rest⟩ :: hierarchy)
      false (f.emit k .dereference)
  | .container elements =>
    asyncTraverseDynamic elements (⟨dynamic, .container elements :: rest⟩ :: hierarchy)
      (f.emit k .dereference)

/-- `async_traverse_static_async_range`: every position is checked for detachment. -/
def asyncTraverseStatic (elements : List (Pack α)) (hierarchy : List (Range α))
    (detached : Bool) (f : Frame σ α) : Bool × Frame σ α :=
  match elements with
  | [] => (detached, f)
  | p :: rest =>
    let r := if detached then (true, f) else asyncTraverseOne p false rest hierarchy f
    asyncTraverseStatic rest hierarchy r.1 r.2

/-- `async_traverse` of a dynamic range: the loop tests for detachment before it increments. -/
def asyncTraverseDynamic (elements : List (Pack α)) (hierarchy : List (Range α))
    (f : Frame σ α) : Bool × Frame σ α :=
  match elements with
  | [] => (false, f)
  | p :: rest =>
    let r := asyncTraverseOne p true rest hierarchy f
    if r.1 then r else asyncTraverseDynamic rest hierarchy (r.2.emit k .increment)

end

/-- `async_traverse` of a range that an activation starts with. -/
def asyncTraverse (current : Range α) (hierarchy : List (Range α)) (f : Frame σ α) :
    Bool × Frame σ α :=
  if current.dynamic then asyncTraverseDynamic v resume k current.elements hierarchy f
  else asyncTraverseStatic v resume k current.elements hierarchy false f

/-- `async_traversal_frame::async_complete`. -/
def asyncComplete (f : Frame σ α) : Frame σ α :=
  (f.emit k (.visitor .complete)).withUser (v.complete f.user)

/-- `resume_state_callable::next`. -/
def resumeNext (current : Range α) (hierarchy : List (Range α)) (f : Frame σ α) : Frame σ α :=
  let r := if current.isFinished then (false, f)
    else asyncTraverse v resume k current hierarchy f
  if r.1 then r.2
  else
    match hierarchy with
    | [] => asyncComplete v k r.2
    | parent :: hierarchy => resumeNext parent.next hierarchy (r.2.emit k .increment)

end point

variable (v : Visitor σ α)

/-- `resume_state_callable::operator()` in an activation of its own. -/
def activate (resume : Resume σ α) (event : Option (Event α)) (current : Range α)
    (hierarchy : List (Range α)) (f : Frame σ α) : Frame σ α :=
  let k := f.activations
  let f := { f with activations := k + 1 }
  let f := match event with
    | none => f
    | some e => f.emit k (.visitor e)
  resumeNext v resume k current hierarchy f

/-- `resume_traversal_callable::operator()`. The fuel bounds how deep calls of the callable
nest inside the calls that hand them over. -/
def resumeTraversal : ℕ → Resume σ α
  | 0, _, _, _, f => f
  | fuel + 1, a, current, hierarchy, f =>
    activate v (resumeTraversal fuel) (some (.resume a)) current hierarchy f

/-- `apply_pack_transform_async`: start at the static range of the arguments. -/
def traversePackAsync (fuel : ℕ) (args : List (Pack α)) (u : σ) : Frame σ α :=
  activate v (resumeTraversal v fuel) none ⟨false, args⟩ [] ⟨u, 0, [], none⟩

/-- The visitor gets to decide on the resume callable it kept. -/
def wake (fuel : ℕ) (f : Frame σ α) : Frame σ α :=
  match f.pending with
  | none => f
  | some (a, current, hierarchy) =>
    let w := v.wake a f.user
    let f := { f.withUser w.2 with pending := none }
    if w.1 then
      let f := resumeTraversal v fuel a current hierarchy f
      f.withUser (v.resumed a f.user)
    else f

/-- The traversal of the arguments, after the visitor decided a number of times. -/
def traversal (fuel : ℕ) (args : List (Pack α)) (u : σ) (wakes : ℕ) : Frame σ α :=
  (wake v fuel)^[wakes] (traversePackAsync v fuel args u)

end Continuable.Traversal
