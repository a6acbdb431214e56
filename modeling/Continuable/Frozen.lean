import Continuable.Ownership
import Mathlib.Data.List.Basic

/-!
Expressions over continuables and the ownership each operation gives its result.

A continuable keeps the continuables it is connected from in its data. They are frozen when
they are put there, so destroying it starts none of them by accident. Whether the result is
frozen is up to each operation: most hand the flag of their operands on, but the conversion to
a type erasure starts with a new token, and the sequential connection overwrites the flag of its
left operand with that of its right one.
-/

namespace Continuable.Frozen

inductive Strategy | all | any | seq
  deriving DecidableEq

/-- The annotation of a `continuable_base`: a signature, or a strategy that is still open. -/
inductive Annotation
  | signature
  | strategy (strategy : Strategy)
  deriving DecidableEq

/-- A `continuable_base`: its ownership, its annotation, whether its data is a type erasure, and
the continuables that its data holds. -/
inductive Handle
  | mk (ownership : Ownership) (annotated : Annotation) (erased : Bool) (holds : List Handle)

namespace Handle

def ownership : Handle → Ownership
  | .mk o _ _ _ => o

def annotated : Handle → Annotation
  | .mk _ a _ _ => a

def erased : Handle → Bool
  | .mk _ _ e _ => e

def holds : Handle → List Handle
  | .mk _ _ _ hs => hs

def withOwnership (o : Ownership) : Handle → Handle
  | .mk _ a e hs => .mk o a e hs

/-- `freeze`. -/
def freeze (h : Handle) (enabled : Bool) : Option Handle :=
  (h.ownership.freeze enabled).map fun o => h.withOwnership o

/-- `consume`: the data of a continuable that is acquired. -/
def consume (h : Handle) : Option (List Handle) := h.ownership.release.map fun _ => h.holds

/-- `finish`: a continuable with a signature is moved; an open strategy is finalized, and the
ownership is handed on. -/
def finish (h : Handle) : Option Handle :=
  match h.annotated with
  | .signature => some (h.withOwnership h.ownership.moved.1)
  | .strategy _ => h.consume.map fun hs => .mk h.ownership .signature false hs

/-- `chain_continuation`, as `then`, `fail`, `next` and `via` call it. -/
def chainContinuation (h : Handle) (holding : List Handle) : Option Handle := do
  let h ← h.finish
  let hs ← h.consume
  some (.mk h.ownership .signature false (hs ++ holding))

/-- The conversion to a type-erased continuable; a continuable of that type is moved. -/
def erase (h : Handle) : Option Handle :=
  if h.erased then some (h.withOwnership h.ownership.moved.1)
  else do
    let h ← h.finish
    let hs ← h.consume
    some (.mk .default .signature true hs)

/-- `normalize`: the operands that a continuable contributes to a connection. -/
def normalize (s : Strategy) (h : Handle) : Option (List Handle) :=
  match h.annotated with
  | .signature => some [h.withOwnership h.ownership.moved.1]
  | .strategy t => if t = s then h.consume else h.finish.map fun g => [g]

/-- `connect`. -/
def connect (s : Strategy) (left right : Handle) : Option Handle := do
  let o := left.ownership.merge right.ownership
  let left ← left.freeze true
  let right ← right.freeze true
  let ls ← left.normalize s
  let rs ← right.normalize s
  some (.mk o (.strategy s) false (ls ++ rs))

/-- `sequential_connect`. -/
def sequentialConnect (left right : Handle) : Option Handle := do
  let left ← left.freeze right.ownership.frozen
  let right ← right.freeze true
  left.chainContinuation [right]

/-- `prepare_continuables`, on one continuable: the new ownership, and what is stored. -/
def prepareContinuable (o : Ownership) (h : Handle) : Option (Ownership × Handle) := do
  let o ← if !o.frozen && h.ownership.frozen then o.freeze true else some o
  let h ← h.freeze true
  let h ← h.finish
  some (o, h)

/-- `map_pack` of `prepare_continuables` over the arguments. -/
def prepareContinuables : Ownership → List Handle → Option (Ownership × List Handle)
  | o, [] => some (o, [])
  | o, h :: rest => do
    let (o, h) ← h.prepareContinuable o
    let (o, hs) ← prepareContinuables o rest
    some (o, h :: hs)

/-- `apply_connection`. -/
def applyConnection (hs : List Handle) : Option Handle := do
  let (o, hs) ← prepareContinuables .default hs
  some (.mk o .signature false hs)

mutual

/-- The destructor: how many continuables it invokes, counting those that the data holds. -/
def destroy : Handle → ℕ
  | .mk o _ _ hs => if o.invokesOnDestruction then 1 else destroyAll hs

def destroyAll : List Handle → ℕ
  | [] => 0
  | h :: rest => h.destroy + destroyAll rest

end

end Handle

/-- An expression over source continuables. -/
inductive Expr
  | source (erased frozen : Bool)
  | link (e : Expr)
  | finish (e : Expr)
  | erase (e : Expr)
  | all (left right : Expr)
  | any (left right : Expr)
  | seq (left right : Expr)
  | whenAll (es : List Expr)
  | whenAny (first : Expr) (rest : List Expr)
  | whenSeq (es : List Expr)

mutual

/-- The continuable an expression evaluates to. -/
def Expr.eval : Expr → Option Handle
  | .source erased frozen => (Handle.mk .default .signature erased []).freeze frozen
  | .link e => do
    let h ← e.eval
    h.chainContinuation []
  | .finish e => do
    let h ← e.eval
    h.finish
  | .erase e => do
    let h ← e.eval
    h.erase
  | .all l r => do
    let left ← l.eval
    let right ← r.eval
    left.connect .all right
  | .any l r => do
    let left ← l.eval
    let right ← r.eval
    left.connect .any right
  | .seq l r => do
    let left ← l.eval
    let right ← r.eval
    left.sequentialConnect right
  | .whenAll es => do
    let hs ← evalAll es
    Handle.applyConnection hs
  | .whenAny first rest => do
    let h ← first.eval
    let hs ← evalAll rest
    Handle.applyConnection (h :: hs)
  | .whenSeq es => do
    let hs ← evalAll es
    Handle.applyConnection hs

def evalAll : List Expr → Option (List Handle)
  | [] => some []
  | e :: rest => do
    let h ← e.eval
    let hs ← evalAll rest
    some (h :: hs)

end

end Continuable.Frozen
