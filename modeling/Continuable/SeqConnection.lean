import Continuable.AsyncTraversalSpec
import Continuable.Primitives
import Mathlib.Logic.Function.Basic

/-!
The sequential connection: an asynchronous traversal of the boxed continuables.

A ready continuable is unpacked while it is visited. A lazy one is started when the traversal
detaches at it, and resumes the traversal when it resolves with values. The ready path hands
the result on without asking whether it holds values, so a ready continuable that holds an
exception is taken for one that succeeded.
-/

namespace Continuable.Seq

open Traversal ResumableLoop

/-- When a lazy continuable that was started resolves. -/
inductive Timing | immediately | later
  deriving DecidableEq

inductive Source (V E : Type)
  | ready (result : Signal V E)
  | lazy (timing : Timing) (outcome : Outcome V E)

variable {V E : Type}

def Source.outcome : Source V E → Outcome V E
  | .ready r => some r
  | .lazy _ o => o

/-- A continuable with its number of result arguments. -/
structure Member (V E : Type) where
  arity : ℕ
  source : Source V E
  fits : ∀ vs, source.outcome = some (.value vs) → vs.length = arity

inductive Arg (V E : Type)
  | plain (v : V)
  | continuable (member : Member V E)

/-- An element of the boxed pack. -/
structure Slot (V E : Type) where
  position : ℕ
  arg : Arg V E

/-- `box_continuables` on a flat pack. -/
def boxContinuables (first : ℕ) : List (Arg V E) → List (Slot V E)
  | [] => []
  | a :: rest => ⟨first, a⟩ :: boxContinuables (first + 1) rest

/-- `is_continuable_box`. -/
def isContinuableBox (s : Slot V E) : Bool :=
  match s.arg with
  | .plain _ => false
  | .continuable _ => true

inductive Event (V E : Type)
  | unpacked (position : ℕ)
  | readException (position : ℕ)
  | started (position : ℕ)
  | assigned (position : ℕ) (values : List V)
  | called (signal : Signal V E)
  deriving DecidableEq

/-- `sequential_dispatch_data`: what the boxes were assigned, and a log. -/
structure Data (V E : Type) where
  boxes : ℕ → List V
  log : List (Event V E)

namespace Data

def emit (d : Data V E) (e : Event V E) : Data V E := { d with log := d.log ++ [e] }

/-- `continuable_box::assign`. -/
def assign (d : Data V E) (i : ℕ) (vs : List V) : Data V E :=
  { d.emit (.assigned i vs) with boxes := Function.update d.boxes i vs }

end Data

section visitor

variable (garbage : ℕ → List V)

/-- `traits::unpack` of the result of a ready continuable into its box. Every argument is read
from the value slot; when that does not hold values the box gets what happens to lie there. -/
def unpackInto (i : ℕ) (arity : ℕ) (d : Data V E) : Signal V E → Data V E
  | .value vs => d.assign i vs
  | .exception _ =>
    if arity = 0 then d.assign i [] else (d.emit (.readException i)).assign i (garbage i)

/-- The visit overload. -/
def visitBox (s : Slot V E) (d : Data V E) : Bool × Data V E :=
  match s.arg with
  | .plain _ => (true, d)
  | .continuable m =>
    match m.source with
    | .ready r => (true, unpackInto garbage s.position m.arity (d.emit (.unpacked s.position)) r)
    | .lazy _ _ => (false, d)

/-- The handlers of the detach overload; whether they resume the traversal. -/
def resolveBox (s : Slot V E) (d : Data V E) : Outcome V E → Bool × Data V E
  | some (.value vs) => (true, d.assign s.position vs)
  | some (.exception e) => (false, d.emit (.called (.exception e)))
  | none => (false, d)

/-- The detach overload: attach the handlers and start the continuable. -/
def detachBox (s : Slot V E) (d : Data V E) : Resumption × Data V E :=
  match s.arg with
  | .continuable ⟨_, .lazy .immediately o, _⟩ =>
    let r := resolveBox s (d.emit (.started s.position)) o
    (if r.1 then .immediately else .dropped, r.2)
  | .continuable ⟨_, .lazy .later _, _⟩ => (.kept, d.emit (.started s.position))
  | _ => (.dropped, d)

/-- A continuable that was started resolves later, or turns out to never resolve. -/
def wakeBox (s : Slot V E) (d : Data V E) : Bool × Data V E :=
  match s.arg with
  | .plain _ => (false, d)
  | .continuable m => resolveBox s d m.source.outcome

/-- `unbox_continuables` on a flat pack. -/
def unboxContinuables (boxes : ℕ → List V) (head : List (Slot V E)) : List V :=
  head.flatMap fun s =>
    match s.arg with
    | .plain v => [v]
    | .continuable _ => boxes s.position

/-- `sequential_dispatch_visitor`, over the pack it holds. -/
def sequentialDispatchVisitor (head : List (Slot V E)) : Visitor (Data V E) (Slot V E) where
  accepts := isContinuableBox
  visit := visitBox garbage
  detach := detachBox
  wake := wakeBox
  resumed := fun _ d => d
  complete := fun d => d.emit (.called (.value (unboxContinuables d.boxes head)))

/-- A sequential connection that is invoked, after the environment had a number of chances to
resolve the continuable that is pending. -/
def whenSeq (args : List (Arg V E)) (wakes : ℕ) : Frame (Data V E) (Slot V E) :=
  traversal (sequentialDispatchVisitor garbage (boxContinuables 0 args)) args.length
    ((boxContinuables 0 args).map .leaf) ⟨fun _ => [], []⟩ wakes

end visitor

/-! ### What a sequence of continuables should do -/

def Arg.awaited : Arg V E → V ⊕ Outcome V E
  | .plain v => .inl v
  | .continuable m => .inr m.source.outcome

/-- What is seen of a sequence, by the outcomes of its elements alone. The elements are entered
one after the other, each after the one before it resolved with values. -/
def reference (i : ℕ) (values : List V) : List (V ⊕ Outcome V E) → List (Event V E)
  | [] => [.called (.value values)]
  | .inl v :: rest => reference (i + 1) (values ++ [v]) rest
  | .inr none :: _ => [.started i]
  | .inr (some (.exception e)) :: _ => [.started i, .called (.exception e)]
  | .inr (some (.value vs)) :: rest =>
    .started i :: .assigned i vs :: reference (i + 1) (values ++ vs) rest

/-- A log in which unpacking a continuable looks like starting it. -/
def behaviour (log : List (Event V E)) : List (Event V E) :=
  log.map fun
    | .unpacked i => .started i
    | e => e

/-- Whenever it is looked at, the connection did what the reference does up to there, and all of
it when no continuable is pending. -/
def BehavesSequentially (garbage : ℕ → List V) (args : List (Arg V E)) : Prop :=
  ∀ wakes,
    behaviour (whenSeq garbage args wakes).user.log <+: reference 0 [] (args.map Arg.awaited) ∧
      ((whenSeq garbage args wakes).pending = none →
        behaviour (whenSeq garbage args wakes).user.log = reference 0 [] (args.map Arg.awaited))

/-- The first continuable that does not resolve with values, if there is one, is lazy. -/
def firstFailureIsLazy : List (Arg V E) → Bool
  | [] => true
  | .plain _ :: rest => firstFailureIsLazy rest
  | .continuable m :: rest =>
    match m.source with
    | .ready (.value _) => firstFailureIsLazy rest
    | .ready (.exception _) => false
    | .lazy _ (some (.value _)) => firstFailureIsLazy rest
    | .lazy _ _ => true

end Continuable.Seq
