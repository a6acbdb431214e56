import Continuable.SeqCalls
import Continuable.SubmitterOwners

/-!
Ending a chain with a handler.

A continuable is a chain or a connection, together with the way it ends. Attaching a last handler
and starting it gives the handler to the proxy: it is called with what the continuable resolves
to, or destroyed with the proxy.
-/

namespace Continuable

open Effect ChainDestruction SubmitterOwners

variable {ε V E : Type}

/-- What a pack of values is handed out as: nothing, the value, or a `std::tuple`. -/
inductive Boxed (V : Type)
  | void
  | plain (v : V)
  | tuple (vs : List V)
  deriving DecidableEq

def boxed : List V → Boxed V
  | [] => .void
  | [v] => .plain v
  | vs => .tuple vs

/-- A run of an `all` or `any` connection up to its end. -/
structure Connection (V E : Type) where
  strategy : Operators.Strategy
  members : List (Chain.Continuation V E)
  schedule : List Action
  finished : (runConnection strategy members schedule).owners = ∅

/-- A run of a sequential connection up to its end. -/
structure Sequence (V E : Type) where
  garbage : ℕ → List V
  args : List (Seq.Arg V E)
  wakes : ℕ
  finished : (Seq.whenSeq garbage args wakes).pending = none

/-- What a connection does to the callback that it is invoked with. -/
def Connection.uses (k : Connection V E) : List (Use V E) :=
  (runConnection k.strategy k.members k.schedule).uses

/-- The callback is stored in the frame of the traversal, and destroyed with it. -/
def Sequence.uses (q : Sequence V E) : List (Use V E) :=
  match Seq.called (Seq.whenSeq q.garbage q.args q.wakes).user.log with
  | [] => [.destroyed]
  | signals => signals.map .called

lemma Connection.uses_eq (k : Connection V E) : ∃ o, k.uses = [useOf o] :=
  uses_of_finished k.strategy k.members k.schedule k.finished

lemma Sequence.uses_eq (q : Sequence V E) : ∃ o, q.uses = [useOf o] := by
  obtain ⟨signal, hsignal⟩ := Seq.called_whenSeq q.garbage q.args q.wakes q.finished
  cases signal with
  | none => exact ⟨none, by rw [uses, hsignal]; rfl⟩
  | some s => exact ⟨some s, by rw [uses, hsignal]; rfl⟩

/-- A `continuable_base` whose strategy is finished, with the way it ends. -/
inductive ContinuableBase (V E : Type)
  | chain (continuation : Chain.Continuation V E)
  | connection (connection : Connection V E)
  | sequence (sequence : Sequence V E)

namespace ContinuableBase

def isReady : ContinuableBase V E → Bool
  | .chain c => c.isReady
  | _ => false

def unpack : ContinuableBase V E → Option (Result V E)
  | .chain c => c.unpack.map Prod.snd
  | _ => none

/-- How a continuable ends. -/
def outcome : ContinuableBase V E → Outcome V E
  | .chain c => c.outcome
  | .connection k => ending k.uses
  | .sequence q => ending q.uses

/-- `std::move(continuable).next(handler).done()`. -/
def nextDone (b : ContinuableBase V E) (handler : Callback ε V E) : Eff ε E Unit :=
  match b with
  | .chain c => ChainDestruction.nextDone c handler
  | .connection k => noexcept ((handlerProxy handler).perform k.uses)
  | .sequence q => noexcept ((handlerProxy handler).perform q.uses)

/-- What is done to a handler that a continuable ends with. -/
def handlerUses (b : ContinuableBase V E) : List (Use V E) := (b.nextDone recorder).log

lemma perform_handlerProxy {handler : Callback ε V E} (h : handler.Returns) {us : List (Use V E)}
    (hus : ∃ o, us = [useOf o]) :
    noexcept ((handlerProxy handler).perform us) = handler.settle (ending us) := by
  obtain ⟨o, rfl⟩ := hus
  rw [perform_useOf (handlerProxy_returns h), handlerProxy_settle h, ending_useOf]
  exact noexcept_of_returns (h.settle o)

/-- **The last handler of a continuable** is called with what the continuable resolves to, or
destroyed when it does not. -/
theorem nextDone_eq (b : ContinuableBase V E) {handler : Callback ε V E} (h : handler.Returns) :
    b.nextDone handler = handler.settle b.outcome := by
  cases b with
  | chain c => exact ChainDestruction.nextDone_eq c h
  | connection k => exact perform_handlerProxy h k.uses_eq
  | sequence q => exact perform_handlerProxy h q.uses_eq

lemma handlerUses_eq (b : ContinuableBase V E) : b.handlerUses = [useOf b.outcome] := by
  rw [handlerUses, b.nextDone_eq recorder_returns, recorder_settle]
  rfl

/-- A continuable as the source of a chain, or as a member of a connection. -/
def continuation : ContinuableBase V E → Chain.Continuation V E
  | .chain c => c
  | b => .lazy 0 b.outcome

/-- There it uses the callback it is given as it does by itself. -/
theorem handlerUses_continuation (b : ContinuableBase V E) :
    ChainDestruction.handlerUses b.continuation = b.handlerUses := by
  have houtcome : b.continuation.outcome = b.outcome := by
    cases b <;> rfl
  rw [ChainDestruction.handlerUses_eq, b.handlerUses_eq, houtcome]

lemma unpack_of_ready {b : ContinuableBase V E} (h : b.isReady = true) :
    ∃ r, b.unpack = some r ∧ b.outcome = r.outcome := by
  cases b with
  | chain c =>
    obtain ⟨n, r, hu, ho, -⟩ := Chain.unpack_of_ready h
    exact ⟨r, by rw [unpack, hu]; rfl, ho⟩
  | connection k => cases h
  | sequence q => cases h

end ContinuableBase

end Continuable
