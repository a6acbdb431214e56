import Continuable.Primitives

/-!
The operators `&&` and `||`.

A connection that is not finished yet is a tuple annotated with its strategy, and connecting it
to another operand with the same strategy puts the tuples together. Finishing it builds a
continuable that shares a submitter between its members, so an expression runs as a tree of
submitters, each with a counter, a flag and the boxes of its members.
-/

namespace Continuable.Operators

/-- `connection_strategy_all_tag` and `connection_strategy_any_tag`. -/
inductive Strategy
  | all
  | any
  deriving DecidableEq

/-- The data of a continuable without a strategy: an operand, or what `connection_finalizer`
makes of a tuple. -/
inductive Continuation (C : Type)
  | leaf (operand : C)
  | finalized (strategy : Strategy) (members : List (Continuation C))

/-- A `continuable_base`; its annotation may be a strategy. -/
inductive Connectable (C : Type)
  | plain (continuation : Continuation C)
  | connection (strategy : Strategy) (members : List (Continuation C))

variable {C V E : Type}

def finish : Connectable C → Continuation C
  | .plain c => c
  | .connection s members => .finalized s members

/-- `normalize`: a tuple that matches the strategy. -/
def normalize (s : Strategy) : Connectable C → List (Continuation C)
  | .plain c => [c]
  | .connection t members => if t = s then members else [finish (.connection t members)]

def connect (s : Strategy) (left right : Connectable C) : Connectable C :=
  .connection s (normalize s left ++ normalize s right)

/-- An expression over the operators. -/
inductive Expr (C : Type)
  | leaf (operand : C)
  | connect (strategy : Strategy) (left right : Expr C)

namespace Expr

/-- What the operators build. -/
def merged : Expr C → Connectable C
  | .leaf c => .plain (.leaf c)
  | .connect s l r => Operators.connect s l.merged r.merged

/-- Every operand is materialized before the next operator is applied. -/
def unmerged : Expr C → Connectable C
  | .leaf c => .plain (.leaf c)
  | .connect s l r =>
    Operators.connect s (.plain (finish l.unmerged)) (.plain (finish r.unmerged))

/-- The operands from left to right. -/
def operands : Expr C → List C
  | .leaf c => [c]
  | .connect _ l r => l.operands ++ r.operands

end Expr

/-! ### Running a tree of submitters -/

/-- `result_submitter` and `any_result_submitter`. -/
structure Submitter (V E : Type) where
  strategy : Strategy
  left : ℕ
  flag : Bool
  boxes : List (List V)

namespace Submitter

/-- `std::call_once` on `flag_`: what the downstream callback is called with, if at all. -/
def callOnce (s : Submitter V E) (signal : Signal V E) :
    Submitter V E × Option (Signal V E) :=
  if s.flag then (s, none) else ({ s with flag := true }, some signal)

/-- `complete_one`, with `invoke`. -/
def completeOne (s : Submitter V E) : Submitter V E × Option (Signal V E) :=
  let s := { s with left := s.left - 1 }
  if s.left = 0 then s.callOnce (.value s.boxes.flatten) else (s, none)

def createCallback (s : Submitter V E) : Submitter V E :=
  match s.strategy with
  | .all => { s with left := s.left + 1 }
  | .any => s

/-- The callback that was created for a member. -/
def receive (s : Submitter V E) (k : ℕ) (signal : Signal V E) :
    Submitter V E × Option (Signal V E) :=
  match s.strategy, signal with
  | .all, .value vs => { s with boxes := s.boxes.set k vs }.completeOne
  | .all, .exception e => s.callOnce (.exception e)
  | .any, signal => s.callOnce signal

/-- What a member may have called back with. -/
def receiveFrom (s : Submitter V E) (k : ℕ) : Option (Signal V E) →
    Submitter V E × Option (Signal V E)
  | none => (s, none)
  | some signal => s.receive k signal

/-- The end of the dispatch. -/
def accept (s : Submitter V E) : Submitter V E × Option (Signal V E) :=
  match s.strategy with
  | .all => s.completeOne
  | .any => (s, none)

end Submitter

/-- How far the invocation of an operand is. -/
inductive Phase
  | idle
  | running
  | returned
  deriving DecidableEq

/-- A continuable that is invoked. Operands are named by their position. -/
inductive Node (V E : Type)
  | leaf (name : ℕ) (phase : Phase) (resolved : Bool)
  | connection (submitter : Submitter V E) (entered dispatched : Bool)
      (members : List (Node V E))

namespace Node

def entered : Node V E → Bool
  | .leaf _ phase _ => phase ≠ .idle
  | .connection _ entered _ _ => entered

def dispatched : Node V E → Bool
  | .leaf _ phase _ => phase = .returned
  | .connection _ _ dispatched _ => dispatched

mutual

/-- An operand resolves, once it is started and if it has not resolved yet: the node afterwards,
and what its callback is called with. -/
def resolve (i : ℕ) (signal : Signal V E) : Node V E → Node V E × Option (Signal V E)
  | .leaf name phase resolved =>
    if name = i ∧ phase ≠ .idle ∧ resolved = false then (.leaf name phase true, some signal)
    else (.leaf name phase resolved, none)
  | .connection s entered dispatched members =>
    let r := resolveMembers i signal 0 members s
    (.connection r.2.1 entered dispatched r.1, r.2.2)

def resolveMembers (i : ℕ) (signal : Signal V E) (k : ℕ) :
    List (Node V E) → Submitter V E → List (Node V E) × Submitter V E × Option (Signal V E)
  | [], s => ([], s, none)
  | m :: members, s =>
    let r := resolve i signal m
    let t := s.receiveFrom k r.2
    let u := resolveMembers i signal (k + 1) members t.1
    (r.1 :: u.1, u.2.1, t.2.or u.2.2)

end

/-- What the dispatch does until it is inside of the next operand or returns. -/
structure Progress (α V E : Type) where
  target : α
  called : Option (Signal V E)
  started : Option ℕ

mutual

/-- The operand that was started last returns, and the dispatch goes on. -/
def proceed : Node V E → Progress (Node V E) V E
  | .leaf name .idle resolved => ⟨.leaf name .running resolved, none, some name⟩
  | .leaf name _ resolved => ⟨.leaf name .returned resolved, none, none⟩
  | .connection s _ _ members =>
    let r := proceedMembers 0 members s
    match r.started with
    | some name => ⟨.connection r.target.2 true false r.target.1, r.called, some name⟩
    | none =>
      let t := r.target.2.accept
      ⟨.connection t.1 true true r.target.1, r.called.or t.2, none⟩

/-- The loop over the members of a connection. -/
def proceedMembers (k : ℕ) : List (Node V E) → Submitter V E →
    Progress (List (Node V E) × Submitter V E) V E
  | [], s => ⟨([], s), none, none⟩
  | m :: members, s =>
    if m.dispatched then
      let r := proceedMembers (k + 1) members s
      ⟨(m :: r.target.1, r.target.2), r.called, r.started⟩
    else
      let s := if m.entered then s else s.createCallback
      let p := proceed m
      let t := s.receiveFrom k p.called
      match p.started with
      | some name => ⟨(p.target :: members, t.1), t.2, some name⟩
      | none =>
        let r := proceedMembers (k + 1) members t.1
        ⟨(p.target :: r.target.1, r.target.2), t.2.or r.called, r.started⟩

end

end Node

mutual

def Continuation.size : Continuation C → ℕ
  | .leaf _ => 1
  | .finalized _ members => sizes members

def sizes : List (Continuation C) → ℕ
  | [] => 0
  | c :: members => c.size + sizes members

end

mutual

/-- The operands in the order of their positions. -/
def Continuation.operands : Continuation C → List C
  | .leaf c => [c]
  | .finalized _ members => allOperands members

def allOperands : List (Continuation C) → List C
  | [] => []
  | c :: members => c.operands ++ allOperands members

end

mutual

/-- A continuable before it is invoked. -/
def Continuation.node (first : ℕ) : Continuation C → Node V E
  | .leaf _ => .leaf first .idle false
  | .finalized s members =>
    .connection ⟨s, 1, false, members.map fun _ => []⟩ false false (nodes first members)

def nodes (first : ℕ) : List (Continuation C) → List (Node V E)
  | [] => []
  | c :: members => c.node first :: nodes (first + c.size) members

end

/-- The dispatch goes on, or an operand resolves. -/
inductive Action (V E : Type)
  | proceed
  | resolve (i : ℕ) (signal : Signal V E)

inductive Event (V E : Type)
  | started (name : ℕ)
  | called (signal : Signal V E)
  deriving DecidableEq

/-- What is seen of a step: the downstream callback is called, or an operand is started. -/
def events (called : Option (Signal V E)) (started : Option ℕ) : List (Event V E) :=
  called.toList.map .called ++ started.toList.map .started

def step (n : Node V E) : Action V E → Node V E × List (Event V E)
  | .proceed =>
    if n.dispatched then (n, [])
    else (n.proceed.target, events n.proceed.called n.proceed.started)
  | .resolve i signal => ((n.resolve i signal).1, events (n.resolve i signal).2 none)

/-- What is seen of a run, step by step. -/
def run (n : Node V E) : List (Action V E) → List (List (Event V E))
  | [] => []
  | a :: schedule => (step n a).2 :: run (step n a).1 schedule

/-- A continuable is invoked and run. -/
def Continuation.run (c : Continuation C) (schedule : List (Action V E)) :
    List (List (Event V E)) :=
  Operators.run (c.node 0) schedule

end Continuable.Operators
