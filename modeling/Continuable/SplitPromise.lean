import Continuable.Primitives
import Continuable.PackTypes

/-!
Promises that are split into several ones.

Resolving a `split_promise` calls the promises of its pack with its arguments as l-values, so that
each of them copies what it takes by value, and then calls the first promise with the arguments
forwarded. What arguments were moved from is tracked.
-/

namespace Continuable.Split

open Packs

/-- What can be split. A plain callable takes its arguments by value. A type-erased promise is a
`promise_base` over an erasure with what is stored there. -/
inductive Promise
  | callable (id : ℕ)
  | erased (id : ℕ) (content : Option Promise)
  | split (first : Promise) (promises : List (Pack Unit fun _ => Promise))

/-- The promises of a pack. -/
abbrev Promises := Pack Unit fun _ => Promise

/-- How an argument is passed. -/
inductive Pass
  | lvalue
  | rvalue
  deriving DecidableEq

/-- What is called: the call operator of a callable or of a promise that is not empty, with the
arguments if they were not moved from before; or that of an empty promise. -/
inductive Event (V E : Type)
  | called (id : ℕ) (args : Option (Signal V E))
  | empty (id : ℕ)
  deriving DecidableEq

variable {V E : Type}

/-- What the caller keeps of arguments that are taken by value. -/
def Pass.leaves : Pass → Option (Signal V E) → Option (Signal V E)
  | .lvalue, args => args
  | .rvalue, _ => none

/-! ### Validity -/

/-- `operator_bool_or`: the value of `operator bool` where the type has one. -/
def operatorBoolOr (value : Option Bool) (otherwise : Bool) : Bool := value.getD otherwise

namespace Promise

mutual

/-- `operator bool` as `operator_bool_or<T, true>` reads it. -/
def operatorBool : Promise → Bool
  | .callable _ => operatorBoolOr none true
  | .erased _ content => operatorBoolOr (some content.isSome) true
  | .split first ps => operatorBoolOr (some (boolAll (operatorBool first) ps)) true

/-- The traversal of `split_promise::operator bool`, which ends up with `is_valid`. -/
def boolPack (isValid : Bool) : Promises → Bool
  | .leaf _ p => if !isValid && operatorBool p then true else isValid
  | .tupleLike _ ps | .array _ ps | .container _ ps => boolAll isValid ps

def boolAll (isValid : Bool) : List Promises → Bool
  | [] => isValid
  | p :: ps => boolAll (boolPack isValid p) ps

end

/-- A promise is stored in a new type-erased one, which is empty if the promise was. -/
def store (id : ℕ) (p : Promise) : Promise :=
  if operatorBool p then .erased id (some p) else .erased id none

/-! ### Resolving -/

mutual

/-- The call operators: what becomes of the promise and of the arguments of the caller. A promise
takes its arguments by value and moves them on through its erasure. -/
def call : Promise → Pass → Option (Signal V E) →
    Promise × Option (Signal V E) × List (Event V E)
  | .callable id, pass, args => (.callable id, pass.leaves args, [.called id args])
  | .erased id none, pass, args => (.erased id none, pass.leaves args, [.empty id])
  | .erased id (some content), pass, args =>
    (.erased id none, pass.leaves args, .called id args :: (call content .rvalue args).2.2)
  | .split first ps, pass, args =>
    let r := callAll ps args
    if operatorBool first then
      let q := call first pass r.2.1
      (.split q.1 r.1, q.2.1, r.2.2 ++ q.2.2)
    else (.split first r.1, r.2.1, r.2.2)

/-- The traversal of `split_promise::operator()`. That of an array would not compile. -/
def callPack : Promises → Option (Signal V E) →
    Promises × Option (Signal V E) × List (Event V E)
  | .leaf u p, args =>
    if operatorBool p then
      let r := call p .lvalue args
      (.leaf u r.1, r.2.1, r.2.2)
    else (.leaf u p, args, [])
  | .tupleLike b ps, args =>
    let r := callAll ps args
    (.tupleLike b r.1, r.2.1, r.2.2)
  | .array t ps, args =>
    let r := callAll ps args
    (.array t r.1, r.2.1, r.2.2)
  | .container t ps, args =>
    let r := callAll ps args
    (.container t r.1, r.2.1, r.2.2)

def callAll : List Promises → Option (Signal V E) →
    List Promises × Option (Signal V E) × List (Event V E)
  | [], args => ([], args, [])
  | p :: ps, args =>
    let r := callPack p args
    let rs := callAll ps r.2.1
    (r.1 :: rs.1, rs.2.1, r.2.2 ++ rs.2.2)

end

/-- `std::move(p)(args...)` and the members that resolve with it. -/
def resolve (p : Promise) (signal : Signal V E) : List (Event V E) :=
  (call p .rvalue (some signal)).2.2

def setValue (p : Promise) (args : List V) : List (Event V E) := p.resolve (.value args)

def setException (p : Promise) (exception : Option E) : List (Event V E) :=
  p.resolve (.exception exception)

/-- A default constructed exception. -/
def setCanceled (p : Promise) : List (Event V E) := p.resolve (.exception none)

mutual

/-- The callables and promises in a promise that are not empty. -/
def contained : Promise → List ℕ
  | .callable id => [id]
  | .erased _ none => []
  | .erased id (some content) => id :: contained content
  | .split first ps => contained first ++ containedAll ps

def containedPack : Promises → List ℕ
  | .leaf _ p => contained p
  | .tupleLike _ ps | .array _ ps | .container _ ps => containedAll ps

def containedAll : List Promises → List ℕ
  | [] => []
  | p :: ps => containedPack p ++ containedAll ps

end

end Promise

/-- What is obtained by splitting and storing promises. -/
inductive Obtained : Promise → Prop
  | callable (id : ℕ) : Obtained (.callable id)
  | empty (id : ℕ) : Obtained (.erased id none)
  | store (id : ℕ) {p : Promise} : Obtained p → Obtained (p.store id)
  | split {first : Promise} {ps : List Promises} : Obtained first →
      (∀ p ∈ ps, ∀ x ∈ p.leaves, Obtained x.2) → Obtained (.split first ps)

end Continuable.Split
