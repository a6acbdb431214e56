import Continuable.Custody
import Continuable.Schedule

/-!
The storage of a result.

A `result_variant` has a tag and raw storage in which a payload may be alive. Its operations
destroy, tag and construct one after the other, and any move of a payload may throw in between.
-/

namespace Continuable.ResultVariant

open Schedule Custody

/-- A payload is a value or an exception. -/
inductive Kind
  | value
  | exception
  deriving DecidableEq

/-- `result_slot_t`. -/
inductive Slot
  | empty
  | value
  | exception
  deriving DecidableEq

/-- What the slot says is in the storage. -/
def Slot.holds : Slot → Option Kind
  | .empty => none
  | .value => some .value
  | .exception => some .exception

def Kind.slot : Kind → Slot
  | .value => .value
  | .exception => .exception

/-- A `result_variant`, with the payload that is alive in its storage. -/
structure Variant where
  slot : Slot
  storage : Option (Kind × ℕ)
  deriving DecidableEq

/-- The variants that exist. Payloads that are constructed in a storage are numbered. -/
structure State where
  variants : ℕ → Option Variant
  constructed : ℕ
  destroyed : List ℕ
  violated : Bool

namespace State

def init : State := ⟨fun _ => none, 0, [], false⟩

def set (s : State) (i : ℕ) (v : Option Variant) : State :=
  { s with variants := Function.update s.variants i v }

def violate (s : State) : State := { s with violated := true }

/-- `destroy`: it destroys what the slot says is alive. -/
def destroy (s : State) (i : ℕ) : State :=
  match s.variants i with
  | none => s
  | some v =>
    match v.slot.holds with
    | none => s
    | some kind =>
      match v.storage with
      | none => s.violate
      | some (k, p) =>
        if k = kind then
          { s.set i (some { v with storage := none }) with destroyed := s.destroyed ++ [p] }
        else s.violate

def retag (s : State) (i : ℕ) (slot : Slot) : State :=
  match s.variants i with
  | none => s
  | some v => s.set i (some { v with slot })

/-- A payload is constructed in the storage. -/
def construct (s : State) (i : ℕ) (kind : Kind) : State :=
  match s.variants i with
  | none => s
  | some v =>
    { s.set i (some { v with storage := some (kind, s.constructed) }) with
      constructed := s.constructed + 1 }

/-- A payload is moved from, which has to be alive. -/
def read (s : State) (j : ℕ) (kind : Kind) : State :=
  match (s.variants j).bind Variant.storage with
  | some (k, _) => if k = kind then s else s.violate
  | none => s.violate

/-- The constructors that take a value or an exception. -/
def fill (s : State) (i : ℕ) (kind : Kind) (throws : Bool) : State :=
  if throws then s else (s.set i (some ⟨kind.slot, none⟩)).construct i kind

/-- The end of both move operations. -/
def clear (s : State) (j : ℕ) : State := (s.destroy j).retag j .empty

/-- The move constructor. There is no variant when it is left by an exception. -/
def moveConstruct (s : State) (i j : ℕ) (other : Variant) (throws : Bool) : State :=
  let s := s.set i (some ⟨other.slot, none⟩)
  match other.slot.holds with
  | none => s.clear j
  | some kind =>
    let s := s.read j kind
    if throws then s.set i none else (s.construct i kind).clear j

/-- The move assignment. -/
def moveAssign (s : State) (i j : ℕ) (other : Variant) (throws : Bool) : State :=
  let s := (s.destroy i).retag i other.slot
  match other.slot.holds with
  | none => s.clear j
  | some kind =>
    let s := s.read j kind
    if throws then s else (s.construct i kind).clear j

/-- `set_value` and `set_exception`. -/
def assign (s : State) (i : ℕ) (kind : Kind) (throws : Bool) : State :=
  let s := s.destroy i
  if throws then s else (s.construct i kind).retag i kind.slot

def setEmpty (s : State) (i : ℕ) : State := (s.destroy i).retag i .empty

/-- The destructor. -/
def destruct (s : State) (i : ℕ) : State := (s.destroy i).set i none

end State

/-- An operation on variants; the payload that it moves may throw. -/
inductive Operation
  | default (i : ℕ)
  | fill (i : ℕ) (kind : Kind) (throws : Bool)
  | moveConstruct (i j : ℕ) (throws : Bool)
  | moveAssign (i j : ℕ) (throws : Bool)
  | setEmpty (i : ℕ)
  | assign (i : ℕ) (kind : Kind) (throws : Bool)
  | destruct (i : ℕ)

/-- Variants are constructed where there is none, and used where there is one. -/
def step (s : State) : Operation → State
  | .default i =>
    match s.variants i with
    | none => s.set i (some ⟨.empty, none⟩)
    | some _ => s
  | .fill i kind throws =>
    match s.variants i with
    | none => s.fill i kind throws
    | some _ => s
  | .moveConstruct i j throws =>
    match s.variants i, s.variants j with
    | none, some other => s.moveConstruct i j other throws
    | _, _ => s
  | .moveAssign i j throws =>
    match s.variants i, s.variants j with
    | some _, some other => s.moveAssign i j other throws
    | _, _ => s
  | .setEmpty i =>
    match s.variants i with
    | none => s
    | some _ => s.setEmpty i
  | .assign i kind throws =>
    match s.variants i with
    | none => s
    | some _ => s.assign i kind throws
  | .destruct i =>
    match s.variants i with
    | none => s
    | some _ => s.destruct i

/-- Every history of operations. -/
def runVariants (history : List Operation) : State := run step .init history

def Alive (s : State) (p : ℕ) : Prop :=
  ∃ i v k, s.variants i = some v ∧ v.storage = some (k, p)

/-- Every slot says what is alive in its storage, nothing was read or destroyed that was not alive,
and every payload is alive or was destroyed once. -/
structure Consistent (s : State) : Prop where
  slots : ∀ i v, s.variants i = some v → v.storage.map Prod.fst = v.slot.holds
  sound : s.violated = false
  once : ∀ p < s.constructed,
    (Alive s p ∧ s.destroyed.count p = 0) ∨ (¬ Alive s p ∧ s.destroyed.count p = 1)

/-- There is a variant that is not empty. -/
def occupied (s : State) (i : ℕ) : Bool := (s.variants i).any fun v => v.slot ≠ .empty

/-- A move assignment of a payload that throws or comes from the variant itself; or an assignment
to a variant that is not empty, when the move of the payload throws. -/
def faulty (s : State) : Operation → Bool
  | .moveAssign i j throws => (s.variants i).isSome && occupied s j && (throws || i = j)
  | .assign i _ throws => occupied s i && throws
  | .default _ | .fill _ _ _ | .moveConstruct _ _ _ | .setEmpty _ | .destruct _ => false

end Continuable.ResultVariant
