import Mathlib.Data.Option.Basic

/-!
The ownership token of a continuable: whether it still is valid, and whether it starts by
itself when it is destroyed. Operations that assert fail where their assertion does.
-/

namespace Continuable

/-- `util::ownership`. -/
structure Ownership where
  acquired : Bool
  frozen : Bool
  deriving DecidableEq

namespace Ownership

def default : Ownership := ⟨true, false⟩

/-- `operator|`. -/
def merge (o right : Ownership) : Ownership :=
  ⟨o.acquired && right.acquired, o.frozen || right.frozen⟩

def release (o : Ownership) : Option Ownership :=
  if o.acquired then some { o with acquired := false } else none

def freeze (o : Ownership) (enabled : Bool) : Option Ownership :=
  if o.acquired then some { o with frozen := enabled } else none

/-- `consume`: whether the token was acquired, and what is left of it. -/
def consume (o : Ownership) : Bool × Ownership := (o.acquired, { o with acquired := false })

/-- The move constructor and the move assignment: the new token, and what is left of the right
one. -/
def moved (right : Ownership) : Ownership × Ownership :=
  let c := right.consume
  (⟨c.1, c.2.frozen⟩, c.2)

/-- Whether the destructor invokes the continuable. -/
def invokesOnDestruction (o : Ownership) : Bool := o.acquired && !o.frozen

@[simp] lemma moved_fst (o : Ownership) : o.moved.1 = o := rfl

lemma acquired_of_invokes {o : Ownership} (h : o.invokesOnDestruction = true) :
    o.acquired = true := by
  simp only [invokesOnDestruction, Bool.and_eq_true] at h
  exact h.1

lemma release_of_acquired {o : Ownership} (h : o.acquired = true) :
    o.release = some { o with acquired := false } := if_pos h

lemma freeze_of_acquired {o : Ownership} (h : o.acquired = true) (enabled : Bool) :
    o.freeze enabled = some { o with frozen := enabled } := if_pos h

end Ownership

end Continuable
