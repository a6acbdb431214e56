import Continuable.WaitUnsafe

/-!
What a wait with a timeout returns.

The two threads share the result under a mutex of its own. The waiter returns what the first call
of the unlocker stored, or the empty result when its time was over before that.
-/

namespace Continuable.WaitUnsafe

open Schedule

variable {V E : Type}

/-- The waiter accesses the result. -/
def Waiter.reads : Waiter V E → Bool
  | .read | .unlockResult _ => true
  | _ => false

/-- The callback accesses the result. -/
def Resolver.writes : Resolver V E → Bool
  | .write _ | .unlockResult => true
  | _ => false

/-- The waiter is in the part of its wait that holds the mutex of the condition variable. -/
def Waiter.waits : Waiter V E → Bool
  | .test | .block | .unlock => true
  | _ => false

/-- The callback has stored its result. -/
def Resolver.stored : Resolver V E → Bool
  | .unlockResult | .store | .notify | .leave => true
  | _ => false

/-- The wait is over. -/
def Waiter.through : Waiter V E → Bool
  | .unlock | .lockResult | .read => true
  | _ => false

/-- What a call of the unlocker brings along. -/
def Action.unlocks : Action V E → Option (Result V E)
  | .unlock r => some r
  | _ => none

def Action.expires : Action V E → Bool
  | .timeout => true
  | _ => false

/-! ### The mutexes -/

/-- Who is in the critical section of the result. -/
def holder (w : Waiter V E) (r : Resolver V E) : Option Thread :=
  if w.reads then some .waiter else if r.writes then some .resolver else none

section mutexes

variable {s : State V E}

end mutexes

/-! ### The result -/

section results

variable {first : Option (Result V E)} {timed : Bool} {s : State V E}

end results

/-! ### The end of the wait -/

/-- How far the waiter is from its return when its time is over. -/
def rank : Waiter V E → ℕ
  | .starting => 11
  | .check => 10
  | .lock => 9
  | .test => 8
  | .block => 7
  | .waiting => 6
  | .expired => 5
  | .unlock => 4
  | .lockResult => 3
  | .read => 2
  | .unlockResult _ => 1
  | .returned _ => 0

section progress

variable {s : State V E}

/-- The unlocker need not be called for this. -/
def Returns (s : State V E) : Prop :=
  ∃ more : List (Action V E), (∀ a ∈ more, a.unlocks = none) ∧
    ∃ r, (run step s more).waiter = .returned r

end progress

/-- The threads are not in the critical section of the result together, and the flag is not set
before the result is stored. The waiter returns what the unlocker was first called with, or the
empty result when its time is over; and it can return without the unlocker. -/
structure Behaves (schedule : List (Action V E)) (s : State V E) : Prop where
  exclusive : s.waiter.reads = true → s.resolver.writes = false
  asserted : ∀ r, s.resolver = .write r → s.frame.ready = false
  result : ∀ r, s.waiter = .returned r → schedule.findSome? Action.unlocks = some r ∨
    (schedule.any Action.expires = true ∧ r = .empty)
  returns : Returns s

end Continuable.WaitUnsafe
