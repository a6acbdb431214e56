import Mathlib.Logic.Function.Basic

/-!
A mutex with a condition variable.

A thread that waits on the condition variable is blocked until it is woken, and has to take the
mutex again before it goes on. A notification wakes the threads that are blocked at that moment
and is not remembered for others; a thread may also wake up without one.
-/

namespace Continuable

structure Monitor (ι : Type) where
  holder : Option ι
  blocked : ι → Bool

namespace Monitor

variable {ι : Type}

def init : Monitor ι := ⟨none, fun _ => false⟩

/-- A thread takes the mutex, which is free. -/
def lock (m : Monitor ι) (t : ι) : Monitor ι := { m with holder := some t }

def unlock (m : Monitor ι) : Monitor ι := { m with holder := none }

def notifyAll (m : Monitor ι) : Monitor ι := { m with blocked := fun _ => false }

section

variable (m : Monitor ι) (t : ι)

@[simp] lemma init_holder : (init : Monitor ι).holder = none := rfl

@[simp] lemma init_blocked : (init : Monitor ι).blocked t = false := rfl

@[simp] lemma lock_holder : (m.lock t).holder = some t := rfl

@[simp] lemma lock_blocked : (m.lock t).blocked = m.blocked := rfl

@[simp] lemma unlock_holder : m.unlock.holder = none := rfl

@[simp] lemma unlock_blocked : m.unlock.blocked = m.blocked := rfl

@[simp] lemma notifyAll_holder : m.notifyAll.holder = m.holder := rfl

@[simp] lemma notifyAll_blocked : m.notifyAll.blocked t = false := rfl

end

variable [DecidableEq ι]

/-- The thread that holds the mutex releases it and blocks at once. -/
def block (m : Monitor ι) (t : ι) : Monitor ι := ⟨none, Function.update m.blocked t true⟩

/-- A thread wakes up by itself. -/
def wake (m : Monitor ι) (t : ι) : Monitor ι :=
  { m with blocked := Function.update m.blocked t false }

variable (m : Monitor ι) (t : ι)

@[simp] lemma block_holder : (m.block t).holder = none := rfl

@[simp] lemma block_blocked : (m.block t).blocked t = true := Function.update_self ..

@[simp] lemma wake_holder : (m.wake t).holder = m.holder := rfl

@[simp] lemma wake_blocked : (m.wake t).blocked t = false := Function.update_self ..

end Monitor

end Continuable
