import Mathlib.Data.List.Basic

/-!
Calls whose work is spread over several activations.

A call runs until it returns. What it handed to the environment runs later, in an activation of
its own; the `try` blocks around the call are left by then.
-/

namespace Continuable.Activation

/-- What a call does: the events it logs, how its activation ends, and what the environment
does with the rest. -/
inductive Task (ε E : Type)
  | ret
  | raised (e : E)
  | terminated
  | emit (event : ε) (rest : Task ε E)
  | later (rest : Task ε E)

variable {ε E : Type}

namespace Task

/-- `try { t } catch (...) { handler }`. -/
def tryCatch (handler : E → Task ε E) : Task ε E → Task ε E
  | .ret => .ret
  | .raised e => handler e
  | .terminated => .terminated
  | .emit event rest => .emit event (tryCatch handler rest)
  | .later rest => .later rest

/-- A call through a function marked `noexcept`. -/
def noexcept : Task ε E → Task ε E := tryCatch fun _ => .terminated

/-- The activation of the call returns. -/
def Returns : Task ε E → Prop
  | .ret => True
  | .raised _ | .terminated => False
  | .emit _ rest => Returns rest
  | .later _ => True

lemma tryCatch_of_returns {t : Task ε E} (h : t.Returns) (handler : E → Task ε E) :
    t.tryCatch handler = t := by
  induction t with
  | ret => rfl
  | raised e => exact absurd h id
  | terminated => rfl
  | emit event rest ih => rw [tryCatch, ih h]
  | later rest => rfl

lemma noexcept_of_returns {t : Task ε E} (h : t.Returns) : t.noexcept = t :=
  tryCatch_of_returns h _

/-- Everything that is logged. -/
def log : Task ε E → List ε
  | .ret | .raised _ | .terminated => []
  | .emit event rest => event :: log rest
  | .later rest => log rest

/-- What is logged once the environment went on a number of times. -/
def seen : ℕ → Task ε E → List ε
  | _, .ret | _, .raised _ | _, .terminated => []
  | n, .emit event rest => event :: seen n rest
  | 0, .later _ => []
  | n + 1, .later rest => seen n rest

/-- Whether the environment has something to go on with by then. -/
def pending : ℕ → Task ε E → Bool
  | _, .ret | _, .raised _ | _, .terminated => false
  | n, .emit _ rest => pending n rest
  | 0, .later _ => true
  | n + 1, .later rest => pending n rest

lemma seen_prefix (n : ℕ) (t : Task ε E) : t.seen n <+: t.log := by
  induction t generalizing n with
  | ret | raised _ | terminated => exact List.prefix_rfl
  | emit event rest ih => simpa only [seen, log] using (List.prefix_cons_inj event).2 (ih n)
  | later rest ih =>
    cases n with
    | zero => exact List.nil_prefix
    | succ n => exact ih n

lemma seen_of_not_pending {n : ℕ} {t : Task ε E} (h : t.pending n = false) :
    t.seen n = t.log := by
  induction t generalizing n with
  | ret | raised _ | terminated => rfl
  | emit event rest ih => rw [seen, log, ih h]
  | later rest ih =>
    cases n with
    | zero => cases h
    | succ n => exact ih h

end Task

end Continuable.Activation
