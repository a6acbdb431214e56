import Mathlib.Data.List.Basic

/-!
Calls that log events and may leave through an exception.

A call ends by returning, by an exception that travels up, or by terminating the whole
program: an exception that reaches a function marked `noexcept` is not caught anywhere.
-/

namespace Continuable.Effect

/-- How a call ends. -/
inductive Exit (E α : Type)
  | ret (a : α)
  | raised (e : E)
  | terminated
  deriving DecidableEq

/-- A call: the events it logs, then how it ends. -/
structure Eff (ε E α : Type) where
  log : List ε
  exit : Exit E α

variable {ε E α β : Type}

namespace Eff

protected def pure (a : α) : Eff ε E α := ⟨[], .ret a⟩

/-- Run the rest after a call that returned; an exception skips the rest. -/
protected def bind (m : Eff ε E α) (k : α → Eff ε E β) : Eff ε E β :=
  match m.exit with
  | .ret a => ⟨m.log ++ (k a).log, (k a).exit⟩
  | .raised e => ⟨m.log, .raised e⟩
  | .terminated => ⟨m.log, .terminated⟩

instance : Monad (Eff ε E) where
  pure := Eff.pure
  bind := Eff.bind

end Eff

def emit (e : ε) : Eff ε E Unit := ⟨[e], .ret ()⟩
def emitAll (es : List ε) : Eff ε E Unit := ⟨es, .ret ()⟩
def throwing (e : E) : Eff ε E α := ⟨[], .raised e⟩
def terminate : Eff ε E α := ⟨[], .terminated⟩

/-- `try { m } catch (...) { handler }`. -/
def tryCatch (m : Eff ε E α) (handler : E → Eff ε E α) : Eff ε E α :=
  match m.exit with
  | .raised e => ⟨m.log ++ (handler e).log, (handler e).exit⟩
  | _ => m

/-- A call through a function marked `noexcept`. -/
def noexcept (m : Eff ε E α) : Eff ε E α :=
  match m.exit with
  | .raised _ => ⟨m.log, .terminated⟩
  | _ => m

/-- The call returns. -/
def Returns (m : Eff ε E Unit) : Prop := m.exit = .ret ()

lemma eff_ext {m n : Eff ε E α} (hl : m.log = n.log) (he : m.exit = n.exit) : m = n := by
  cases m; cases n; simp_all

@[simp] lemma pure_log (a : α) : (pure a : Eff ε E α).log = [] := rfl
@[simp] lemma throwing_log (e : E) : (throwing e : Eff ε E α).log = [] := rfl
@[simp] lemma throwing_exit (e : E) : (throwing e : Eff ε E α).exit = .raised e := rfl
@[simp] lemma emitAll_bind (es : List ε) (k : Unit → Eff ε E β) :
    (emitAll es : Eff ε E Unit) >>= k = ⟨es ++ (k ()).log, (k ()).exit⟩ := rfl

lemma noexcept_of_returns {m : Eff ε E Unit} (h : Returns m) : noexcept m = m := by
  unfold noexcept; rw [h]

lemma tryCatch_of_returns {m : Eff ε E Unit} (h : Returns m) (k : E → Eff ε E Unit) :
    tryCatch m k = m := by
  unfold tryCatch; rw [h]

lemma tryCatch_emitAll_throwing (es : List ε) (e : E) (k : E → Eff ε E Unit) :
    tryCatch (emitAll es >>= fun _ => throwing e) k = emitAll es >>= fun _ => k e := by
  simp [tryCatch]

end Continuable.Effect
