import Mathlib.Data.List.Basic
import Mathlib.Logic.Function.Iterate

/-!
A loop over a list whose body may suspend it.

The body is called on one item after the other. On each it either continues at once, or it is
called again with a callable that resumes the loop behind the item, which it calls within that
call, later, or never.
-/

namespace Continuable.ResumableLoop

/-- What a body does with the callable it is handed. -/
inductive Resumption | immediately | kept | dropped
  deriving DecidableEq

/-- A body with a state of its own. `wake` runs whenever the body gets to decide on a callable
it kept; `resumed` runs when a call of the callable has returned. -/
structure Body (σ α : Type) where
  visit : α → σ → Bool × σ
  detach : α → σ → Resumption × σ
  wake : α → σ → Bool × σ
  resumed : α → σ → σ
  complete : σ → σ

inductive Event (α : Type)
  | visit (a : α)
  | detach (a : α)
  | resume (a : α)
  | complete
  deriving DecidableEq

/-- The state of a loop; the pending item comes with the items behind it. -/
structure Loop (σ α : Type) where
  user : σ
  log : List (Event α)
  pending : Option (α × List α)

variable {σ α : Type} (body : Body σ α)

namespace Loop

def emit (s : Loop σ α) (e : Event α) : Loop σ α := { s with log := s.log ++ [e] }

def withUser (s : Loop σ α) (u : σ) : Loop σ α := { s with user := u }

@[simp] lemma emit_user (s : Loop σ α) (e : Event α) : (s.emit e).user = s.user := rfl

@[simp] lemma withUser_user (s : Loop σ α) (u : σ) : (s.withUser u).user = u := rfl

/-- Loop over the items. -/
def run : List α → Loop σ α → Loop σ α
  | [], s => { s.emit .complete with user := body.complete s.user }
  | a :: rest, s =>
    let v := body.visit a s.user
    let s := (s.emit (.visit a)).withUser v.2
    if v.1 then run rest s
    else
      let d := body.detach a s.user
      let s := (s.emit (.detach a)).withUser d.2
      match d.1 with
      | .immediately =>
        let s := run rest (s.emit (.resume a))
        s.withUser (body.resumed a s.user)
      | .kept => { s with pending := some (a, rest) }
      | .dropped => s

/-- The body gets to decide on the callable it kept. -/
def wake (s : Loop σ α) : Loop σ α :=
  match s.pending with
  | none => s
  | some (a, rest) =>
    let w := body.wake a s.user
    let s := { s.withUser w.2 with pending := none }
    if w.1 then
      let s := run body rest (s.emit (.resume a))
      s.withUser (body.resumed a s.user)
    else s

/-- A loop over the items, after the body decided a number of times. -/
def after (items : List α) (u : σ) (wakes : ℕ) : Loop σ α :=
  (wake body)^[wakes] (run body items ⟨u, [], none⟩)

end Loop

/-! ### What a log says -/

def visited (log : List (Event α)) : List α :=
  log.filterMap fun | .visit a => some a | _ => none

def detached (log : List (Event α)) : List α :=
  log.filterMap fun | .detach a => some a | _ => none

def resumed (log : List (Event α)) : List α :=
  log.filterMap fun | .resume a => some a | _ => none

lemma visited_append (l m : List (Event α)) : visited (l ++ m) = visited l ++ visited m :=
  List.filterMap_append

lemma detached_append (l m : List (Event α)) : detached (l ++ m) = detached l ++ detached m :=
  List.filterMap_append

lemma resumed_append (l m : List (Event α)) : resumed (l ++ m) = resumed l ++ resumed m :=
  List.filterMap_append

/-- The loop visited every item in order, the callable of every detached one was called, and it
completed after that, once. -/
def Finished (items called : List α) (log : List (Event α)) : Prop :=
  ∃ l, log = l ++ [.complete] ∧ .complete ∉ l ∧ visited l = items ∧ detached l = called

/-- The loop visited the items in order up to one that was detached, whose callable was not
called. -/
def Stopped (items called : List α) (log : List (Event α)) (a : α) (rest : List α) : Prop :=
  (∃ l, visited log = l ++ [a] ∧ items = l ++ a :: rest) ∧
    detached log = called ++ [a] ∧ .complete ∉ log

/-- The loop is about to visit the rest of the items. -/
def Running (items : List α) (s : Loop σ α) (rest : List α) : Prop :=
  visited s.log ++ rest = items ∧ detached s.log = resumed s.log ∧ .complete ∉ s.log ∧
    s.pending = none

/-- The loop stands still. -/
def Idle (items : List α) (s : Loop σ α) : Prop :=
  (Finished items (resumed s.log) s.log ∧ s.pending = none) ∨
    ∃ a rest, Stopped items (resumed s.log) s.log a rest ∧
      (s.pending = none ∨ s.pending = some (a, rest))

lemma idle_withUser {items : List α} {s : Loop σ α} (u : σ) (h : Idle items s) :
    Idle items (s.withUser u) := h

/-- **What a run preserves**: it ends finished, or stopped at a detached item. -/
lemma run_idle {items : List α} (rest : List α) (s : Loop σ α) (h : Running items s rest) :
    Idle items (Loop.run body rest s) := by
  induction rest generalizing s with
  | nil =>
    obtain ⟨hv, hd, hc, hp⟩ := h
    rw [List.append_nil] at hv
    refine Or.inl ⟨⟨s.log, rfl, hc, hv, ?_⟩, hp⟩
    simp only [Loop.run, Loop.emit, resumed_append]
    rw [hd]
    exact (List.append_nil _).symm
  | cons a rest ih =>
    obtain ⟨hv, hd, hc, hp⟩ := h
    unfold Loop.run
    rcases hvis : body.visit a s.user with ⟨continues, u⟩
    simp only
    -- what the log says once the item was visited
    have hv' : visited (s.log ++ [.visit a]) ++ rest = items := by
      rw [visited_append]; simpa [visited] using hv
    have hd' : detached (s.log ++ [.visit a]) = resumed (s.log ++ [.visit a]) := by
      rw [detached_append, resumed_append, hd]; simp [detached, resumed]
    have hc' : .complete ∉ s.log ++ [.visit a] := by simp [hc]
    by_cases hcont : continues
    · rw [if_pos hcont]
      exact ih _ ⟨hv', hd', hc', hp⟩
    · rw [if_neg hcont]
      have hstop : Stopped items (resumed (s.log ++ [.visit a] ++ [.detach a]))
          (s.log ++ [.visit a] ++ [.detach a]) a rest := by
        refine ⟨⟨visited s.log, by simp [visited], by rw [hv]⟩, ?_, by simp [hc]⟩
        rw [detached_append, resumed_append, hd']; simp [detached, resumed]
      rcases body.detach a ((s.emit (.visit a)).withUser u).user with ⟨r, u'⟩
      cases r with
      | immediately =>
        refine idle_withUser _ (ih _ ⟨?_, ?_, by simp [Loop.emit, Loop.withUser, hc], hp⟩)
        · simpa [Loop.emit, Loop.withUser, visited] using hv
        · simpa [Loop.emit, Loop.withUser, detached, resumed] using hd
      | kept => exact Or.inr ⟨a, rest, hstop, Or.inr rfl⟩
      | dropped => exact Or.inr ⟨a, rest, hstop, Or.inl hp⟩

lemma wake_idle {items : List α} {s : Loop σ α} (h : Idle items s) :
    Idle items (Loop.wake body s) := by
  unfold Loop.wake
  rcases hpend : s.pending with _ | ⟨a, rest⟩
  · exact h
  · rcases h with ⟨-, hn⟩ | ⟨b, rest', ⟨⟨l, hv, hitems⟩, hd, hc⟩, hp⟩
    · rw [hn] at hpend; cases hpend
    · obtain ⟨rfl, rfl⟩ : b = a ∧ rest' = rest := by
        rcases hp with hp | hp <;> rw [hp] at hpend <;> simp_all
      simp only
      by_cases hw : (body.wake b s.user).1 = true
      · rw [if_pos hw]
        refine idle_withUser _ (run_idle body _ _ ⟨?_, ?_, by simp [Loop.emit, Loop.withUser, hc],
          rfl⟩)
        · simp only [Loop.emit, Loop.withUser, visited_append, hv, hitems]
          simp [visited]
        · simp only [Loop.emit, Loop.withUser, detached_append, resumed_append, hd]
          simp [detached, resumed]
      · rw [if_neg hw]
        exact Or.inr ⟨b, rest', ⟨⟨l, hv, hitems⟩, hd, hc⟩, Or.inl rfl⟩

/-- **Every run**: whatever the body decides, the loop stands still finished or stopped. -/
theorem after_idle (items : List α) (u : σ) (wakes : ℕ) :
    Idle items (Loop.after body items u wakes) := by
  unfold Loop.after
  induction wakes with
  | zero => exact run_idle body items _ ⟨rfl, rfl, by simp, rfl⟩
  | succ n ih =>
    rw [Function.iterate_succ_apply']
    exact wake_idle body ih

/-! ### What a loop settles to

A body whose state only grows a record, and that does nothing once a callable returned, ends
up in the same state however long it waits with the callables it keeps. -/

namespace Body

/-- The state of the body once it called every callable it kept and is going to call. -/
def settled (items : List α) (u : σ) : σ :=
  match items with
  | [] => body.complete u
  | a :: rest =>
    let v := body.visit a u
    if v.1 then settled rest v.2
    else
      let d := body.detach a v.2
      match d.1 with
      | .immediately => settled rest d.2
      | .kept =>
        let w := body.wake a d.2
        if w.1 then settled rest w.2 else w.2
      | .dropped => d.2

/-- The body only appends to a record. -/
structure Records {β : Type} (record : σ → List β) : Prop where
  visit : ∀ a u, record u <+: record (body.visit a u).2
  detach : ∀ a u, record u <+: record (body.detach a u).2
  wake : ∀ a u, record u <+: record (body.wake a u).2
  complete : ∀ u, record u <+: record (body.complete u)
  resumed : ∀ a u, body.resumed a u = u

end Body

lemma wake_of_idle {s : Loop σ α} (h : s.pending = none) (n : ℕ) :
    (Loop.wake body)^[n] s = s := by
  induction n with
  | zero => rfl
  | succ n ih =>
    rw [Function.iterate_succ_apply']
    simp only [ih, Loop.wake, h]

variable {body} {β : Type} {record : σ → List β}

lemma settled_record (hb : body.Records record) (items : List α) (u : σ) :
    record u <+: record (body.settled items u) := by
  induction items generalizing u with
  | nil => exact hb.complete u
  | cons a rest ih =>
    have hvisit := hb.visit a u
    have hdetach := hvisit.trans (hb.detach a (body.visit a u).2)
    have hwake := hdetach.trans (hb.wake a (body.detach a (body.visit a u).2).2)
    unfold Body.settled
    simp only
    by_cases hv : (body.visit a u).1 = true
    · rw [if_pos hv]
      exact hvisit.trans (ih _)
    · rw [if_neg hv]
      rcases (body.detach a (body.visit a u).2).1 with _ | _ | _
      · exact hdetach.trans (ih _)
      · by_cases hw : (body.wake a (body.detach a (body.visit a u).2).2).1 = true
        · simp only [hw, if_true]
          exact hwake.trans (ih _)
        · simp only [hw, Bool.false_eq_true, if_false]
          exact hwake
      · exact hdetach

/-- However often the body decides, its record is a prefix of the final one; once the loop
stands still its state is the final one, and `k` decisions are enough for that. -/
def SettlesTo (body : Body σ α) (record : σ → List β) (final : σ) (k : ℕ) (s : Loop σ α) :
    Prop :=
  ∀ n, record ((Loop.wake body)^[n] s).user <+: record final ∧
    (((Loop.wake body)^[n] s).pending = none → ((Loop.wake body)^[n] s).user = final) ∧
    (k ≤ n → ((Loop.wake body)^[n] s).pending = none)

lemma settlesTo_of_idle {s : Loop σ α} (h : s.pending = none) (k : ℕ) :
    SettlesTo body record s.user k s := by
  intro n
  rw [wake_of_idle body h]
  exact ⟨List.prefix_rfl, fun _ => rfl, fun _ => h⟩

lemma settlesTo_of_wake {s : Loop σ α} {final : σ} {k : ℕ} (hp : s.pending ≠ none)
    (hf : record s.user <+: record final) (h : SettlesTo body record final k (s.wake body)) :
    SettlesTo body record final (k + 1) s := by
  intro n
  cases n with
  | zero => exact ⟨hf, fun hn => absurd hn hp, fun hn => by omega⟩
  | succ n =>
    obtain ⟨h1, h2, h3⟩ := h n
    rw [Function.iterate_succ_apply]
    exact ⟨h1, h2, fun hn => h3 (by omega)⟩

lemma SettlesTo.mono {s : Loop σ α} {final : σ} {k m : ℕ} (h : SettlesTo body record final k s)
    (hkm : k ≤ m) : SettlesTo body record final m s := fun n =>
  ⟨(h n).1, (h n).2.1, fun hn => (h n).2.2 (by omega)⟩

/-- **What a loop settles to**, whenever the callables that the body keeps are called. -/
lemma run_settlesTo (hb : body.Records record) (items : List α) (s : Loop σ α)
    (hs : s.pending = none) :
    SettlesTo body record (body.settled items s.user) items.length (Loop.run body items s) := by
  induction items generalizing s with
  | nil => exact settlesTo_of_idle (s := Loop.run body [] s) hs 0
  | cons a rest ih =>
    unfold Loop.run Body.settled
    simp only
    by_cases hv : (body.visit a s.user).1 = true
    · simp only [hv, if_true]
      exact (ih ((s.emit (.visit a)).withUser (body.visit a s.user).2) hs).mono (by simp)
    · simp only [hv, Bool.false_eq_true, if_false, Loop.withUser_user]
      rcases hd : body.detach a (body.visit a s.user).2 with ⟨r, u⟩
      simp only
      cases r with
      | immediately =>
        -- calling the callable right away is a plain turn of the loop
        simp only [hb.resumed]
        exact (ih (((((s.emit (.visit a)).withUser (body.visit a s.user).2).emit
          (.detach a)).withUser u).emit (.resume a)) hs).mono (by simp)
      | kept =>
        have hwake := hb.wake a u
        refine settlesTo_of_wake (by simp) ?_ ?_
        · simp only
          by_cases hw : (body.wake a u).1 = true
          · rw [if_pos hw]
            exact hwake.trans (settled_record hb rest _)
          · rw [if_neg hw]
            exact hwake
        · unfold Loop.wake
          simp only
          by_cases hw : (body.wake a u).1 = true
          · simp only [hw, if_true, hb.resumed]
            exact ih _ rfl
          · simp only [hw, Bool.false_eq_true, if_false]
            exact settlesTo_of_idle rfl _
      | dropped =>
        exact settlesTo_of_idle (s := (((s.emit (.visit a)).withUser
          (body.visit a s.user).2).emit (.detach a)).withUser u) hs _

end Continuable.ResumableLoop
