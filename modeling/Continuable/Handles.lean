import Continuable.Custody
import Continuable.Ownership
import Continuable.Schedule

/-!
Runs over a set of continuable handles.

Every operation moves the data of a handle separately from its ownership, through temporaries
whose destructors run as well. A destructor invokes what the handle holds if it is acquired and
not frozen; the move assignment does not look at what it overwrites.
-/

namespace Continuable.Handles

open Schedule

/-- A `continuable_base`; its data is the source it was built from, or moved from. -/
structure Handle where
  ownership : Ownership
  data : Option ℕ
  deriving DecidableEq

namespace Handle

/-- The move constructor: the new handle, and what is left of the old one. -/
def moved (h : Handle) : Handle × Handle :=
  (⟨h.ownership.moved.1, h.data⟩, ⟨h.ownership.moved.2, none⟩)

/-- `consume`: the data, and what is left of the handle. -/
def consume (h : Handle) : Option (Option ℕ × Handle) :=
  h.ownership.release.map fun o => (h.data, ⟨o, none⟩)

/-- What the destructor of a temporary invokes. -/
def onDestruction (h : Handle) : List ℕ :=
  if h.ownership.invokesOnDestruction then h.data.toList else []

/-- `done`: `finish` and `invoke_continuation`, through a temporary each. -/
def done (h : Handle) : Option (List ℕ × Handle) := do
  let (t, h) := h.moved
  let (u, t) := t.moved
  let (d, u) ← u.consume
  some (d.toList ++ u.onDestruction ++ t.onDestruction, h)

/-- `then`, `fail` or `next`: `finish` and `chain_continuation`, which copies the ownership of
its temporary. -/
def attach (h : Handle) : Option (Handle × List ℕ × Handle) := do
  let (t, h) := h.moved
  let o := t.ownership
  let (u, t) := t.moved
  let (d, u) ← u.consume
  some (⟨o, d⟩, u.onDestruction ++ t.onDestruction, h)

/-- The converting constructor, which starts with a new ownership. -/
def convert (h : Handle) : Option (Handle × Handle) := do
  let (d, h) ← h.consume
  some (⟨.default, d⟩, h)

end Handle

/-- The handles there are, and what was invoked. Also recorded are the sources whose holder was
frozen when it went away, and the handles that were moved from or consumed. -/
structure State where
  next : ℕ
  sources : ℕ
  handles : ℕ → Option Handle
  invoked : List ℕ
  lapsed : List ℕ
  spent : ℕ → Bool

def init : State := ⟨0, 0, fun _ => none, [], [], fun _ => false⟩

inductive Op
  | create
  | move (i : ℕ)
  | convert (i : ℕ)
  | assign (j i : ℕ)
  | attach (i : ℕ)
  | finish (i : ℕ)
  | freeze (i : ℕ) (enabled : Bool)
  | done (i : ℕ)
  | destroy (i : ℕ)

namespace State

def set (s : State) (i : ℕ) (h : Option Handle) : State :=
  { s with handles := Function.update s.handles i h }

def add (s : State) (h : Handle) : State :=
  { s.set s.next (some h) with next := s.next + 1 }

def spend (s : State) (i : ℕ) : State := { s with spent := Function.update s.spent i true }

def invoke (s : State) (l : List ℕ) : State := { s with invoked := s.invoked ++ l }

/-- A handle goes away that still is acquired but does not invoke what it holds. -/
def lapse (s : State) (h : Handle) : State :=
  if h.ownership.acquired && h.ownership.frozen then
    { s with lapsed := s.lapsed ++ h.data.toList }
  else s

end State

/-- A step; an operation whose assertion would fail is not possible. -/
def step (s : State) : Op → State
  | .create => { s.add ⟨.default, some s.sources⟩ with sources := s.sources + 1 }
  | .move i | .finish i =>
    match s.handles i with
    | some h => ((s.set i (some h.moved.2)).spend i).add h.moved.1
    | none => s
  | .convert i =>
    match (s.handles i).bind Handle.convert with
    | some (g, h) => ((s.set i (some h)).spend i).add g
    | none => s
  | .assign j i =>
    match s.handles j, s.handles i with
    | some g, some h =>
      if j = i then s
      else
        let s := (s.lapse g).set j (some h.moved.1)
        let s := { s with spent := Function.update s.spent j (s.spent i) }
        (s.set i (some h.moved.2)).spend i
    | _, _ => s
  | .attach i =>
    match (s.handles i).bind Handle.attach with
    | some (g, l, h) => (((s.set i (some h)).spend i).invoke l).add g
    | none => s
  | .freeze i enabled =>
    match s.handles i with
    | some h =>
      match h.ownership.freeze enabled with
      | some o => s.set i (some ⟨o, h.data⟩)
      | none => s
    | none => s
  | .done i =>
    match (s.handles i).bind Handle.done with
    | some (l, h) => ((s.set i (some h)).spend i).invoke l
    | none => s
  | .destroy i =>
    match s.handles i with
    | some h =>
      if h.ownership.invokesOnDestruction then
        match h.done with
        | some (l, _) => (s.set i none).invoke l
        | none => s
      else (s.lapse h).set i none
    | none => s

def runHandles (schedule : List Op) : State := run step init schedule

/-- A move assignment onto a handle that is acquired and not frozen. -/
def Overwrites (s : State) : Op → Prop
  | .assign j i => j ≠ i ∧ s.handles i ≠ none ∧
    ∃ g, s.handles j = some g ∧ g.ownership.invokesOnDestruction = true
  | _ => False

/-! ### Operations on one handle -/

namespace Handle

/-- What the handle holds, if it is acquired. -/
def content (h : Handle) : Option ℕ := if h.ownership.acquired then h.data else none

lemma content_of_released {h : Handle} (ha : h.ownership.acquired = false) :
    h.content = none := by simp [content, ha]

@[simp] lemma moved_fst_content (h : Handle) : h.moved.1.content = h.content := rfl

@[simp] lemma moved_snd_content (h : Handle) : h.moved.2.content = none := rfl

/-- Only what is acquired can be consumed, and the temporary that is left invokes nothing. -/
lemma consume_cases {h g : Handle} {d : Option ℕ} (hd : h.consume = some (d, g)) :
    h.ownership.acquired = true ∧ d = h.data ∧ g.ownership.acquired = false ∧
      g.onDestruction = [] := by
  obtain ⟨⟨a, f⟩, x⟩ := h
  cases a with
  | false => simp [consume, Ownership.release] at hd
  | true =>
    simp only [consume, Ownership.release, if_true, Option.map_some, Option.some.injEq,
      Prod.mk.injEq] at hd
    obtain ⟨rfl, rfl⟩ := hd
    simp [onDestruction, Ownership.invokesOnDestruction]

@[simp] lemma moved_snd_onDestruction (h : Handle) : h.moved.2.onDestruction = [] := rfl

/-- The temporaries of `done` are released, so only the handle itself is invoked. -/
lemma done_cases {h : Handle} {l : List ℕ} {g : Handle} (hd : h.done = some (l, g)) :
    l = h.content.toList ∧ g.ownership.acquired = false := by
  obtain ⟨⟨d, u⟩, hconsume, hsome⟩ := Option.bind_eq_some_iff.1 hd
  obtain ⟨ha, rfl, -, hu⟩ := consume_cases (show h.consume = some (d, u) from hconsume)
  obtain ⟨rfl, rfl⟩ := Prod.mk.inj (Option.some.inj hsome)
  refine ⟨?_, rfl⟩
  change h.data.toList ++ u.onDestruction ++ h.moved.1.moved.2.onDestruction = _
  rw [hu, moved_snd_onDestruction, content, if_pos ha]
  simp

lemma done_of_acquired {h : Handle} (ha : h.ownership.acquired = true) :
    ∃ l g, h.done = some (l, g) := by
  obtain ⟨⟨a, f⟩, d⟩ := h
  simp only at ha
  subst ha
  exact ⟨_, _, rfl⟩

lemma attach_cases {h g h' : Handle} {l : List ℕ} (hd : h.attach = some (g, l, h')) :
    g.content = h.content ∧ l = [] ∧ h.ownership.acquired = true ∧
      h'.ownership.acquired = false := by
  obtain ⟨⟨d, u⟩, hconsume, hsome⟩ := Option.bind_eq_some_iff.1 hd
  obtain ⟨ha, rfl, -, hu⟩ := consume_cases (show h.consume = some (d, u) from hconsume)
  obtain ⟨rfl, hrest⟩ := Prod.mk.inj (Option.some.inj hsome)
  obtain ⟨rfl, rfl⟩ := Prod.mk.inj hrest
  refine ⟨rfl, ?_, ha, rfl⟩
  change u.onDestruction ++ h.moved.1.moved.2.onDestruction = []
  rw [hu, moved_snd_onDestruction, List.append_nil]

lemma convert_cases {h g h' : Handle} (hd : h.convert = some (g, h')) :
    g.content = h.content ∧ h.ownership.acquired = true ∧ h'.ownership.acquired = false := by
  obtain ⟨⟨d, u⟩, hconsume, hsome⟩ := Option.bind_eq_some_iff.1 hd
  obtain ⟨ha, rfl, hreleased, -⟩ := consume_cases hconsume
  obtain ⟨rfl, rfl⟩ := Prod.mk.inj (Option.some.inj hsome)
  refine ⟨?_, ha, hreleased⟩
  rw [content, content, if_pos ha]
  rfl

end Handle

end Continuable.Handles
