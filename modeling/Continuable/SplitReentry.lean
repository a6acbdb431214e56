import Continuable.Primitives
import Continuable.Schedule
import Mathlib.Logic.Function.Basic

/-!
Waiters that are registered on a promise while the promise is being resolved.

Registering replaces the promise by a split of what it held and the waiter. What it held is moved,
although it may be running: its object stays where it is. Resolving a promise runs what it holds
and clears it afterwards, whatever it holds by then.
-/

namespace Continuable.SplitReentry

open Schedule

/-- A waiter, which registers further ones when it is resolved. -/
inductive Waiter (V E : Type)
  | mk (registers : Signal V E → List (Waiter V E))

def Waiter.registers {V E : Type} : Waiter V E → Signal V E → List (Waiter V E)
  | .mk registers => registers

/-- `split_promise`: what the erasure of `first_` holds, and the promise that was registered. -/
structure SplitPromise (V E : Type) where
  first : Option ℕ
  waiter : Option (Waiter V E)

/-- The promise holds a split promise in `data_`. They are numbered with their waiters. -/
structure State (V E : Type) where
  promises : ℕ → SplitPromise V E
  created : ℕ
  data : Option ℕ
  resolved : List (ℕ × Signal V E)

variable {V E : Type}

namespace State

def init : State V E := ⟨fun _ => ⟨none, none⟩, 0, none, []⟩

def set (s : State V E) (i : ℕ) (p : SplitPromise V E) : State V E :=
  { s with promises := Function.update s.promises i p }

/-- `p = split(std::move(p), w)`. -/
def register (s : State V E) (w : Waiter V E) : State V E :=
  { s.set s.created ⟨s.data, some w⟩ with data := some s.created, created := s.created + 1 }

/-- The promise in the pack is called if it is not empty, and is empty then. -/
def callWaiter (s : State V E) (i : ℕ) (signal : Signal V E) : State V E :=
  match (s.promises i).waiter with
  | none => s
  | some w =>
    let s := { s with resolved := s.resolved ++ [(i, signal)] }
    let s := (w.registers signal).foldl register s
    s.set i { s.promises i with waiter := none }

/-- `split_promise::operator()`, which goes down the promises that come first. -/
def call : ℕ → State V E → ℕ → Signal V E → State V E
  | 0, s, _, _ => s
  | fuel + 1, s, i, signal =>
    let s := s.callWaiter i signal
    match (s.promises i).first with
    | none => s
    | some f =>
      let s := s.call fuel f signal
      s.set i { s.promises i with first := none }

/-- `set_value`, `set_exception` and `set_canceled`. An empty promise must not be resolved. -/
def resolve (s : State V E) (signal : Signal V E) : State V E :=
  match s.data with
  | none => s
  | some i => { s.call (i + 1) i signal with data := none }

end State

inductive Action (V E : Type)
  | register (w : Waiter V E)
  | resolve (signal : Signal V E)

def step (s : State V E) : Action V E → State V E
  | .register w => s.register w
  | .resolve signal => s.resolve signal

def runSplit (history : List (Action V E)) : State V E := run step .init history

/-- The split promises inside of an erasure. -/
inductive Owns (promises : ℕ → SplitPromise V E) : Option ℕ → ℕ → Prop
  | self (i : ℕ) : Owns promises (some i) i
  | first {i x : ℕ} : Owns promises (promises i).first x → Owns promises (some i) x

/-- The promise holds a waiter that was not called. -/
def Holds (s : State V E) (x : ℕ) : Prop :=
  Owns s.promises s.data x ∧ (s.promises x).waiter.isSome

def Resolved (s : State V E) (x : ℕ) : Prop := x ∈ s.resolved.map Prod.fst

/-- Every waiter is resolved at most once. After it was resolved the promise holds those that were
registered meanwhile, it resolves those it holds, and none gets lost. -/
structure Behaves (history : List (Action V E)) : Prop where
  once : ∀ pre post, history = pre ++ post →
    ∀ x, ((runSplit pre).resolved.map Prod.fst).count x ≤ 1
  kept : ∀ pre signal post, history = pre ++ .resolve signal :: post →
    ∀ x, (runSplit pre).created ≤ x → x < (step (runSplit pre) (.resolve signal)).created →
      Holds (step (runSplit pre) (.resolve signal)) x
  next : ∀ pre signal post, history = pre ++ .resolve signal :: post →
    ∀ x, Holds (runSplit pre) x → Resolved (step (runSplit pre) (.resolve signal)) x
  notLost : ∀ pre post, history = pre ++ post → ∀ x < (runSplit pre).created,
    Holds (runSplit pre) x ∨ Resolved (runSplit pre) x

/-- A waiter that the promise holds registers others when the promise is resolved. -/
def Reenters (s : State V E) : Action V E → Prop
  | .register _ => False
  | .resolve signal => ∃ x w, Holds s x ∧ (s.promises x).waiter = some w ∧ w.registers signal ≠ []

/-! ### The chain of split promises -/

variable {s : State V E} {promises promises' : ℕ → SplitPromise V E} {signal : Signal V E}

/-- What an erasure holds, from the last registered waiter to the first. -/
def Linked (promises : ℕ → SplitPromise V E) : Option ℕ → List ℕ → Prop
  | data, [] => data = none
  | data, x :: l =>
    data = some x ∧ (promises x).waiter.isSome ∧ Linked promises (promises x).first l

lemma Linked.congr {data : Option ℕ} {l : List ℕ} (h : Linked promises data l)
    (heq : ∀ x ∈ l, promises' x = promises x) : Linked promises' data l := by
  induction l generalizing data with
  | nil => exact h
  | cons x l ih =>
    obtain ⟨hdata, hw, hrest⟩ := h
    have hx := heq x List.mem_cons_self
    refine ⟨hdata, hx ▸ hw, ?_⟩
    rw [hx]
    exact ih hrest fun y hy => heq y (List.mem_cons_of_mem x hy)

lemma Linked.owns_iff {data : Option ℕ} {l : List ℕ} (h : Linked promises data l) {x : ℕ} :
    Owns promises data x ↔ x ∈ l := by
  induction l generalizing data with
  | nil =>
    cases h
    exact ⟨(fun ho => nomatch ho), fun hx => absurd hx List.not_mem_nil⟩
  | cons y l ih =>
    obtain ⟨rfl, -, hrest⟩ := h
    rw [List.mem_cons]
    constructor
    · intro ho
      cases ho with
      | self => exact .inl rfl
      | first ho => exact .inr ((ih hrest).1 ho)
    · rintro (rfl | hx)
      · exact .self _
      · exact .first ((ih hrest).2 hx)

lemma Linked.waiter {data : Option ℕ} {l : List ℕ} (h : Linked promises data l) {x : ℕ}
    (hx : x ∈ l) : (promises x).waiter.isSome := by
  induction l generalizing data with
  | nil => cases hx
  | cons y l ih =>
    obtain ⟨-, hw, hrest⟩ := h
    rcases List.mem_cons.1 hx with rfl | hx
    · exact hw
    · exact ih hrest hx

/-! ### Resolving -/

/-- What is registered when the waiter of a split promise is resolved. -/
def registrations (signal : Signal V E) (p : SplitPromise V E) : List (Waiter V E) :=
  (p.waiter.map fun w => w.registers signal).getD []

lemma foldl_register (ws : List (Waiter V E)) (s : State V E) :
    (ws.foldl State.register s).resolved = s.resolved ∧
      (ws.foldl State.register s).created = s.created + ws.length ∧
      ∀ x < s.created, (ws.foldl State.register s).promises x = s.promises x := by
  induction ws generalizing s with
  | nil => exact ⟨rfl, rfl, fun _ _ => rfl⟩
  | cons w ws ih =>
    obtain ⟨hlog, hcreated, hpromises⟩ := ih (s.register w)
    refine ⟨hlog, ?_, fun x hx => ?_⟩
    · rw [List.foldl_cons, hcreated, List.length_cons]
      simp only [State.register]
      omega
    · rw [List.foldl_cons, hpromises x (Nat.lt_succ_of_lt hx)]
      exact Function.update_of_ne (Nat.ne_of_lt hx) ..

lemma callWaiter_spec (signal : Signal V E) {i : ℕ} (hi : i < s.created)
    (hw : (s.promises i).waiter.isSome) :
    (s.callWaiter i signal).resolved = s.resolved ++ [(i, signal)] ∧
      (s.callWaiter i signal).created =
        s.created + (registrations signal (s.promises i)).length ∧
      ((s.callWaiter i signal).promises i).first = (s.promises i).first ∧
      ∀ x < s.created, x ≠ i → (s.callWaiter i signal).promises x = s.promises x := by
  obtain ⟨w, hw⟩ := Option.isSome_iff_exists.1 hw
  obtain ⟨hlog, hcreated, hpromises⟩ := foldl_register (w.registers signal)
    { s with resolved := s.resolved ++ [(i, signal)] }
  simp only [State.callWaiter, hw, registrations, Option.map_some, Option.getD_some]
  refine ⟨hlog, hcreated, ?_, fun x hx hne => ?_⟩
  · simp [State.set, hpromises i hi]
  · rw [← hpromises x hx]
    exact Function.update_of_ne hne ..

/-- Every waiter of the chain is called once. Those that register meanwhile are put before the
chain, which does not change under the call. -/
lemma call_spec (signal : Signal V E) {l : List ℕ} {i fuel : ℕ}
    (hl : Linked s.promises (some i) (i :: l))
    (hlt : ∀ x ∈ i :: l, x < s.created) (hdec : (i :: l).Pairwise (· > ·)) (hfuel : i < fuel) :
    (s.call fuel i signal).resolved = s.resolved ++ (i :: l).map (·, signal) ∧
      (s.call fuel i signal).created =
        s.created + ((i :: l).flatMap fun x => registrations signal (s.promises x)).length := by
  induction l generalizing s i fuel with
  | nil =>
    obtain ⟨-, hw, hnone⟩ := hl
    obtain ⟨fuel, rfl⟩ : ∃ n, fuel = n + 1 := ⟨fuel - 1, by omega⟩
    obtain ⟨hlog, hcreated, hfirst, -⟩ := callWaiter_spec signal (hlt i (by simp)) hw
    simp only [State.call, hfirst, show (s.promises i).first = none from hnone]
    exact ⟨hlog, by simpa using hcreated⟩
  | cons j l ih =>
    obtain ⟨-, hw, hrest⟩ := hl
    obtain ⟨fuel, rfl⟩ : ∃ n, fuel = n + 1 := ⟨fuel - 1, by omega⟩
    obtain ⟨hlog, hcreated, hfirst, hpromises⟩ :=
      callWaiter_spec signal (hlt i (by simp)) hw
    have hj : (s.promises i).first = some j := hrest.1
    have hbelow : ∀ x ∈ j :: l, x < i := (List.pairwise_cons.1 hdec).1
    have heq : ∀ x ∈ j :: l, (s.callWaiter i signal).promises x = s.promises x := fun x hx =>
      hpromises x (hlt x (List.mem_cons_of_mem i hx)) (Nat.ne_of_lt (hbelow x hx))
    have hlt' : ∀ x ∈ j :: l, x < (s.callWaiter i signal).created := fun x hx => by
      have := hlt x (List.mem_cons_of_mem i hx)
      omega
    have hfuel' : j < fuel := by
      have := hbelow j List.mem_cons_self
      omega
    obtain ⟨hlog', hcreated'⟩ :=
      ih ((hj ▸ hrest).congr heq) hlt' (List.pairwise_cons.1 hdec).2 hfuel'
    have hsame : ((j :: l).flatMap fun x =>
        registrations signal ((s.callWaiter i signal).promises x)) =
        (j :: l).flatMap fun x => registrations signal (s.promises x) :=
      List.flatMap_congr fun x hx => by rw [heq x hx]
    simp only [State.call, hfirst, hj, State.set]
    constructor
    · rw [hlog', hlog, List.append_assoc]
      rfl
    · calc ((s.callWaiter i signal).call fuel j signal).created
          = (s.callWaiter i signal).created +
              ((j :: l).flatMap fun x => registrations signal (s.promises x)).length := by
            rw [hcreated', hsame]
        _ = s.created + ((registrations signal (s.promises i)).length +
              ((j :: l).flatMap fun x => registrations signal (s.promises x)).length) := by
            rw [hcreated, Nat.add_assoc]
        _ = s.created +
              ((i :: j :: l).flatMap fun x => registrations signal (s.promises x)).length := by
            rw [List.flatMap_cons (x := i), List.length_append]

/-! ### Runs -/

/-- What the promise holds is a chain of waiters that were not called. -/
structure Inv (s : State V E) (l : List ℕ) : Prop where
  linked : Linked s.promises s.data l
  below : ∀ x ∈ l, x < s.created
  ordered : l.Pairwise (· > ·)
  resolvedBelow : ∀ x, Resolved s x → x < s.created
  nodup : (s.resolved.map Prod.fst).Nodup
  pending : ∀ x ∈ l, ¬ Resolved s x

variable {l : List ℕ}

lemma Inv.holds_iff (h : Inv s l) {x : ℕ} : Holds s x ↔ x ∈ l :=
  ⟨fun hx => h.linked.owns_iff.1 hx.1, fun hx => ⟨h.linked.owns_iff.2 hx, h.linked.waiter hx⟩⟩

lemma inv_init : Inv (State.init : State V E) [] := by
  refine ⟨rfl, ?_, .nil, ?_, .nil, ?_⟩ <;> simp [Resolved, State.init]

lemma Inv.register (h : Inv s l) (w : Waiter V E) : Inv (s.register w) (s.created :: l) := by
  have hne : ∀ x ∈ l, x ≠ s.created := fun x hx => Nat.ne_of_lt (h.below x hx)
  have hself : (s.register w).promises s.created = ⟨s.data, some w⟩ := Function.update_self ..
  have hrest : Linked (s.register w).promises s.data l :=
    h.linked.congr fun x hx => Function.update_of_ne (hne x hx) ..
  refine ⟨⟨rfl, by rw [hself]; rfl, by rw [hself]; exact hrest⟩, fun x hx => ?_,
    List.pairwise_cons.2 ⟨h.below, h.ordered⟩, fun x hx => Nat.lt_succ_of_lt (h.resolvedBelow x hx),
    h.nodup, fun x hx => ?_⟩
  · rcases List.mem_cons.1 hx with rfl | hx
    · exact Nat.lt_succ_self _
    · exact Nat.lt_succ_of_lt (h.below x hx)
  · rcases List.mem_cons.1 hx with rfl | hx
    · exact fun hr => Nat.lt_irrefl _ (h.resolvedBelow _ hr)
    · exact h.pending x hx

lemma Inv.resolve_spec (h : Inv s l) (signal : Signal V E) :
    (s.resolve signal).resolved = s.resolved ++ l.map (·, signal) ∧
      (s.resolve signal).created =
        s.created + (l.flatMap fun x => registrations signal (s.promises x)).length ∧
      (s.resolve signal).data = none := by
  unfold State.resolve
  cases l with
  | nil =>
    have hnone : s.data = none := h.linked
    simp [hnone]
  | cons i l =>
    have hl := h.linked
    have hdata : s.data = some i := hl.1
    rw [hdata] at hl ⊢
    obtain ⟨hlog, hcreated⟩ := call_spec signal hl h.below h.ordered (Nat.lt_succ_self i)
    exact ⟨hlog, hcreated, rfl⟩

lemma Inv.resolved_resolve_iff (h : Inv s l) {x : ℕ} :
    Resolved (s.resolve signal) x ↔ Resolved s x ∨ x ∈ l := by
  have hmap : (l.map fun x => (x, signal)).map Prod.fst = l := by
    rw [List.map_map]; exact List.map_id l
  rw [Resolved, (h.resolve_spec signal).1, List.map_append, List.mem_append, hmap]
  rfl

lemma Inv.resolve (h : Inv s l) (signal : Signal V E) : Inv (s.resolve signal) [] := by
  obtain ⟨hlog, hcreated, hdata⟩ := h.resolve_spec signal
  refine ⟨hdata, by simp, .nil, fun x hx => ?_, ?_, by simp⟩
  · have hlt : x < s.created := (h.resolved_resolve_iff.1 hx).elim (h.resolvedBelow x) (h.below x)
    omega
  · rw [hlog, List.map_append, List.map_map]
    refine List.Nodup.append h.nodup ?_ fun x hx hy => ?_
    · exact (List.map_id l).symm ▸ h.ordered.imp fun hab => Nat.ne_of_gt hab
    · exact h.pending x (by simpa using hy) hx

lemma inv_run (history : List (Action V E)) : ∃ l, Inv (runSplit history) l :=
  run_preserves (I := fun s => ∃ l, Inv s l) (fun s a ⟨l, h⟩ => by
    cases a with
    | register w => exact ⟨_, h.register w⟩
    | resolve signal => exact ⟨_, h.resolve signal⟩) ⟨[], inv_init⟩ history

lemma resolved_at_most_once (history : List (Action V E)) (x : ℕ) :
    ((runSplit history).resolved.map Prod.fst).count x ≤ 1 := by
  obtain ⟨l, h⟩ := inv_run history
  exact List.nodup_iff_count_le_one.1 h.nodup x

lemma Inv.not_reenters_iff (h : Inv s l) :
    ¬ Reenters s (.resolve signal) ↔ (s.resolve signal).created = s.created := by
  rw [(h.resolve_spec signal).2.1]
  have hsome : ∀ x ∈ l, registrations signal (s.promises x) ≠ [] ↔
      ∃ w, (s.promises x).waiter = some w ∧ w.registers signal ≠ [] := fun x hx => by
    obtain ⟨w, hw⟩ := Option.isSome_iff_exists.1 (h.linked.waiter hx)
    simp [registrations, hw]
  have hreenters : Reenters s (.resolve signal) ↔
      ∃ x ∈ l, registrations signal (s.promises x) ≠ [] := by
    constructor
    · rintro ⟨x, w, hx, hw, hne⟩
      have hmem := h.holds_iff.1 hx
      exact ⟨x, hmem, (hsome x hmem).2 ⟨w, hw, hne⟩⟩
    · rintro ⟨x, hx, hne⟩
      obtain ⟨w, hw, hne⟩ := (hsome x hx).1 hne
      exact ⟨x, w, h.holds_iff.2 hx, hw, hne⟩
  rw [hreenters, Nat.add_eq_left, List.length_eq_zero_iff, List.flatMap_eq_nil_iff]
  simp

/-- Nothing is lost as long as no waiter registers another one from inside of a resolution. -/
def Settled (s : State V E) : Prop :=
  ∃ l, Inv s l ∧ ∀ x < s.created, x ∈ l ∨ Resolved s x

lemma Settled.step (h : Settled s) {a : Action V E} (hok : ¬ Reenters s a) :
    Settled (step s a) := by
  obtain ⟨l, hinv, hkept⟩ := h
  cases a with
  | register w =>
    refine ⟨_, hinv.register w, fun x hx => ?_⟩
    rcases Nat.lt_succ_iff_lt_or_eq.1 hx with hx | rfl
    · exact (hkept x hx).imp (List.mem_cons_of_mem _) id
    · exact .inl List.mem_cons_self
  | resolve signal =>
    refine ⟨_, hinv.resolve signal, fun x hx => .inr ?_⟩
    rw [SplitReentry.step, hinv.not_reenters_iff.1 hok] at hx
    exact hinv.resolved_resolve_iff.2 (hkept x hx).symm

/-- Waiters are resolved once, are kept and do not get lost, if and only if no waiter registers
another one while it is being resolved. -/
theorem runSplit_behaves_iff (history : List (Action V E)) :
    Behaves history ↔ Allowed step (fun s a => ¬ Reenters s a) .init history := by
  constructor
  · intro h
    rw [allowed_iff]
    intro pre a post hsplit hre
    cases a with
    | register w => exact hre
    | resolve signal =>
      obtain ⟨l, hinv⟩ := inv_run pre
      have hmore : (runSplit pre).created < ((runSplit pre).resolve signal).created := by
        have hle := (hinv.resolve_spec signal).2.1
        have hne := mt hinv.not_reenters_iff.2 (not_not.2 hre)
        omega
      have hheld := h.kept pre signal post hsplit _ (Nat.le_refl _) hmore
      exact absurd ((hinv.resolve signal).holds_iff.1 hheld) List.not_mem_nil
  · intro h
    have hsettled : ∀ pre post, history = pre ++ post → Settled (runSplit pre) := by
      rintro pre post rfl
      exact run_preserves_of_allowed (fun _ _ hs hok => hs.step hok)
        ⟨[], inv_init, fun x hx => absurd hx (Nat.not_lt_zero x)⟩ pre h.initial
    refine ⟨fun pre _ _ x => resolved_at_most_once pre x, ?_, ?_, ?_⟩
    · rintro pre signal post rfl x hle hlt
      obtain ⟨l, hinv⟩ := inv_run pre
      have hok := (allowed_iff step _ _ _).1 h pre _ post rfl
      rw [step, hinv.not_reenters_iff.1 hok] at hlt
      omega
    · rintro pre signal post rfl x hx
      obtain ⟨l, hinv⟩ := inv_run pre
      exact hinv.resolved_resolve_iff.2 (.inr (hinv.holds_iff.1 hx))
    · intro pre post hsplit x hx
      obtain ⟨l, hinv, hkept⟩ := hsettled pre post hsplit
      exact (hkept x hx).imp hinv.holds_iff.2 id

/-- A waiter that waits again when it is resolved. -/
theorem registered_meanwhile_lost :
    ¬ ∀ history : List (Action ℕ ℕ), Behaves history := by
  intro h
  have hheld := (h [.register (.mk fun _ => [.mk fun _ => []]), .resolve (.value [])]).kept
    [.register (.mk fun _ => [.mk fun _ => []])] (.value []) [] rfl 1 (by decide) (by decide)
  cases hheld.1

end Continuable.SplitReentry
