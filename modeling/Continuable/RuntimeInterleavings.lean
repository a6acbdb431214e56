import Continuable.RuntimeChains
import Continuable.RuntimeConnections
import Continuable.SubmitterEndings

/-!
Event loops and threads.

A connection in an event loop ends as it may end when its members are on threads of their own. The
other way round, everything that may happen on threads happens in an event loop, when the members
keep their promises for long enough.
-/

namespace Continuable.Runtime

open ChainDestruction (Use useOf)
open Operators (Strategy)
open SubmitterOwners (Ends endings ends_of_verdict ends_of_finished exists_of_ends runConnection)
open Waiting (Wait)
open Waiting.Wait (upon gather)

variable {V E : Type}

/-! ### Chains as members -/

/-- Nothing but one use is come to. -/
def ComesTo (w : Meaning V E) (u : Use V E) : Prop := ∀ l v, w.known l = some v → v = u

lemma known_of_all {ws : List (Meaning V E)} {us : List (Use V E)}
    (h : List.Forall₂ ComesTo ws us) {l : List ℕ}
    (hall : (ws.map fun w => w.known l).all Option.isSome = true) :
    (ws.map fun w => w.known l) = us.map some := by
  induction h with
  | nil => rfl
  | @cons w u ws us hw _ ih =>
    rw [List.map_cons, List.all_cons, Bool.and_eq_true] at hall
    obtain ⟨v, hv⟩ := Option.isSome_iff_exists.1 hall.1
    rw [List.map_cons, List.map_cons, ih hall.2, hv, hw l v hv]

lemma ends_of_comesTo {s : Strategy} {ws : List (Meaning V E)} {us : List (Use V E)}
    (h : List.Forall₂ ComesTo ws us) {l : List ℕ} {u : Use V E}
    (hu : (gather (verdict s true) ws).known l = some u) : Ends s us u := by
  obtain ⟨m, hm⟩ := Wait.exists_of_gather hu
  refine ends_of_verdict (fun v hv => ?_) (fun _ hall => known_of_all h hall) hm
  obtain ⟨w, hw, hknown⟩ := List.mem_map.1 hv
  obtain ⟨v', hv', hcomes⟩ := exists_of_forall₂ h hw
  rwa [hcomes m v hknown]

/-- A chain, and when its parts go on. -/
abbrev Delayed (V E : Type) := Timing × Chain.Continuation V E

def Delayed.continuation (d : Delayed V E) : Continuation V E := delayed d.1 d.2 []

lemma ends_of_delayed {s : Strategy} {members : List (Delayed V E)} {events : List ℕ}
    {u : Use V E} (h : uses (.connected s (members.map Delayed.continuation)) events = [u]) :
    Ends s (endings (members.map Prod.snd)) u := by
  rw [uses_eq_meaning, Option.toList_eq_singleton_iff, Continuation.meaning, meanings_eq,
    List.map_map] at h
  refine ends_of_comesTo ?_ h
  rw [endings, List.map_map, List.forall₂_map_left_iff, List.forall₂_map_right_iff,
    List.forall₂_same]
  exact fun d _ => delayed_settles d.1 d.2 []

/-! ### Promises as members -/

/-- Each member waits for an event of its own. -/
def promises (outcomes : List (Outcome V E)) : List (Delayed V E) :=
  outcomes.zipIdx.map fun x => (fun _ => some x.2, .lazy x.2 x.1)

section promises

variable {s : Strategy} {outcomes : List (Outcome V E)}

/-- A promise that is kept at the event. -/
def promise (x : Outcome V E × ℕ) : Meaning V E := upon (happens x.2) (useOf x.1)

lemma promise_self (o : Outcome V E) (k : ℕ) : ((promise (o, k)).after k).known [] =
    some (useOf o) := by
  rw [promise, Wait.upon_after, if_pos (by simp [happens]), Wait.now_known]

lemma promise_of_ne {x : Outcome V E × ℕ} {k : ℕ} (h : x.2 ≠ k) :
    ((promise x).after k).known [] = none := by
  rw [promise, Wait.upon_after, if_neg (by simp [happens, h]), Wait.upon_nil]

lemma endings_promises : endings ((promises outcomes).map Prod.snd) = outcomes.map useOf := by
  have hfst : outcomes.map useOf = outcomes.zipIdx.map (useOf ∘ Prod.fst) := by
    rw [← List.map_map, List.zipIdx_map_fst]
  rw [endings, promises, List.map_map, List.map_map, hfst]
  rfl

lemma meaning_promises : (Continuation.connected s
    ((promises outcomes).map Delayed.continuation)).meaning =
      gather (verdict s true) (outcomes.zipIdx.map promise) := by
  rw [Continuation.meaning, meanings_eq, promises, List.map_map, List.map_map]
  rfl

lemma undecided_of_none {ins : List (Option (Use V E))} (h : ∀ i ∈ ins, i = none) :
    Undecided s ins := fun _ hu => by cases h _ hu

lemma verdict_of_none {ins : List (Option (Use V E))} (hne : ins ≠ [])
    (h : ∀ i ∈ ins, i = none) : verdict s true ins = none := by
  rw [verdict_of_undecided (undecided_of_none h)]
  obtain ⟨i, ins, rfl⟩ := List.exists_cons_of_ne_nil hne
  rw [h i List.mem_cons_self]
  rfl

lemma exists_events_of_decisive {u : Use V E} (hu : u ∈ outcomes.map useOf)
    (hdecisive : decisive s u = true) : ∃ events, uses (.connected s
      ((promises outcomes).map Delayed.continuation)) events = [u] := by
  obtain ⟨o, ho, rfl⟩ := List.mem_map.1 hu
  obtain ⟨before, behind, rfl⟩ := List.append_of_mem ho
  refine ⟨[0 + before.length], ?_⟩
  rw [uses_eq_meaning, meaning_promises, Option.toList_eq_singleton_iff, ← Wait.after_known,
    Wait.gather_after, Wait.gather_nil, List.map_map, List.map_map, List.zipIdx_append,
    List.zipIdx_cons, List.map_append, List.map_cons]
  · have hbefore : Undecided s ((before.zipIdx).map
        fun x => ((promise x).after (0 + before.length)).known []) := by
      refine undecided_of_none fun i hi => ?_
      obtain ⟨x, hx, rfl⟩ := List.mem_map.1 hi
      have hlt := List.snd_lt_add_of_mem_zipIdx hx
      exact promise_of_ne (by omega)
    have hself := promise_self o (0 + before.length)
    simp only [Function.comp_apply]
    rw [hself]
    exact verdict_of_decisive hbefore hdecisive
  · refine verdict_of_none (by simp) fun i hi => ?_
    rw [List.map_map] at hi
    obtain ⟨x, -, rfl⟩ := List.mem_map.1 hi
    rfl

lemma exists_events_of_ends {u : Use V E} (h : Ends s (outcomes.map useOf) u) :
    ∃ events, uses (.connected s ((promises outcomes).map Delayed.continuation)) events = [u] := by
  rcases h with ⟨hu, hdecisive⟩ | ⟨hnone, rfl⟩
  · exact exists_events_of_decisive hu hdecisive
  · obtain ⟨events, u, hevents⟩ := exists_uses (.connected s
      ((promises outcomes).map Delayed.continuation)) []
    have hends := ends_of_delayed hevents
    rw [endings_promises] at hends
    refine ⟨[] ++ events, ?_⟩
    rcases hends with ⟨hmem, hdecisive⟩ | ⟨-, rfl⟩
    · rw [hnone u hmem] at hdecisive
      cases hdecisive
    · exact hevents

end promises

/-! ### Both ways -/

/-- What the downstream callback of a connection on threads may be used for. -/
def MayEnd (s : Strategy) (members : List (Chain.Continuation V E)) (u : Use V E) : Prop :=
  ∃ schedule, (runConnection s members schedule).owners = ∅ ∧
    (runConnection s members schedule).uses = [u]

/-- **Event loops and threads agree.** Whatever comes out of a connection of chains in an event
loop, however they take their time, may come out of it on threads. A connection of promises may come
to the same in an event loop as on threads. -/
theorem connected_mayEnd (s : Strategy) :
    (∀ (members : List (Delayed V E)) (events : List ℕ) (u : Use V E),
      uses (.connected s (members.map Delayed.continuation)) events = [u] →
        MayEnd s (members.map Prod.snd) u) ∧
    ∀ (outcomes : List (Outcome V E)) (u : Use V E),
      (∃ events, uses (.connected s ((promises outcomes).map Delayed.continuation)) events = [u]) ↔
        MayEnd s ((promises outcomes).map Prod.snd) u := by
  have hforward : ∀ (members : List (Delayed V E)) (events : List ℕ) (u : Use V E),
      uses (.connected s (members.map Delayed.continuation)) events = [u] →
        MayEnd s (members.map Prod.snd) u :=
    fun members events u h => exists_of_ends (ends_of_delayed h)
  refine ⟨hforward, fun outcomes u => ⟨?_, ?_⟩⟩
  · rintro ⟨events, h⟩
    exact hforward _ events u h
  · rintro ⟨schedule, hfinished, huses⟩
    have hends := ends_of_finished hfinished huses
    rw [endings_promises] at hends
    exact exists_events_of_ends hends

end Continuable.Runtime
