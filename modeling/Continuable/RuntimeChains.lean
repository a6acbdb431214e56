import Continuable.ChainFold
import Continuable.RuntimeMeaning

/-!
Chains whose sources and executors take their time.

Wherever the sources of a chain, or of the continuables that its handlers return, keep their
promises and executors keep their work, the chain comes to what it comes to when nothing is kept. No
continuable is left behind: its callback is used in the end.
-/

namespace Continuable.Runtime

open Chain (Address Branch handled)
open ChainDestruction (Use useOf)
open Operators (Strategy)
open Waiting (Wait)
open Waiting.Wait (now upon gather)

variable {V E : Type}

/-! ### Nothing is left behind -/

lemma live_upon (n : ℕ) {α : Type} (a : α) : (upon (happens n) a).Live :=
  Wait.live_upon (e := n) (by simp [happens]) a

lemma live_react {w : Meaning V E} (h : w.Live) (r : Chain.Reaction E) : (react r w).Live := by
  cases r with
  | run => exact h
  | reject e => exact Wait.live_now _
  | cancel => exact Wait.live_now _
  | drop => exact Wait.live_now _

lemma Executor.live {w : Meaning V E} (h : w.Live) (executor : Executor E) :
    (executor.meaning w).Live := by
  rcases executor with _ | ⟨_ | n, r⟩
  · exact h
  · exact live_react h r
  · exact (live_upon n ()).bind fun _ => live_react h r

lemma isSome_verdict (s : Strategy) {ins : List (Option (Use V E))}
    (h : ∀ i ∈ ins, i.isSome = true) : (verdict s true ins).isSome = true := by
  have hall : ins.all Option.isSome = true := List.all_eq_true.2 h
  rw [verdict, hall]
  cases (ins.filterMap id).find? (decisive s) <;> rfl

mutual

/-- **Every continuable can come to its end**, whatever has happened so far. -/
theorem Continuation.live (c : Continuation V E) : c.meaning.Live := by
  match c with
  | .lazy none o => exact Wait.live_now _
  | .lazy (some n) o => exact live_upon n _
  | .ready r => exact Wait.live_now _
  | .erased c => exact c.live
  | .async callback executor input =>
    exact executor.live ((callback input).live input.onErrorPath)
  | .chained hr he c accepts callback executor =>
    refine c.live.bind fun u => ?_
    cases u with
    | destroyed => exact Wait.live_now _
    | called s =>
      rw [link]
      cases handled hr he accepts s with
      | none => exact Wait.live_now _
      | some input => exact executor.live ((callback input).live input.onErrorPath)
  | .connected s members =>
    exact Wait.live_gather (live_meanings members) fun ins h => isSome_verdict s h

theorem Returned.live (r : Returned V E) (errorPath : Bool) : (r.meaning errorPath).Live := by
  match r with
  | .continuable c => exact c.live
  | .thrown _ | .void | .value _ | .plainTag _ | .pair _ _ | .tuple _ | .result _
  | .emptyResult | .cancellationResult | .exceptionalResult _ => exact Wait.live_now _

theorem live_meanings (members : List (Continuation V E)) :
    ∀ w ∈ meanings members, w.Live := by
  match members with
  | [] => simp [meanings]
  | c :: members =>
    rw [meanings]
    exact List.forall_mem_cons.2 ⟨c.live, live_meanings members⟩

end

/-! ### Chains that take their time -/

/-- When the sources and the executors of a chain go on, by their places in it. -/
abbrev Timing := Address → Option ℕ

def delayedExecutor (event : Option ℕ) : Chain.Executor E → Executor E
  | .thisThread => .thisThread
  | .custom reaction => .custom event reaction

mutual

/-- A chain whose sources keep their promises and whose executors keep their work. -/
def delayed (timing : Timing) : Chain.Continuation V E → Address → Continuation V E
  | .lazy _ outcome, a => .lazy (timing a) outcome
  | .ready _ r, _ => .ready r
  | .erased c, a => .erased (delayed timing c a)
  | .chained hr he c accepts callback executor, a =>
    .chained hr he (delayed timing c (.inner :: a)) accepts
      (fun input => delayedReturned timing (callback input) (.returned :: a))
      (delayedExecutor (timing a) executor)

def delayedReturned (timing : Timing) : Chain.Returned V E → Address → Returned V E
  | .thrown e, _ => .thrown e
  | .void, _ => .void
  | .value v, _ => .value v
  | .plainTag v, _ => .plainTag v
  | .pair v w, _ => .pair v w
  | .tuple vs, _ => .tuple vs
  | .result r, _ => .result r
  | .emptyResult, _ => .emptyResult
  | .cancellationResult, _ => .cancellationResult
  | .exceptionalResult e, _ => .exceptionalResult e
  | .continuable c, a => .continuable (delayed timing c a)

end

/-- Nothing but the outcome is come to. -/
def Settles (w : Meaning V E) (o : Outcome V E) : Prop := ∀ l u, w.known l = some u → u = useOf o

lemma settles_now (o : Outcome V E) : Settles (now (useOf o)) o := by
  intro l u h
  exact (Option.some.inj h).symm

lemma settles_of_outcome {r : Returned V E} {errorPath : Bool} {o : Outcome V E}
    (h : r.outcome? errorPath = some o) : Settles (r.meaning errorPath) o := by
  rw [r.meaning_of_outcome h]
  exact settles_now o

lemma settles_react {w : Meaning V E} {o : Outcome V E} (h : Settles w o)
    (r : Chain.Reaction E) : Settles (react r w) ((Chain.Executor.custom r).react o) := by
  cases r with
  | run => exact h
  | reject e => exact settles_now (some (.exception e))
  | cancel => exact settles_now (some (.exception none))
  | drop => exact settles_now none

lemma settles_executor {w : Meaning V E} {o : Outcome V E} (h : Settles w o)
    (event : Option ℕ) (executor : Chain.Executor E) :
    Settles ((delayedExecutor event executor).meaning w) (executor.react o) := by
  cases executor with
  | thisThread => exact h
  | custom r =>
    cases event with
    | none => exact settles_react h r
    | some n =>
      intro l u hl
      obtain ⟨-, -, m, hm⟩ := Wait.exists_of_bind hl
      exact settles_react h r m u hm

mutual

/-- **Taking their time changes nothing** of what the parts of a chain come to. -/
theorem delayed_settles (timing : Timing) (c : Chain.Continuation V E) (a : Address) :
    Settles (delayed timing c a).meaning c.outcome := by
  match c with
  | .lazy name o =>
    rw [delayed]
    cases timing a with
    | none => exact settles_now o
    | some n =>
      intro l u hl
      simp only [Continuation.meaning, upon] at hl
      split_ifs at hl
      exact (Option.some.inj hl).symm
  | .ready name r => exact settles_now r.outcome
  | .erased c => exact delayed_settles timing c a
  | .chained hr he c accepts callback executor =>
    intro l u hl
    rw [delayed, Continuation.meaning] at hl
    obtain ⟨u', ⟨l', hl'⟩, m, hm⟩ := Wait.exists_of_bind hl
    have hinner := delayed_settles timing c (.inner :: a) l' u' hl'
    rw [hinner] at hm
    rw [Chain.Continuation.outcome]
    cases ho : c.outcome with
    | none =>
      rw [ho] at hm
      exact (Option.some.inj hm).symm
    | some s =>
      rw [ho, useOf, link] at hm
      cases hs : handled hr he accepts s with
      | none =>
        rw [hs] at hm
        simp only [hs]
        exact (Option.some.inj hm).symm
      | some input =>
        rw [hs] at hm
        simp only [hs]
        exact settles_executor (delayedReturned_settles timing (callback input) (.returned :: a)
          input.onErrorPath) (timing a) executor m u hm

theorem delayedReturned_settles (timing : Timing) (r : Chain.Returned V E) (a : Address)
    (errorPath : Bool) :
    Settles ((delayedReturned timing r a).meaning errorPath) (r.outcome errorPath) := by
  match r with
  | .continuable c => exact delayed_settles timing c a
  | .thrown _ | .void | .value _ | .plainTag _ | .pair _ _ | .tuple _ | .result _
  | .emptyResult | .cancellationResult | .exceptionalResult _ => exact settles_of_outcome rfl

end

/-! ### Runs -/

lemma uses_stays {c : Continuation V E} {events : List ℕ} {u : Use V E}
    (h : c.meaning.known events = some u) (more : List ℕ) : uses c (events ++ more) = [u] := by
  rw [uses_eq_meaning, Wait.stays_append h]
  rfl

lemma exists_uses (c : Continuation V E) (events : List ℕ) :
    ∃ more u, uses c (events ++ more) = [u] := by
  obtain ⟨more, hmore⟩ := c.live events
  obtain ⟨u, hu⟩ := Option.isSome_iff_exists.1 hmore
  exact ⟨more, u, by rw [uses_eq_meaning, hu]; rfl⟩

/-- **Every run of a continuable** uses the callback as the meaning of the continuable says, once
and for all, and can go on until it has done so. -/
theorem runEvents_behaves (c : Continuation V E) (events : List ℕ) :
    uses c events = (c.meaning.known events).toList ∧
      (∀ more, uses c events = [] ∨ uses c (events ++ more) = uses c events) ∧
      ∃ more u, uses c (events ++ more) = [u] := by
  refine ⟨uses_eq_meaning c events, fun more => ?_, exists_uses c events⟩
  rw [uses_eq_meaning c events]
  cases hk : c.meaning.known events with
  | none => exact .inl rfl
  | some u => exact .inr (uses_stays hk more)

/-- **When the parts of a chain go on does not matter.** A chain whose sources and executors take
their time uses its callback for nothing but what its links make of the outcome of the source, and
it can always go on until it does. -/
theorem delayed_behaves (timing : Timing) (source : Chain.Source V E)
    (links : List (Chain.Link V E)) (events : List ℕ) :
    let c := delayed timing (Chain.chain source links) []
    let o := links.foldl Chain.Link.step source.outcome
    (uses c events = [] ∨ uses c events = [useOf o]) ∧
      ∃ more, uses c (events ++ more) = [useOf o] := by
  intro c o
  have houtcome : (Chain.chain source links).outcome = o := by
    rw [Chain.chain, Chain.foldl_outcome, Chain.source_outcome]
  have hsettles : Settles c.meaning o := by
    rw [← houtcome]
    exact delayed_settles timing _ []
  have hruns : ∀ l u, uses c l = [u] → u = useOf o := by
    intro l u h
    rw [uses_eq_meaning] at h
    exact hsettles l u (Option.toList_eq_singleton_iff.1 h)
  constructor
  · rw [uses_eq_meaning]
    cases hk : c.meaning.known events with
    | none => exact .inl rfl
    | some u => exact .inr (by rw [hsettles _ _ hk]; rfl)
  · obtain ⟨more, u, hu⟩ := exists_uses c events
    exact ⟨more, by rw [hu, hruns _ u hu]⟩

end Continuable.Runtime
