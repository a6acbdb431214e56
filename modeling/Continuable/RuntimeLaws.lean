import Continuable.RuntimeMeaning

/-!
Laws of continuables.

Two continuables are equivalent when their callbacks are used for the same at the same event in
every run. Handlers that return continuables compose, connections of one strategy may be nested or
flat, and parts of a continuable can be replaced by equivalent ones.
-/

namespace Continuable.Runtime

open Chain (HandleResults HandleErrors handled partialInvoke)
open ChainDestruction (Use useOf)
open Operators (Strategy)
open Waiting (Wait)
open Waiting.Wait (now upon gather)

variable {V E : Type}

/-- The callbacks are used for the same at the same event. -/
def Equivalent (c d : Continuation V E) : Prop := ∀ events, uses c events = uses d events

lemma equivalent_iff {c d : Continuation V E} : Equivalent c d ↔ c.meaning = d.meaning := by
  constructor
  · intro h
    ext l : 2
    have hl := h l
    rw [uses_eq_meaning, uses_eq_meaning] at hl
    have hhead := congrArg List.head? hl
    rwa [Option.head?_toList, Option.head?_toList] at hhead
  · intro h events
    rw [uses_eq_meaning, uses_eq_meaning, h]

/-! ### Replacing parts -/

/-- A continuable with holes in it, also in what its handlers return. -/
inductive Context (V E : Type)
  | hole
  | fixed (continuation : Continuation V E)
  | erased (inside : Context V E)
  | async (callback : Signal V E → Option (Returned V E)) (inside : Signal V E → Context V E)
      (executor : Executor E) (input : Signal V E)
  | chained (handleResults : HandleResults) (handleErrors : HandleErrors) (inner : Context V E)
      (accepts : ℕ → Bool) (callback : Signal V E → Option (Returned V E))
      (inside : Signal V E → Context V E) (executor : Executor E)
  | connected (strategy : Strategy) (members : List (Context V E))

mutual

/-- The continuable with every hole filled. -/
def Context.plug (c : Continuation V E) : Context V E → Continuation V E
  | .hole => c
  | .fixed d => d
  | .erased x => .erased (x.plug c)
  | .async callback inside executor input =>
    .async (fun input => (callback input).getD (.continuable ((inside input).plug c)))
      executor input
  | .chained hr he x accepts callback inside executor =>
    .chained hr he (x.plug c) accepts
      (fun input => (callback input).getD (.continuable ((inside input).plug c))) executor
  | .connected s members => .connected s (plugAll c members)

def plugAll (c : Continuation V E) : List (Context V E) → List (Continuation V E)
  | [] => []
  | x :: members => x.plug c :: plugAll c members

end

lemma returned_congr {c d : Continuation V E} (h : c.meaning = d.meaning)
    (callback : Option (Returned V E)) (p : Bool) :
    (callback.getD (.continuable c)).meaning p = (callback.getD (.continuable d)).meaning p := by
  cases callback with
  | none => exact h
  | some r => rfl

mutual

lemma Context.meaning_plug {c d : Continuation V E} (h : c.meaning = d.meaning)
    (x : Context V E) : (x.plug c).meaning = (x.plug d).meaning := by
  match x with
  | .hole => exact h
  | .fixed d' => rfl
  | .erased x => exact Context.meaning_plug h x
  | .async callback inside executor input =>
    exact congrArg executor.meaning
      (returned_congr (Context.meaning_plug h (inside input)) (callback input) input.onErrorPath)
  | .chained hr he x accepts callback inside executor =>
    have hhandler : (fun input : Signal V E =>
        ((callback input).getD (.continuable ((inside input).plug c))).meaning input.onErrorPath) =
        fun input => ((callback input).getD
          (.continuable ((inside input).plug d))).meaning input.onErrorPath :=
      funext fun input => returned_congr (Context.meaning_plug h (inside input)) (callback input) _
    rw [Context.plug, Context.plug, Continuation.meaning, Continuation.meaning, hhandler,
      Context.meaning_plug h x]
  | .connected s members =>
    rw [Context.plug, Context.plug, Continuation.meaning, Continuation.meaning,
      meanings_plugAll h members]

lemma meanings_plugAll {c d : Continuation V E} (h : c.meaning = d.meaning)
    (members : List (Context V E)) :
    meanings (plugAll c members) = meanings (plugAll d members) := by
  match members with
  | [] => rfl
  | x :: members =>
    rw [plugAll, plugAll, meanings, meanings, Context.meaning_plug h x, meanings_plugAll h members]

end

/-- **Equivalent continuables can be replaced for each other** wherever they are used: under further
links, as members of connections, or in what handlers return. -/
theorem plug_equivalent {c d : Continuation V E} (h : Equivalent c d) (x : Context V E) :
    Equivalent (x.plug c) (x.plug d) :=
  equivalent_iff.2 (x.meaning_plug (equivalent_iff.1 h))

/-- A lazy source behind an erased continuation, where a handler returns it to the last member of a
connection that waits for all of them. -/
theorem plug_equivalent_erased :
    Equivalent (V := ℕ) (E := ℕ)
      (.connected .all [.ready (.value [0]), .async (fun _ => .continuable
        (.erased (.lazy (some 3) (some (.value [1, 2]))))) .thisThread (.value [])])
      (.connected .all [.ready (.value [0]), .async (fun _ => .continuable
        (.lazy (some 3) (some (.value [1, 2])))) .thisThread (.value [])]) :=
  plug_equivalent (c := .erased (.lazy (some 3) (some (.value [1, 2]))))
    (equivalent_iff.2 rfl)
    (.connected .all [.fixed (.ready (.value [0])),
      .async (fun _ => none) (fun _ => .hole) .thisThread (.value [])])

/-- What comes out of the last member is seen. -/
example : uses (V := ℕ) (E := ℕ) (.connected .all [.ready (.value [0]), .async (fun _ =>
    .continuable (.lazy (some 3) (some (.value [1, 2])))) .thisThread (.value [])]) [2, 3] =
      [.called (.value [0, 1, 2])] := rfl

/-! ### Handlers -/

/-- The callback of `then`; it is never called with an exception. -/
def onValues (callback : List V → Returned V E) : Signal V E → Returned V E
  | .value args => callback args
  | .exception _ => .void

/-- A handler that throws or returns a continuable. -/
def returning (f : List V → Except E (Continuation V E)) (args : List V) : Returned V E :=
  match f args with
  | .error e => .thrown e
  | .ok c => .continuable c

namespace Continuation

def then_ (c : Continuation V E) (accepts : ℕ → Bool) (callback : List V → Returned V E)
    (executor : Executor E) : Continuation V E :=
  .chained .yes .no c accepts (onValues callback) executor

end Continuation

/-- A handler that leaves everything but values alone. -/
def onlyValues (k : List V → Meaning V E) : Use V E → Meaning V E
  | .called (.value vs) => k vs
  | .called (.exception e) => now (.called (.exception e))
  | .destroyed => now .destroyed

lemma bind_onlyValues (w : Meaning V E) (f g : List V → Meaning V E) :
    (w.bind (onlyValues f)).bind (onlyValues g) =
      w.bind (onlyValues fun vs => (f vs).bind (onlyValues g)) := by
  rw [Wait.bind_assoc]
  congr 1
  funext u
  rcases u with (vs | e) | _
  · rfl
  · exact Wait.now_bind _ _
  · exact Wait.now_bind _ _

lemma now_value_bind (vs : List V) (k : List V → Meaning V E) :
    (now (.called (.value vs)) : Meaning V E).bind (onlyValues k) = k vs := Wait.now_bind _ _

lemma then_meaning (c : Continuation V E) (accepts : ℕ → Bool) (callback : List V → Returned V E)
    (executor : Executor E) :
    (c.then_ accepts callback executor).meaning = c.meaning.bind (onlyValues fun args =>
      executor.meaning ((callback (partialInvoke accepts args)).meaning false)) := by
  rw [Continuation.then_, Continuation.meaning]
  congr 1
  funext u
  rcases u with (vs | e) | _ <;> rfl

lemma react_bind (r : Chain.Reaction E) (w : Meaning V E) (k : List V → Meaning V E) :
    (react r w).bind (onlyValues k) = react r (w.bind (onlyValues k)) := by
  cases r with
  | run => rfl
  | reject e => exact Wait.now_bind _ _
  | cancel => exact Wait.now_bind _ _
  | drop => exact Wait.now_bind _ _

lemma Executor.meaning_bind (executor : Executor E) (w : Meaning V E) (k : List V → Meaning V E) :
    (executor.meaning w).bind (onlyValues k) = executor.meaning (w.bind (onlyValues k)) := by
  rcases executor with _ | ⟨_ | n, r⟩
  · rfl
  · exact react_bind r w k
  · simp only [Executor.meaning, Wait.bind_assoc, react_bind]

lemma partialInvoke_of_accepts {accepts : ℕ → Bool} {args : List V}
    (h : accepts args.length = true) : partialInvoke accepts args = args := by
  unfold partialInvoke
  cases hn : args.length with
  | zero => rfl
  | succ n =>
    rw [hn] at h
    rw [Chain.partialInvokeImpl, hn, if_pos h]

lemma then_then (c : Continuation V E) (accepts accepts' : ℕ → Bool)
    (f : List V → Except E (Continuation V E)) (g : List V → Returned V E)
    (executor executor' : Executor E) :
    Equivalent ((c.then_ accepts (returning f) executor).then_ accepts' g executor')
      (c.then_ accepts (returning fun args => (f args).map (·.then_ accepts' g executor'))
        executor) := by
  rw [equivalent_iff, then_meaning, then_meaning, then_meaning, bind_onlyValues]
  congr 2
  funext args
  rw [Executor.meaning_bind]
  congr 1
  cases hf : f (partialInvoke accepts args) with
  | error e =>
    simp only [returning, hf, Except.map]
    exact Wait.now_bind _ _
  | ok c' =>
    simp only [returning, hf, Except.map]
    exact (then_meaning ..).symm

lemma ready_then {vs : List V} {accepts : ℕ → Bool} (h : accepts vs.length = true)
    (f : List V → Continuation V E) :
    Equivalent ((Continuation.ready (.value vs)).then_ accepts (fun args => .continuable (f args))
      .thisThread) (f vs) := by
  rw [equivalent_iff, then_meaning, Continuation.meaning]
  simp only [Result.outcome, useOf, Wait.now_bind, onlyValues, partialInvoke_of_accepts h]
  rfl

lemma then_ready (c : Continuation V E) :
    Equivalent (c.then_ (fun _ => true) (fun args => .continuable (.ready (.value args)))
      .thisThread) c := by
  rw [equivalent_iff, then_meaning]
  have hkeep : (onlyValues fun args : List V => (Executor.thisThread : Executor E).meaning
      ((Returned.continuable (.ready (.value (partialInvoke (fun _ => true) args)))
        : Returned V E).meaning false)) = now := by
    funext u
    rcases u with (vs | e) | _
    · simp only [onlyValues, partialInvoke_of_accepts]
      rfl
    · rfl
    · rfl
  rw [hkeep, Wait.bind_now]

lemma async_eq_then {vs : List V} {accepts : ℕ → Bool} (h : accepts vs.length = true)
    (callback : List V → Returned V E) (executor : Executor E) :
    Equivalent (.async (onValues callback) executor (.value vs))
      ((Continuation.ready (.value vs)).then_ accepts callback executor) := by
  rw [equivalent_iff, then_meaning, Continuation.meaning, Continuation.meaning]
  simp only [Result.outcome, useOf, Wait.now_bind, onlyValues, partialInvoke_of_accepts h]
  rfl

/-! ### Sequences -/

/-- `sequential_connect`. -/
def sequentialConnect (left right : Continuation V E) : Continuation V E :=
  left.then_ (fun _ => true) (fun previous => .continuable (right.then_ (fun _ => true)
    (fun args => .tuple (previous ++ args)) .thisThread)) .thisThread

lemma sequentialConnect_meaning (left right : Continuation V E) :
    (sequentialConnect left right).meaning = left.meaning.bind (onlyValues fun vs =>
      right.meaning.bind (onlyValues fun ws => now (.called (.value (vs ++ ws))))) := by
  have hall : ∀ args : List V, partialInvoke (fun _ => true) args = args :=
    fun args => partialInvoke_of_accepts rfl
  rw [sequentialConnect, then_meaning]
  simp only [hall, Executor.meaning, Returned.meaning, then_meaning]

lemma sequentialConnect_assoc (a b c : Continuation V E) :
    Equivalent (sequentialConnect (sequentialConnect a b) c)
      (sequentialConnect a (sequentialConnect b c)) := by
  rw [equivalent_iff]
  simp only [sequentialConnect_meaning, bind_onlyValues, now_value_bind, List.append_assoc]

lemma sequentialConnect_ready_left (c : Continuation V E) :
    Equivalent (sequentialConnect (.ready (.value [])) c) c := by
  have hkeep : (onlyValues fun ws : List V => (now (.called (.value ([] ++ ws))) : Meaning V E)) =
      now := by
    funext u
    rcases u with (vs | e) | _ <;> rfl
  rw [equivalent_iff, sequentialConnect_meaning, Continuation.meaning]
  simp only [Result.outcome, useOf, now_value_bind]
  rw [hkeep, Wait.bind_now]

lemma sequentialConnect_ready_right (c : Continuation V E) :
    Equivalent (sequentialConnect c (.ready (.value []))) c := by
  have hkeep : (onlyValues fun vs : List V => (Continuation.ready (.value []) :
      Continuation V E).meaning.bind (onlyValues fun ws =>
        now (.called (.value (vs ++ ws))))) = now := by
    funext u
    rcases u with (vs | e) | _
    · simp only [onlyValues, Continuation.meaning, Result.outcome, useOf, Wait.now_bind,
        List.append_nil]
    · rfl
    · rfl
  rw [equivalent_iff, sequentialConnect_meaning, hkeep, Wait.bind_now]

/-- **Handlers that return continuables compose.** Attaching `g` behind a handler is attaching `g`
to what that handler returns, whatever the executors do; a ready continuable is a unit on both
sides, and `async` is what `then` does on one. -/
theorem then_behaves :
    (∀ (c : Continuation V E) (accepts accepts' : ℕ → Bool)
      (f : List V → Except E (Continuation V E)) (g : List V → Returned V E)
      (executor executor' : Executor E),
      Equivalent ((c.then_ accepts (returning f) executor).then_ accepts' g executor')
        (c.then_ accepts (returning fun args => (f args).map (·.then_ accepts' g executor'))
          executor)) ∧
    (∀ (vs : List V) (f : List V → Continuation V E),
      Equivalent ((Continuation.ready (.value vs)).then_ (fun _ => true)
        (fun args => .continuable (f args)) .thisThread) (f vs)) ∧
    (∀ c : Continuation V E, Equivalent (c.then_ (fun _ => true)
      (fun args => .continuable (.ready (.value args))) .thisThread) c) ∧
    ∀ (vs : List V) (callback : List V → Returned V E) (executor : Executor E),
      Equivalent (.async (onValues callback) executor (.value vs))
        ((Continuation.ready (.value vs)).then_ (fun _ => true) callback executor) :=
  ⟨fun c accepts accepts' f g executor executor' =>
    then_then c accepts accepts' f g executor executor',
    fun _ f => ready_then rfl f, then_ready, fun _ callback executor =>
    async_eq_then rfl callback executor⟩

/-- **`operator>>` is a monoid**: how a sequence is put into parentheses cannot be seen, and a ready
continuable without values is a unit. -/
theorem sequentialConnect_behaves :
    (∀ a b c : Continuation V E, Equivalent (sequentialConnect (sequentialConnect a b) c)
      (sequentialConnect a (sequentialConnect b c))) ∧
    (∀ c : Continuation V E, Equivalent (sequentialConnect (.ready (.value [])) c) c) ∧
    ∀ c : Continuation V E, Equivalent (sequentialConnect c (.ready (.value []))) c :=
  ⟨sequentialConnect_assoc, sequentialConnect_ready_left, sequentialConnect_ready_right⟩

end Continuable.Runtime
