import Continuable.ChainFold
import Continuable.Coroutine

/-!
Coroutines as chains.

The body of a coroutine amounts to a chain: what comes behind an await is a handler that `next`
attaches to the continuable. However the steps of the threads interleave, the promise of the
coroutine is resolved with what this chain comes to.
-/

namespace Continuable.Await

open Chain (partialInvoke_all)

variable {V E : Type}

/-- A continuable that is awaited, which resolves as the await has seen it. -/
def awaited (k : ℕ) (source : Option (Signal V (Thrown E))) (outcome : Outcome V (Thrown E)) :
    Chain.Continuation V (Thrown E) :=
  match source with
  | some signal => .ready k (makeResult signal)
  | none => .lazy k outcome

/-- What the body does after some awaits, as the handler of a chain. An `await_canceled_exception`
that leaves the body cancels the chain. -/
def handler (c : Coroutine V E) (outcomes : ℕ → Outcome V (Thrown E)) :
    ℕ → List (Resumed V E) → Chain.Returned V (Thrown E)
  | 0, _ => .emptyResult
  | n + 1, history =>
    match c history with
    | .await source =>
      .continuable (.chained .yes .forward
        (awaited history.length source (outcomes history.length)) (fun _ => true)
        (fun signal => handler c outcomes n (history ++ [resumedWith signal])) .thisThread)
    | .ret vs => .tuple vs
    | .escape .awaitCanceled => .cancellationResult
    | .escape (.other e) => .thrown (.other e)

/-- What the continuable of an await has called the callback with. -/
def State.called (s : State V E) (k : ℕ) : Outcome V (Thrown E) :=
  s.awaits[k]?.bind fun a => (calls a.log).head?

/-! ### The chain -/

section chain

variable {c : Coroutine V E} {outcomes : ℕ → Outcome V (Thrown E)}
  {history : List (Resumed V E)} {source : Option (Signal V (Thrown E))}

lemma handler_outcome (n : ℕ) (errorPath : Bool) :
    (handler c outcomes n history).outcome errorPath =
      (handler c outcomes n history).outcome false := by
  cases n with
  | zero => rfl
  | succ n =>
    rw [handler]
    rcases c history with source | vs | _ | e <;> rfl

lemma handler_through (hc : resolution (c history) ≠ none) (n : ℕ) :
    (handler c outcomes (n + 1) history).outcome false = resolution (c history) := by
  rw [handler]
  rcases h : c history with source | vs | _ | e
  · rw [h] at hc
    exact absurd rfl hc
  · rfl
  · rfl
  · rfl

lemma handler_waiting (hc : c history = .await source)
    (ho : (awaited history.length source (outcomes history.length)).outcome = none) (n : ℕ) :
    (handler c outcomes (n + 1) history).outcome false = none := by
  simp only [handler, hc, Chain.Returned.outcome, Chain.Continuation.outcome, ho]

lemma handler_continued {signal : Signal V (Thrown E)} (hc : c history = .await source)
    (ho : (awaited history.length source (outcomes history.length)).outcome = some signal)
    (n : ℕ) :
    (handler c outcomes (n + 1) history).outcome false =
      (handler c outcomes n (history ++ [resumedWith signal])).outcome false := by
  simp only [handler, hc, Chain.Returned.outcome, Chain.Continuation.outcome, ho]
  cases signal with
  | value vs =>
    simp only [Chain.handled, if_true, partialInvoke_all]
    exact handler_outcome n _
  | exception e => exact handler_outcome n _

end chain

/-! ### The coroutine -/

section coroutine

variable {c : Coroutine V E} {s : State V E}

lemma exists_awaited (h : Inv c s) {k : ℕ} (hk : k < s.history.length) :
    ∃ source signal, c (s.history.take k) = .await source ∧
      (awaited k source (s.called k)).outcome = some signal ∧
        s.history.take (k + 1) = s.history.take k ++ [resumedWith signal] := by
  have hinvoked : s.invoked = true := by
    by_contra hidle
    rw [h.idle (eq_false_of_ne_true hidle)] at hk
    cases hk
  have hbegun : s.history.length ≤ begun c s.history := by
    unfold begun
    split <;> omega
  have hlength : k < s.awaits.length := by
    rw [h.length hinvoked]
    omega
  have ha : s.awaits[k]? = some s.awaits[k] := List.getElem?_eq_getElem hlength
  obtain ⟨source, hsource, hinv, hres⟩ := h.awaits k _ ha
  rw [List.getElem?_eq_getElem hk, Option.toList_some] at hres
  obtain ⟨way, hway⟩ : ∃ way, (way, s.history[k]) ∈ resumptions s.awaits[k].log := by
    have hmem : s.history[k] ∈ (resumptions s.awaits[k].log).map Prod.snd := by simp [hres]
    obtain ⟨⟨way, r⟩, hmem, hr⟩ := List.mem_map.1 hmem
    exact ⟨way, hr ▸ hmem⟩
  obtain ⟨signal, -, hr, hcontinued⟩ := hinv.stage.of_resumption hway
  refine ⟨source, signal, hsource, ?_, by rw [List.take_succ_eq_append_getElem hk, hr]⟩
  have hcalled : s.called k = (calls s.awaits[k].log).head? := by rw [State.called, ha]; rfl
  cases way with
  | ready =>
    rw [hcontinued.1]
    cases signal <;> rfl
  | returned =>
    obtain ⟨rfl, hcalls, -⟩ := hcontinued
    rw [hcalled, hcalls]
    rfl
  | handle =>
    obtain ⟨rfl, hcalls, -⟩ := hcontinued
    rw [hcalled, hcalls]
    rfl

/-- The chain comes to where the coroutine is. -/
lemma handler_history (h : Inv c s) (n : ℕ) {k : ℕ} (hk : k ≤ s.history.length) :
    (handler c s.called (k + n) (s.history.take (s.history.length - k))).outcome false =
      (handler c s.called n s.history).outcome false := by
  induction k with
  | zero => rw [Nat.zero_add, Nat.sub_zero, List.take_length]
  | succ k ih =>
    have hj : s.history.length - (k + 1) < s.history.length := by omega
    have hlength : (s.history.take (s.history.length - (k + 1))).length =
        s.history.length - (k + 1) := by rw [List.length_take]; omega
    have hsucc : s.history.length - (k + 1) + 1 = s.history.length - k := by omega
    obtain ⟨source, signal, hc, ho, htake⟩ := exists_awaited h hj
    rw [hsucc] at htake
    calc (handler c s.called (k + 1 + n)
            (s.history.take (s.history.length - (k + 1)))).outcome false
        = (handler c s.called (k + n + 1)
            (s.history.take (s.history.length - (k + 1)))).outcome false := by
          rw [Nat.add_right_comm]
      _ = (handler c s.called (k + n) (s.history.take (s.history.length - k))).outcome false := by
          rw [handler_continued hc (by rw [hlength]; exact ho), htake]
      _ = (handler c s.called n s.history).outcome false := ih (by omega)

lemma call_eq_self {source : Option (Signal V (Thrown E))} {a : Awaitable V E}
    (h : a.Inv source) {k : ℕ} (ho : (awaited k source (calls a.log).head?).outcome ≠ none)
    (signal : Signal V (Thrown E)) : a.call signal = (a, none) := by
  unfold Awaitable.call
  cases hresolver : a.resolver with
  | waiting =>
    cases h.stage with
    | created _ hr => simp [hresolver] at hr
    | suspending _ _ hr => simp [hresolver] at hr
    | decided _ _ _ _ _ hside => simp [hresolver] at hside
    | continued _ _ _ hr => simp [hresolver] at hr
    | racing hsource hworking =>
      cases hworking with
      | called _ hr => simp [hresolver] at hr
      | stored _ hr => simp [hresolver] at hr
      | waiting _ _ hcalls =>
        rw [hsource, hcalls] at ho
        exact absurd rfl ho
  | idle => rfl
  | check _ => rfl
  | store _ => rfl
  | exchange => rfl
  | resume => rfl
  | done => rfl

lemma exists_step (h : Inv c s) {source : Option (Signal V (Thrown E))}
    (hc : c s.history = .await source) (hinvoked : s.invoked = true)
    (ho : (awaited s.history.length source (s.called s.history.length)).outcome ≠ none) :
    step c s (.awaiter s.history.length) ≠ s ∨ step c s (.resolver s.history.length) ≠ s := by
  by_contra hfixed
  obtain ⟨hawaiter, hresolver⟩ := not_or.1 hfixed
  have hlength : s.awaits.length = s.history.length + 1 := by rw [h.length hinvoked, begun, hc]
  have hk : s.history.length < s.awaits.length := by omega
  have ha : s.awaits[s.history.length]? = some s.awaits[s.history.length] :=
    List.getElem?_eq_getElem hk
  obtain ⟨source', hsource, hinv, -⟩ := h.awaits _ _ ha
  rw [List.take_length, hc] at hsource
  cases hsource
  have hcall : ∀ signal, step c s (.call s.history.length signal) = s := by
    intro signal
    have hself := call_eq_self hinv (k := s.history.length)
      (by rw [State.called, ha] at ho; exact ho) signal
    simp only [step, act, ha, hself, List.set_getElem_self]
  have hlast := continued_of_inv h hk (not_not.1 hawaiter) (not_not.1 hresolver) hcall
  omega

end coroutine

/-- **A coroutine does what a chain of `next` handlers does.** In every run, the promise is resolved
with what the chain comes to that waits for the same continuables, unless the coroutine was not
started or one of its awaits goes on by itself. -/
theorem runCoroutine_promised (c : Coroutine V E) (schedule : List (Action V E)) (n : ℕ) :
    let s := runCoroutine c schedule
    s.promised = ((handler c s.called (s.history.length + (n + 1)) []).outcome false).toList ∨
      s.promised = [] ∧
        (s.invoked = false ∨ ∃ k, step c s (.awaiter k) ≠ s ∨ step c s (.resolver k) ≠ s) := by
  intro s
  have h : Inv c s := runCoroutine_inv c schedule
  cases hinvoked : s.invoked with
  | false => exact .inr ⟨by rw [h.idle hinvoked]; rfl, .inl rfl⟩
  | true =>
    have hpromised := h.promised hinvoked
    have hhandler := handler_history h (n + 1) (Nat.le_refl s.history.length)
    rw [Nat.sub_self, List.take_zero] at hhandler
    rw [hhandler, hpromised]
    cases hc : resolution (c s.history) with
    | some signal =>
      rw [handler_through (by rw [hc]; exact Option.some_ne_none signal), hc]
      exact .inl rfl
    | none =>
      obtain ⟨source, hsource⟩ : ∃ source, c s.history = .await source := by
        cases hinstruction : c s.history with
        | await source => exact ⟨source, rfl⟩
        | ret vs => rw [hinstruction] at hc; cases hc
        | escape x => rw [hinstruction] at hc; cases hc
      by_cases ho : (awaited s.history.length source (s.called s.history.length)).outcome = none
      · rw [handler_waiting hsource ho]
        exact .inl rfl
      · exact .inr ⟨rfl, .inr ⟨_, exists_step h hsource hinvoked ho⟩⟩

end Continuable.Await
