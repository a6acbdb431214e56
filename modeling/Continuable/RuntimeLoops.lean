import Continuable.RangeLoop
import Continuable.RuntimeFrames
import Continuable.RuntimeLaws

/-!
Loops in event loops.

The iterations of a loop are continuables of any kind. The promise of the loop is used for what they
come to one after the other; a loop over a range is the chain of its steps.
-/

namespace Continuable.Runtime

open ChainDestruction (Use)
open Waiting (Wait)
open Waiting.Wait (now)

variable {F V E I : Type}

/-- The callable of a loop with its state, to which the arguments belong that are passed by
reference. An iteration is resolved with a result; its handlers may have changed the state. -/
structure LoopCallable (F V E : Type) where
  invoke : F → F × Except E (Continuation V E)
  finish : F → List V → F × Result V E

namespace LoopCallable

variable (callable : LoopCallable F V E)

/-- `loop_frame::loop`; what the callable throws is caught. -/
def loop (state : F) : Move F V E :=
  match callable.invoke state with
  | (_, .error e) => .stop (.called (.exception (some e)))
  | (state, .ok c) => .start state c

/-- `loop_frame::resolve`; the frame is destroyed with a handler that is not called. -/
def resolve (state : F) : Use V E → F ⊕ Use V E
  | .called (.value args) =>
    match callable.finish state args with
    | (state, .empty) => .inl state
    | (_, .value vs) => .inr (.called (.value vs))
    | (_, .exception e) => .inr (.called (.exception e))
  | .called (.exception e) => .inr (.called (.exception e))
  | .destroyed => .inr .destroyed

/-- `loop_frame`. -/
def frame : Driver F V E where
  advance := callable.loop
  resume := callable.resolve

noncomputable def meaning (state : F) : Meaning V E := callable.frame.meaning state

end LoopCallable

/-- `loop`, for at most `fuel` iterations. -/
def runLoop (callable : LoopCallable F V E) (fuel : ℕ) (state : F) (events : List ℕ) :
    Frame F V E :=
  callable.frame.run fuel state events

/-- **Loops in event loops.** In every run, given enough iterations, the promise of a loop is used
for what the loop means: what the continuable of an iteration comes to and then, where its result is
empty, what the loop means from there. -/
theorem runLoop_behaves (callable : LoopCallable F V E) :
    (∀ state events, ∃ enough, ∀ fuel ≥ enough,
      (runLoop callable fuel state events).callback =
        ((callable.meaning state).known events).toList) ∧
    ∀ state, callable.meaning state =
      match callable.invoke state with
      | (_, .error e) => now (.called (.exception (some e)))
      | (state, .ok c) => c.meaning.bind fun u =>
        match callable.resolve state u with
        | .inl state => callable.meaning state
        | .inr u => now u := by
  refine ⟨fun state events => exists_callback_eq callable.frame state events, fun state => ?_⟩
  have hloop : callable.frame.advance state = callable.loop state := rfl
  rw [LoopCallable.meaning, Driver.meaning_eq, hloop, LoopCallable.loop]
  rcases callable.invoke state with ⟨state, e | c⟩
  · rfl
  · rfl

/-! ### Loops over ranges -/

/-- How the values of `result<>` stand among those that continuables resolve with. -/
structure ResultValues (V E : Type) where
  read : List V → Result V E
  continues : V
  stops : V
  read_continues : read [continues] = .empty
  read_stops : read [stops] = .value []

/-- A callable without parameters. -/
def nullary (n : ℕ) : Bool := n == 0

/-- `make_range_looper`: the handler that is attached to a step increments the begin. -/
def rangeLooper [DecidableEq I] (values : ResultValues V E) (succ : I → I) (last : I)
    (callable : I → Except E (Continuation V E)) : LoopCallable I V E where
  invoke first := (first, (callable first).map fun c => c.then_ nullary (fun _ =>
    .plainTag (if succ first ≠ last then values.continues else values.stops)) .thisThread)
  finish first args := (succ first, values.read args)

/-- A further step of a chain. -/
def step (callable : I → Except E (Continuation V E)) (c : Continuation V E) (p : I) :
    Continuation V E :=
  c.then_ nullary (returning fun _ => callable p) .thisThread

/-- The steps of a range as a chain. -/
def steps (callable : I → Except E (Continuation V E)) (positions : List I) : Continuation V E :=
  (positions.foldl (step callable) (.ready (.value []))).then_ nullary (fun _ => .void) .thisThread

section ranges

variable {values : ResultValues V E} {callable : I → Except E (Continuation V E)}

/-- What a step means. -/
def stepMeaning (callable : I → Except E (Continuation V E)) (p : I) : Meaning V E :=
  match callable p with
  | .error e => now (.called (.exception (some e)))
  | .ok c => c.meaning

/-- What the steps of a range mean, one after the other. -/
def stepsMeaning (callable : I → Except E (Continuation V E)) : List I → Meaning V E
  | [] => now (.called (.value []))
  | p :: positions =>
    (stepMeaning callable p).bind (onlyValues fun _ => stepsMeaning callable positions)

lemma meaning_step (c : Continuation V E) (p : I) :
    (step callable c p).meaning = c.meaning.bind (onlyValues fun _ => stepMeaning callable p) := by
  rw [step, then_meaning]
  congr 2
  funext args
  rw [stepMeaning, returning]
  cases callable p with
  | error e => rfl
  | ok c => rfl

lemma steps_meaning (positions : List I) :
    (steps callable positions).meaning = stepsMeaning callable positions := by
  have hfold : ∀ c : Continuation V E, ((positions.foldl (step callable) c).then_ nullary
      (fun _ => .void) .thisThread).meaning =
        c.meaning.bind (onlyValues fun _ => stepsMeaning callable positions) := by
    induction positions with
    | nil => exact fun c => then_meaning c nullary _ .thisThread
    | cons p positions ih =>
      intro c
      rw [List.foldl_cons, ih, meaning_step, bind_onlyValues, stepsMeaning]
  rw [steps, hfold]
  exact now_value_bind [] _

variable [DecidableEq I] {succ : I → I} {last : I}

lemma body_rangeLooper_bind (first : I) (k : I ⊕ Use V E → Meaning V E) :
    ((rangeLooper values succ last callable).frame.body first).bind k =
      (stepMeaning callable first).bind fun u =>
        match u with
        | .called (.value _) =>
          k (if succ first ≠ last then .inl (succ first) else .inr (.called (.value [])))
        | u => k (.inr u) := by
  have hloop : (rangeLooper values succ last callable).frame.advance first =
      (rangeLooper values succ last callable).loop first := rfl
  have hresolve : (rangeLooper values succ last callable).frame.resume first =
      (rangeLooper values succ last callable).resolve first := rfl
  rw [Driver.body_bind, hloop, LoopCallable.loop, stepMeaning]
  cases hc : callable first with
  | error e =>
    simp only [rangeLooper, hc, Except.map, Wait.now_bind]
  | ok c =>
    have hinvoke : (rangeLooper values succ last callable).invoke first =
        (first, .ok (c.then_ nullary (fun _ => .plainTag (if succ first ≠ last then
          values.continues else values.stops)) .thisThread)) := by
      simp only [rangeLooper, hc, Except.map]
    rw [hinvoke]
    simp only [then_meaning, Wait.bind_assoc, hresolve]
    refine congrArg c.meaning.bind (funext fun u => ?_)
    rcases u with (vs | e) | _
    · have hfinish : ∀ v, (rangeLooper values succ last callable).finish first [v] =
          (succ first, values.read [v]) := fun v => rfl
      simp only [onlyValues, Executor.meaning, Returned.meaning, Wait.now_bind,
        LoopCallable.resolve, hfinish]
      split_ifs with hlast
      · rw [values.read_continues]
      · rw [values.read_stops]
    · simp only [onlyValues, Wait.now_bind, LoopCallable.resolve]
    · simp only [onlyValues, Wait.now_bind, LoopCallable.resolve]

lemma iterate_rangeLooper {n : ℕ} {first : I} (hreaches : succ^[n + 1] first = last)
    (hbefore : ∀ m < n + 1, succ^[m] first ≠ last) {fuel : ℕ} (hfuel : n < fuel) :
    Wait.iterate (rangeLooper values succ last callable).frame.body fuel first =
      stepsMeaning callable ((List.range (n + 1)).map fun m => succ^[m] first) := by
  induction n generalizing first fuel with
  | zero =>
    obtain ⟨fuel, rfl⟩ : ∃ m, fuel = m + 1 := ⟨fuel - 1, by omega⟩
    have hlast : succ first = last := hreaches
    have hposition : (List.range (0 + 1)).map (fun m => succ^[m] first) = [first] := rfl
    rw [Wait.iterate, body_rangeLooper_bind, hposition, stepsMeaning, stepsMeaning]
    congr 1
    funext u
    rcases u with (vs | e) | _
    · simp [hlast, onlyValues]
    · rfl
    · rfl
  | succ n ih =>
    obtain ⟨fuel, rfl⟩ : ∃ m, fuel = m + 1 := ⟨fuel - 1, by omega⟩
    have hnext : succ first ≠ last := hbefore 1 (by omega)
    have hrest : Wait.iterate (rangeLooper values succ last callable).frame.body fuel (succ first) =
        stepsMeaning callable ((List.range (n + 1)).map fun m => succ^[m] (succ first)) :=
      ih hreaches (fun m hm => hbefore (m + 1) (by omega)) (by omega)
    have hpositions : (List.range (n + 1 + 1)).map (fun m => succ^[m] first) =
        first :: (List.range (n + 1)).map fun m => succ^[m] (succ first) := by
      rw [List.range_succ_eq_map, List.map_cons, List.map_map]
      rfl
    rw [Wait.iterate, body_rangeLooper_bind, hpositions, stepsMeaning, ← hrest]
    congr 1
    funext u
    rcases u with (vs | e) | _
    · simp [hnext, onlyValues]
    · rfl
    · rfl

end ranges

/-- **A loop over a range is the chain of its steps.** In every run, the promise of `range_loop` is
used for what a chain uses its callback for that attaches the steps one after the other. -/
theorem runLoop_eq_steps [DecidableEq I] (values : ResultValues V E)
    (callable : I → Except E (Continuation V E)) {r : Looping.Range I} (hne : r.first ≠ r.last)
    {fuel : ℕ} (hfuel : r.length ≤ fuel) (events : List ℕ) :
    (runLoop (rangeLooper values r.succ r.last callable) fuel r.first events).callback =
      uses (steps callable r.positions) events := by
  obtain ⟨n, hn⟩ : ∃ n, r.length = n + 1 :=
    Nat.exists_eq_succ_of_ne_zero fun h => hne (r.length_eq_zero_iff.1 h)
  have hreaches := r.reaches
  have hbefore := r.before
  rw [hn] at hreaches hbefore
  rw [runLoop, callback_eq, uses_eq_meaning, steps_meaning, Looping.Range.positions, hn,
    iterate_rangeLooper hreaches hbefore (by omega)]

/-- Results as truth values. -/
def boolResults : ResultValues Bool ℕ where
  read args := if args = [true] then .empty else .value []
  continues := true
  stops := false
  read_continues := rfl
  read_stops := rfl

def threeToFive : Looping.Range ℕ := ⟨(· + 1), 3, 5, 2, rfl, by decide⟩

/-- Each step waits for the event of its position. -/
def waits (p : ℕ) : Except ℕ (Continuation Bool ℕ) := .ok (.lazy (some p) (some (.value [])))

theorem runLoop_eq_steps_threeToFive :
    (runLoop (rangeLooper boolResults (· + 1) 5 waits) 2 3 [4, 3, 4]).callback =
      uses (steps waits [3, 4]) [4, 3, 4] :=
  runLoop_eq_steps boolResults waits (r := threeToFive) (by decide) (Nat.le_refl 2) [4, 3, 4]

/-- An event that comes too early is not waited for. -/
example : uses (steps waits [3, 4]) [4, 3, 4] = [.called (.value [])] := rfl

end Continuable.Runtime
