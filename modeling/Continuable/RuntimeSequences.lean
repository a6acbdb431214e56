import Continuable.RuntimeFrames
import Continuable.RuntimeLaws

/-!
Sequences in event loops.

`when_seq` goes through a pack and waits for its continuables, which may be of any kind, and
`operator>>` nests handlers. Where no ready continuable holds an exception, which `when_seq` takes
for values, both do the same.
-/

namespace Continuable.Runtime

open ChainDestruction (Use)
open Waiting (Wait)
open Waiting.Wait (now)

variable {V E : Type}

/-- The boxes that were passed, and the rest of the pack. -/
structure SeqData (V E : Type) where
  boxes : List (List V)
  rest : List (V ⊕ Continuation V E)

/-- `traits::unpack` of the result of a ready continuable into its box. If it does not hold values,
the box gets what lies there. -/
def unpackInto (garbage : List V) : Result V E → List V
  | .value vs => vs
  | .empty | .exception _ => garbage

/-- `sequential_dispatch_visitor`: the visit overload unpacks a ready continuable, and the detach
overload starts another one. In the end, the callback is called with what is in the boxes. -/
def visit (garbage : ℕ → List V) (boxes : List (List V)) :
    List (V ⊕ Continuation V E) → Move (SeqData V E) V E
  | [] => .stop (.called (.value boxes.flatten))
  | .inl v :: rest => visit garbage (boxes ++ [[v]]) rest
  | .inr c :: rest =>
    match c.isReady, c.unpack with
    | true, some r => visit garbage (boxes ++ [unpackInto (garbage boxes.length) r]) rest
    | _, _ => .start ⟨boxes, rest⟩ c

/-- The handlers of the detach overload. -/
def detached (s : SeqData V E) : Use V E → SeqData V E ⊕ Use V E
  | .called (.value vs) => .inl { s with boxes := s.boxes ++ [vs] }
  | .called (.exception e) => .inr (.called (.exception e))
  | .destroyed => .inr .destroyed

def sequentialDispatchVisitor (garbage : ℕ → List V) : Driver (SeqData V E) V E where
  advance s := visit garbage s.boxes s.rest
  resume := detached

/-- `when_seq` of a flat pack. -/
def runWhenSeq (garbage : ℕ → List V) (args : List (V ⊕ Continuation V E)) (events : List ℕ) :
    Frame (SeqData V E) V E :=
  (sequentialDispatchVisitor garbage).run (args.length + 1) ⟨[], args⟩ events

/-- An argument as a continuable. -/
def awaited : V ⊕ Continuation V E → Continuation V E
  | .inl v => .ready (.value [v])
  | .inr c => c

/-- A ready continuable holds values. -/
def ReadyWithValues (c : Continuation V E) : Prop := ∀ r, c.unpack = some r → ∃ vs, r = .value vs

/-- The arguments one after the other. -/
def seqMeaning (values : List V) : List (V ⊕ Continuation V E) → Meaning V E
  | [] => now (.called (.value values))
  | a :: rest => (awaited a).meaning.bind (onlyValues fun vs => seqMeaning (values ++ vs) rest)

section sequences

variable {garbage : ℕ → List V} {boxes : List (List V)} {args : List (V ⊕ Continuation V E)}

lemma flatten_append_singleton (boxes : List (List V)) (vs : List V) :
    (boxes ++ [vs]).flatten = boxes.flatten ++ vs := by simp

lemma moved_visit {fuel : ℕ} (hfuel : args.length ≤ fuel)
    (h : ∀ c, Sum.inr c ∈ args → ReadyWithValues c) :
    (sequentialDispatchVisitor garbage).moved fuel (visit garbage boxes args) =
      seqMeaning boxes.flatten args := by
  induction args generalizing boxes fuel with
  | nil => rfl
  | cons a rest ih =>
    have hrest : ∀ c, Sum.inr c ∈ rest → ReadyWithValues c :=
      fun c hc => h c (List.mem_cons_of_mem a hc)
    rw [List.length_cons] at hfuel
    -- a value that is at hand
    have hpass : ∀ vs, (awaited a).meaning = now (.called (.value vs)) →
        (sequentialDispatchVisitor garbage).moved fuel (visit garbage (boxes ++ [vs]) rest) =
          seqMeaning boxes.flatten (a :: rest) := by
      intro vs hvs
      rw [ih (by omega) hrest, flatten_append_singleton, seqMeaning, hvs, now_value_bind]
    rcases a with v | c
    · exact hpass [v] rfl
    · have hready := h c List.mem_cons_self
      rw [visit]
      split
      · rename_i r _ hr
        obtain ⟨vs, rfl⟩ := hready r hr
        exact hpass vs (meaning_of_ready hr)
      · obtain ⟨fuel, rfl⟩ : ∃ n, fuel = n + 1 := ⟨fuel - 1, by omega⟩
        rw [Driver.moved, seqMeaning]
        refine congrArg c.meaning.bind (funext fun u => ?_)
        rcases u with (vs | e) | _
        · have hgo : (sequentialDispatchVisitor garbage).moved fuel
              (visit garbage (boxes ++ [vs]) rest) = seqMeaning (boxes ++ [vs]).flatten rest :=
            ih (Nat.le_of_succ_le_succ hfuel) hrest
          rw [flatten_append_singleton] at hgo
          exact (Driver.iterate_succ _ _ _).trans hgo
        · rfl
        · rfl

lemma foldl_meaning (c : Continuation V E) :
    ((args.map awaited).foldl sequentialConnect c).meaning =
      c.meaning.bind (onlyValues fun vs => seqMeaning vs args) := by
  induction args generalizing c with
  | nil =>
    have hkeep : (onlyValues fun vs : List V => seqMeaning (E := E) vs []) = now := by
      funext u
      rcases u with (vs | e) | _ <;> rfl
    rw [hkeep, Wait.bind_now]
    rfl
  | cons a rest ih =>
    rw [List.map_cons, List.foldl_cons, ih, sequentialConnect_meaning]
    simp only [bind_onlyValues, now_value_bind, seqMeaning]

end sequences

/-- **`when_seq` is `operator>>`**, plain values being ready continuables: in every run, the
callback is used for the same at the same event, unless a ready continuable holds no values. -/
theorem runWhenSeq_eq_uses (garbage : ℕ → List V) {first : V ⊕ Continuation V E}
    {rest : List (V ⊕ Continuation V E)}
    (h : ∀ c, Sum.inr c ∈ first :: rest → ReadyWithValues c) (events : List ℕ) :
    (runWhenSeq garbage (first :: rest) events).callback =
      uses ((rest.map awaited).foldl sequentialConnect (awaited first)) events := by
  have hmoved : (sequentialDispatchVisitor garbage).moved (first :: rest).length
      (visit garbage [] (first :: rest)) = seqMeaning [] (first :: rest) :=
    moved_visit (Nat.le_refl _) h
  have hmeaning : Wait.iterate (sequentialDispatchVisitor garbage).body ((first :: rest).length + 1)
      ⟨[], first :: rest⟩ = seqMeaning [] (first :: rest) :=
    (Driver.iterate_succ _ _ _).trans hmoved
  rw [runWhenSeq, callback_eq, hmeaning, uses_eq_meaning, foldl_meaning, seqMeaning]
  simp only [List.nil_append]

/-- A plain value between two continuables. -/
def valueBetween : List (ℕ ⊕ Continuation ℕ ℕ) :=
  [.inl 2, .inr (.chained .yes .no (.ready (.value [3])) (fun _ => true)
    (fun _ => .pair 4 5) .thisThread)]

theorem runWhenSeq_eq_uses_valueBetween :
    (runWhenSeq (fun _ => []) (.inr (.lazy (some 7) (some (.value [1]))) :: valueBetween)
      [6, 7]).callback =
        uses ((valueBetween.map awaited).foldl sequentialConnect
          (.lazy (some 7) (some (.value [1])))) [6, 7] := by
  refine runWhenSeq_eq_uses (fun _ => []) (fun c hc r hr => ?_) [6, 7]
  simp only [valueBetween, List.mem_cons, List.not_mem_nil, or_false, Sum.inr.injEq, reduceCtorEq,
    false_or] at hc
  rcases hc with rfl | rfl <;> cases hr

example : uses ((valueBetween.map awaited).foldl sequentialConnect
    (.lazy (some 7) (some (.value [1])))) [6, 7] = [.called (.value [1, 2, 4, 5])] := rfl

end Continuable.Runtime
