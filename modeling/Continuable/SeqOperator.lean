import Continuable.Activation
import Continuable.SeqConnection

/-!
The operator `>>`.

Connecting two continuables attaches a handler to the left one that returns the right one, with a
handler attached that puts the arguments together. Trees of the operator nest such handlers in
very different ways, but they all do what the plain sequence of their leaves does.

The operands are frozen while they are connected; a continuable that is returned from a handler
is invoked all the same.
-/

namespace Continuable.Seq.Operator

open Activation

inductive Event (V E : Type)
  | started (name : ℕ)
  | resolved (name : ℕ) (signal : Signal V E)
  | called (signal : Signal V E)
  deriving DecidableEq

variable {V E : Type}

abbrev Run (V E : Type) := Task (Event V E) E
abbrev Callback (V E : Type) := Signal V E → Run V E

/-- The data of a continuable: what it does with the callback it is invoked with. -/
abbrev Continuation (V E : Type) := Callback V E → Run V E

/-- A source calls back at most once: while it is invoked, later, or never. A ready one is
unpacked by whoever invokes it. -/
def source (name : ℕ) : Source V E → Continuation V E
  | .ready r, next => .emit (.started name) (.emit (.resolved name r) (next r))
  | .lazy _ none, _ => .emit (.started name) .ret
  | .lazy .immediately (some s), next =>
    .emit (.started name) (.emit (.resolved name s) (next s))
  | .lazy .later (some s), next =>
    .emit (.started name) (.later (.emit (.resolved name s) (next s)))

/-- What the handlers of `sequential_connect` return. -/
inductive Returned (V E : Type)
  | continuable (continuation : Continuation V E)
  | tuple (values : List V)

/-- `decoration::invoker_of` of a continuable, and `sequenced_unpack_invoker`. -/
def invokerOf (next : Callback V E) : Returned V E → Run V E
  | .continuable c => (c next).noexcept
  | .tuple vs => (next (.value vs)).noexcept

/-- The proxy of a link that handles results and forwards errors. -/
def proxy (handle : List V → Run V E) (next : Callback V E) : Callback V E
  | .value args => handle args
  | .exception e => next (.exception e)

/-- `then`: the handler runs inside of a `try` block. -/
def thenChain (c : Continuation V E) (handler : List V → Returned V E) : Continuation V E :=
  fun next => c (proxy (fun args =>
    (invokerOf next (handler args)).tryCatch fun e => next (.exception (some e))) next)

def sequentialConnect (left right : Continuation V E) : Continuation V E :=
  thenChain left fun previous =>
    .continuable (thenChain right fun args => .tuple (previous ++ args))

/-- An expression over the operator. -/
inductive Expr (V E : Type)
  | leaf (source : Source V E)
  | connect (left right : Expr V E)

namespace Expr

def leaves : Expr V E → List (Source V E)
  | .leaf s => [s]
  | .connect l r => l.leaves ++ r.leaves

/-- The continuable that is built; its sources are named in order. -/
def continuation (first : ℕ) : Expr V E → Continuation V E
  | .leaf s => source first s
  | .connect l r =>
    sequentialConnect (l.continuation first) (r.continuation (first + l.leaves.length))

/-- The expression is invoked. -/
def invoke (t : Expr V E) : Run V E := t.continuation 0 fun s => .emit (.called s) .ret

end Expr

/-! ### Sequences -/

/-- Run the sources one after the other and collect their values. -/
def sequence (i : ℕ) (values : List V) : List (Source V E) → Continuation V E
  | [], next => next (.value values)
  | s :: rest, next =>
    source i s (proxy (fun vs => sequence (i + 1) (values ++ vs) rest next) next)

/-- What is seen of a sequence, by the outcomes of its sources alone. -/
def reference (i : ℕ) (values : List V) : List (Outcome V E) → List (Event V E)
  | [] => [.called (.value values)]
  | none :: _ => [.started i]
  | some (.exception e) :: _ =>
    [.started i, .resolved i (.exception e), .called (.exception e)]
  | some (.value vs) :: rest =>
    .started i :: .resolved i (.value vs) :: reference (i + 1) (values ++ vs) rest

lemma source_returns {name : ℕ} {s : Source V E} {next : Callback V E}
    (h : ∀ s, (next s).Returns) : (source name s next).Returns := by
  match s with
  | .ready r => exact h r
  | .lazy _ none => exact trivial
  | .lazy .immediately (some s) => exact h s
  | .lazy .later (some _) => exact trivial

lemma proxy_returns {handle : List V → Run V E} {next : Callback V E}
    (hh : ∀ args, (handle args).Returns) (hn : ∀ s, (next s).Returns) (s : Signal V E) :
    (proxy handle next s).Returns := by
  cases s with
  | value args => exact hh args
  | exception e => exact hn _

lemma sequence_returns (i : ℕ) (values : List V) (sources : List (Source V E))
    {next : Callback V E} (h : ∀ s, (next s).Returns) :
    (sequence i values sources next).Returns := by
  induction sources generalizing i values with
  | nil => exact h _
  | cons s rest ih => exact source_returns (proxy_returns (fun _ => ih _ _) h)

lemma proxy_proxy (f g : List V → Run V E) (next : Callback V E) :
    proxy f (proxy g next) = proxy f next := by
  funext s
  cases s <;> rfl

lemma sequence_append (i : ℕ) (values : List V) (l m : List (Source V E))
    (next : Callback V E) :
    sequence i values (l ++ m) next =
      sequence i values l (proxy (fun vs => sequence (i + l.length) vs m next) next) := by
  induction l generalizing i values with
  | nil => rfl
  | cons s rest ih =>
    have hindex : i + 1 + rest.length = i + (s :: rest).length := by
      simp only [List.length_cons]; omega
    simp only [List.cons_append, sequence, ih, proxy_proxy, hindex]

lemma sequence_values (i : ℕ) (values collected : List V) (sources : List (Source V E))
    (next : Callback V E) :
    sequence i (values ++ collected) sources next =
      sequence i collected sources (proxy (fun vs => next (.value (values ++ vs))) next) := by
  induction sources generalizing i collected with
  | nil => rfl
  | cons s rest ih => simp only [sequence, List.append_assoc, ih, proxy_proxy]

lemma thenChain_eq {c : Continuation V E} {handler : List V → Returned V E}
    {next : Callback V E} {handle : List V → Run V E}
    (h : ∀ args, invokerOf next (handler args) = handle args)
    (hr : ∀ args, (handle args).Returns) :
    thenChain c handler next = c (proxy handle next) := by
  have hbody : (fun args => (invokerOf next (handler args)).tryCatch fun e =>
      next (.exception (some e))) = handle := by
    funext args
    rw [h, Task.tryCatch_of_returns (hr args)]
  rw [thenChain, hbody]

lemma invokerOf_tuple {next : Callback V E} (h : ∀ s, (next s).Returns) (vs : List V) :
    invokerOf next (.tuple vs) = next (.value vs) := Task.noexcept_of_returns (h _)

/-- **A tree of the operator is a sequence**: it does what the sequence of its leaves does. -/
theorem Expr.continuation_eq (t : Expr V E) (first : ℕ) {next : Callback V E}
    (h : ∀ s, (next s).Returns) :
    t.continuation first next = sequence first [] t.leaves next := by
  induction t generalizing first next with
  | leaf s =>
    have hnext : proxy (fun vs => sequence (first + 1) ([] ++ vs) [] next) next = next := by
      funext s
      cases s <;> rfl
    rw [Expr.leaves, sequence, hnext, Expr.continuation]
  | connect l r ihl ihr =>
    -- the continuable that the handler of the left operand returns
    have hright : ∀ previous, invokerOf next (.continuable
        (thenChain (r.continuation (first + l.leaves.length)) fun args =>
          .tuple (previous ++ args))) =
        sequence (first + l.leaves.length) previous r.leaves next := by
      intro previous
      have hproxy : ∀ s, (proxy (fun args => next (.value (previous ++ args))) next s).Returns :=
        proxy_returns (fun _ => h _) h
      have htuple : ∀ args, invokerOf next ((fun args => .tuple (previous ++ args)) args) =
          next (.value (previous ++ args)) :=
        fun args => invokerOf_tuple h (previous ++ args)
      have hchain := thenChain_eq (c := r.continuation (first + l.leaves.length)) htuple
        fun _ => h _
      have hseq := sequence_values (first + l.leaves.length) previous [] r.leaves next
      rw [List.append_nil, ← ihr _ hproxy, ← hchain] at hseq
      have hreturns := sequence_returns (first + l.leaves.length) previous r.leaves h
      rw [hseq] at hreturns ⊢
      exact Task.noexcept_of_returns hreturns
    have hreturns : ∀ previous,
        (sequence (first + l.leaves.length) previous r.leaves next).Returns :=
      fun previous => sequence_returns _ previous _ h
    rw [Expr.continuation, sequentialConnect, thenChain_eq hright hreturns,
      ihl _ (proxy_returns hreturns h), Expr.leaves, sequence_append]

lemma sequence_log (i : ℕ) (values : List V) (sources : List (Source V E)) :
    (sequence i values sources fun s => .emit (.called s) .ret).log =
      reference i values (sources.map Source.outcome) := by
  induction sources generalizing i values with
  | nil => rfl
  | cons s rest ih =>
    rw [sequence]
    match s with
    | .ready (.value vs) => simp [source, proxy, Task.log, Source.outcome, reference, ih]
    | .ready (.exception e) => rfl
    | .lazy _ none => rfl
    | .lazy .immediately (some (.value vs)) =>
      simp [source, proxy, Task.log, Source.outcome, reference, ih]
    | .lazy .immediately (some (.exception e)) => rfl
    | .lazy .later (some (.value vs)) =>
      simp [source, proxy, Task.log, Source.outcome, reference, ih]
    | .lazy .later (some (.exception e)) => rfl

/-- **The operator `>>` runs its operands in order**, whatever the parentheses: at any moment the
sources up to some point have been started, each after the one before it resolved with values.
Once nothing is pending, the callback was called with all values, or with the exception of the
source that ended the sequence. -/
theorem invoke_behaves (t : Expr V E) :
    t.invoke.Returns ∧
      (∀ wakes, t.invoke.seen wakes <+: reference 0 [] (t.leaves.map Source.outcome) ∧
        (t.invoke.pending wakes = false →
          t.invoke.seen wakes = reference 0 [] (t.leaves.map Source.outcome))) ∧
      ∀ u : Expr V E, u.leaves = t.leaves → u.invoke = t.invoke := by
  have hinvoke : ∀ u : Expr V E,
      u.invoke = sequence 0 [] u.leaves fun s => .emit (.called s) .ret :=
    fun u => u.continuation_eq 0 fun _ => trivial
  have hlog : t.invoke.log = reference 0 [] (t.leaves.map Source.outcome) := by
    rw [hinvoke, sequence_log]
  refine ⟨?_, fun wakes => ⟨?_, fun h => ?_⟩, fun u hu => ?_⟩
  · rw [hinvoke]
    exact sequence_returns 0 [] t.leaves fun _ => trivial
  · rw [← hlog]
    exact Task.seen_prefix wakes _
  · rw [Task.seen_of_not_pending h, hlog]
  · rw [hinvoke u, hu, ← hinvoke t]

/-- The second of three sources is ready and holds an exception. -/
example : (Expr.connect (.leaf (.lazy .later (some (.value [1, 2]))))
    (.connect (.leaf (.ready (.exception (some 7)))) (.leaf (.ready (.value [3])))) :
      Expr ℕ ℕ).invoke.log =
    [.started 0, .resolved 0 (.value [1, 2]), .started 1, .resolved 1 (.exception (some 7)),
      .called (.exception (some 7))] := rfl

end Continuable.Seq.Operator
