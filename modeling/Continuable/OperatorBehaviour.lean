import Continuable.OperatorMerging

/-!
Runs of expressions over `&&` and `||`.

The operands start from left to right, the downstream callback is called at most once, and what is
seen of a run is the same as if every operand were materialized before the next operator is
applied.
-/

namespace Continuable.Operators

variable {C V E : Type}

/-! ### What is started and called -/

def Event.name? : Event V E → Option ℕ
  | .started name => some name
  | .called _ => none

def Event.signal? : Event V E → Option (Signal V E)
  | .started _ => none
  | .called signal => some signal

/-- The operands that are started, in order. -/
def started (l : List (List (Event V E))) : List ℕ := l.flatten.filterMap Event.name?

/-- What the downstream callback is called with. -/
def called (l : List (List (Event V E))) : List (Signal V E) := l.flatten.filterMap Event.signal?

lemma events_name (signal : Option (Signal V E)) (name : Option ℕ) :
    (events signal name).filterMap Event.name? = name.toList := by
  cases signal <;> cases name <;> rfl

lemma events_signal (signal : Option (Signal V E)) (name : Option ℕ) :
    (events signal name).filterMap Event.signal? = signal.toList := by
  cases signal <;> cases name <;> rfl

lemma started_observe (size : ℕ) (v : History V E → Option (Signal V E)) (h : History V E)
    (schedule : List (Action V E)) :
    ∃ n, started (observe size v h schedule) = List.range' (position h) n ∧
      (n = 0 ∨ position h + n ≤ size) := by
  induction schedule generalizing h with
  | nil => exact ⟨0, rfl, Or.inl rfl⟩
  | cons a schedule ih =>
    obtain ⟨n, hn, hsize⟩ := ih (a :: h)
    rw [started] at hn
    rw [observe, started, List.flatten_cons, List.filterMap_append, hn]
    unfold seen
    rw [events_name]
    cases a with
    | resolve i signal => exact ⟨n, by simp, by simpa using hsize⟩
    | proceed =>
      rw [position_proceed] at hsize ⊢
      by_cases hp : position h < size
      · refine ⟨n + 1, ?_, Or.inr (by omega)⟩
        rw [nextOperand, if_pos hp, List.range'_succ]
        rfl
      · obtain rfl : n = 0 := by omega
        refine ⟨0, ?_, Or.inl rfl⟩
        rw [nextOperand, if_neg hp]
        rfl

lemma called_observe (size : ℕ) {v : History V E → Option (Signal V E)} (hv : Final v)
    (h : History V E) (schedule : List (Action V E)) :
    (called (observe size v h schedule)).length + (v h).toList.length ≤ 1 := by
  induction schedule generalizing h with
  | nil => cases v h <;> simp [observe, called]
  | cons a schedule ih =>
    have hrest := ih (a :: h)
    rw [called] at hrest
    rw [observe, called, List.flatten_cons, List.filterMap_append, List.length_append]
    unfold seen
    rw [events_signal]
    rcases hv.stays h a with hnone | hstays
    · rw [hnone, newly, Option.toList_none, List.length_nil]
      omega
    · rw [hstays] at hrest ⊢
      rw [newly_self, Option.toList_none, List.length_nil]
      omega

/-! ### Expressions -/

lemma length_allOperands {members : List (Continuation C)}
    (hm : ∀ c ∈ members, c.operands.length = c.size) :
    (allOperands members).length = sizes members := by
  induction members with
  | nil => rfl
  | cons c members ih =>
    obtain ⟨hc, hrest⟩ := List.forall_mem_cons.1 hm
    rw [allOperands, sizes, List.length_append, hc, ih hrest]

lemma Continuation.length_operands (c : Continuation C) : c.operands.length = c.size := by
  induction c with
  | leaf o => rfl
  | finalized s members ih =>
    rw [Continuation.operands, Continuation.size, length_allOperands ih]

lemma Expr.run_merged (e : Expr C) (schedule : List (Action V E)) :
    (finish e.merged).run schedule = (finish e.unmerged).run schedule := by
  obtain ⟨hsize, -, -, hverdict⟩ := e.merged_unmerged (V := V) (E := E)
  rw [Continuation.run_eq, Continuation.run_eq, hsize, hverdict 0]

lemma Continuation.started_run (c : Continuation C) (schedule : List (Action V E)) :
    ∃ n ≤ c.operands.length, started (c.run schedule) = List.range n := by
  obtain ⟨n, hn, hsize⟩ := started_observe c.size (c.verdict 0) [] schedule
  rw [position_nil] at hn hsize
  refine ⟨n, ?_, by rw [c.run_eq, hn, List.range_eq_range']⟩
  rw [c.length_operands]
  omega

lemma Continuation.called_run (c : Continuation C) (schedule : List (Action V E)) :
    (called (c.run schedule)).length ≤ 1 := by
  have hlength := called_observe c.size (c.final_verdict 0) [] schedule
  rw [← c.run_eq] at hlength
  omega

lemma connect_assoc (s : Strategy) (x y z : Connectable C) :
    connect s (connect s x y) z = connect s x (connect s y z) := by
  have hnormalize : ∀ l : List (Continuation C), normalize s (.connection s l) = l :=
    fun l => if_pos rfl
  rw [connect, connect, connect, connect, hnormalize, hnormalize, List.append_assoc]

lemma normalize_of_ne {s t : Strategy} (hst : s ≠ t) (x y : Connectable C) :
    normalize s (connect t x y) = normalize s (.plain (finish (connect t x y))) :=
  if_neg (Ne.symm hst)

/-- What the operators build behaves like the expression with every operand materialized: the
operands are the same and start from left to right, and the downstream callback is called with the
same signal in the same step. Both operators are associative, and an operand with the other
strategy is kept together. -/
theorem merged_behaves :
    (∀ (e : Expr C) (schedule : List (Action V E)),
      (finish e.merged).operands = e.operands ∧ (finish e.unmerged).operands = e.operands ∧
        (finish e.merged).run schedule = (finish e.unmerged).run schedule ∧
        (∃ n ≤ e.operands.length,
          started ((finish e.merged).run schedule) = List.range n) ∧
        (called ((finish e.merged).run schedule)).length ≤ 1) ∧
    (∀ (s : Strategy) (a b c : Expr C) (schedule : List (Action V E)),
      (finish (Expr.connect s (.connect s a b) c).merged).run schedule =
        (finish (Expr.connect s a (.connect s b c)).merged).run schedule) ∧
    ∀ (s t : Strategy) (a b c : Expr C), s ≠ t →
      (Expr.connect s a (.connect t b c)).merged =
          connect s a.merged (.plain (finish (Expr.connect t b c).merged)) ∧
        (Expr.connect s (.connect t a b) c).merged =
          connect s (.plain (finish (Expr.connect t a b).merged)) c.merged := by
  refine ⟨fun e schedule => ?_, fun s a b c schedule => ?_, fun s t a b c hst => ⟨?_, ?_⟩⟩
  · obtain ⟨-, hmerged, hunmerged, -⟩ := e.merged_unmerged (V := V) (E := E)
    refine ⟨hmerged, hunmerged, e.run_merged schedule, ?_, (finish e.merged).called_run schedule⟩
    rw [← hmerged]
    exact (finish e.merged).started_run schedule
  · rw [Expr.merged, Expr.merged, Expr.merged, Expr.merged, connect_assoc]
  · rw [Expr.merged, Expr.merged, connect, normalize_of_ne hst]
    rfl
  · rw [Expr.merged, Expr.merged, connect, normalize_of_ne hst]
    rfl

end Continuable.Operators
