import Continuable.OperatorRuns

/-!
Merging operands of the same strategy.

What is seen of a run depends on the verdict of the continuable alone, and the verdict of a
connection does not change when a member that is a connection with the same strategy is replaced
by its own members.
-/

namespace Continuable.Operators

variable {C V E : Type}

/-! ### What is seen -/

lemma statuses_nil (first : ℕ) (members : List (Continuation C)) :
    (statuses first [] members : List (Status V E)) = members.map fun _ => ⟨false, none⟩ := by
  induction members generalizing first with
  | nil => rfl
  | cons c members ih =>
    have hv : c.verdict first ([] : History V E) = none := c.verdict_of_idle (Nat.zero_le _)
    have hp : reached first ([] : History V E) = false := reached_eq_false.2 (Nat.zero_le _)
    rw [statuses, List.map_cons, ih, hv, hp]

lemma submitterAt_nil (s : Strategy) (first : ℕ) (members : List (Continuation C)) :
    submitterAt s false false (statuses first [] members) =
      (⟨s, 1, false, members.map fun _ => []⟩ : Submitter V E) := by
  have hcount : (members.map fun _ => (⟨false, none⟩ : Status V E)).countP Status.outstanding
      = 0 := by
    rw [List.countP_map, List.countP_eq_zero]
    exact fun _ _ => Bool.noConfusion
  rw [statuses_nil]
  cases s with
  | any => simp [submitterAt]
  | all =>
    simp only [submitterAt, hcount, List.map_map]
    rfl

lemma nodes_eq {members : List (Continuation C)}
    (hm : ∀ c ∈ members, ∀ first, (c.node first : Node V E) = c.nodeAt first []) (first : ℕ) :
    (nodes first members : List (Node V E)) = nodesAt first [] members := by
  induction members generalizing first with
  | nil => rfl
  | cons c members ih =>
    obtain ⟨hc, hrest⟩ := List.forall_mem_cons.1 hm
    rw [nodes, nodesAt, hc, ih hrest]

lemma Continuation.node_eq (c : Continuation C) (first : ℕ) :
    (c.node first : Node V E) = c.nodeAt first [] := by
  induction c generalizing first with
  | leaf o => rfl
  | finalized s members ih =>
    have hverdict : (Continuation.finalized s members).verdict first ([] : History V E) = none :=
      rfl
    rw [Continuation.node, Continuation.nodeAt, nodes_eq (fun c hc => ih c hc), hverdict,
      reached_eq_false.2 (Nat.zero_le _), reached_eq_false.2 (Nat.zero_le _), Option.isSome_none,
      submitterAt_nil]

/-- What is seen of a step. -/
def seen (size : ℕ) (v : History V E → Option (Signal V E)) (h : History V E) (a : Action V E) :
    List (Event V E) :=
  events (newly (v h) (v (a :: h)))
    (match a with
    | .proceed => nextOperand size h
    | .resolve _ _ => none)

/-- What is seen of a run. -/
def observe (size : ℕ) (v : History V E → Option (Signal V E)) (h : History V E) :
    List (Action V E) → List (List (Event V E))
  | [] => []
  | a :: schedule => seen size v h a :: observe size v (a :: h) schedule

theorem Continuation.step_eq (c : Continuation C) (h : History V E) (a : Action V E) :
    step (c.nodeAt 0 h) a = (c.nodeAt 0 (a :: h), seen c.size (c.verdict 0) h a) := by
  cases a with
  | resolve i signal => rw [step, c.resolve_eq 0, seen]
  | proceed =>
    rw [step, c.dispatched_nodeAt, Nat.zero_add]
    cases hp : reached c.size h with
    | true =>
      -- the dispatch has returned
      have hleft : position h < 0 ∨ 0 + c.size < position h := by
        rw [Nat.zero_add]
        exact Or.inr (reached_eq_true.1 hp)
      have hoperand : nextOperand c.size h = none := by
        have := reached_eq_true.1 hp
        exact if_neg (by omega)
      rw [if_pos rfl, c.nodeAt_proceed 0 hleft, seen, c.verdict_proceed hleft, newly_self, hoperand]
      rfl
    | false =>
      have hproceed := c.proceed_eq (h := h) 0 (Nat.zero_le _)
        (by rw [Nat.zero_add]; exact reached_eq_false.1 hp)
      rw [if_neg (by simp), hproceed, Nat.zero_add, seen]

theorem Continuation.run_eq (c : Continuation C) (schedule : List (Action V E)) :
    c.run schedule = observe c.size (c.verdict 0) [] schedule := by
  have hrun : ∀ h : History V E,
      Operators.run (c.nodeAt 0 h) schedule = observe c.size (c.verdict 0) h schedule := by
    induction schedule with
    | nil => exact fun h => rfl
    | cons a schedule ih =>
      intro h
      rw [Operators.run, observe, c.step_eq, ih]
  rw [Continuation.run, c.node_eq, hrun]

/-! ### The members of a member -/

/-- The verdict of a node: none at first, and final once it has come in. -/
structure Final (v : History V E → Option (Signal V E)) : Prop where
  nil : v [] = none
  stays : ∀ h a, v h = none ∨ v (a :: h) = v h

lemma Continuation.final_verdict (c : Continuation C) (first : ℕ) :
    Final (c.verdict first : History V E → Option (Signal V E)) :=
  ⟨c.verdict_of_idle (Nat.zero_le _), fun h a => verdict_old_or_new c first h a⟩

lemma final_verdicts (first : ℕ) (members : List (Continuation C)) :
    ∀ v ∈ verdicts first members, Final (v : History V E → Option (Signal V E)) := by
  intro v hv
  obtain ⟨c, -, k, -, -, rfl⟩ := mem_verdicts hv
  exact c.final_verdict k

lemma firstException_isException {l : List (Option (Signal V E))} {r : Signal V E}
    (h : firstException l = some r) : ∃ e, r = .exception e := by
  induction l with
  | nil => cases h
  | cons o l ih =>
    rcases o with _ | ⟨vs | e⟩
    · exact ih h
    · exact ih h
    · exact ⟨e, (Option.some.inj h).symm⟩

lemma firstException_of_allValues {l : List (Option (Signal V E))} {vs : List V}
    (h : allValues l = some vs) : firstException l = none := by
  induction l generalizing vs with
  | nil => rfl
  | cons o l ih =>
    rcases o with _ | ⟨ws | e⟩
    · cases h
    · rw [allValues, Option.map_eq_some_iff] at h
      obtain ⟨us, hus, -⟩ := h
      exact ih hus
    · cases h

/-- The verdict of a member that is a connection counts like the verdicts of its members. -/
lemma combine_flat {s : Strategy} {d d' : Bool} (hd : d = true → d' = true)
    (pre mid post : List (Option (Signal V E))) :
    combine s d (pre ++ combine s d' mid :: post) = combine s d (pre ++ (mid ++ post)) := by
  cases s with
  | any =>
    have hhead : firstResolved (firstResolved mid :: post) =
        (firstResolved mid).or (firstResolved post) := by
      cases firstResolved mid <;> rfl
    simp only [combine, firstResolved_append, hhead]
  | all =>
    cases hexc : firstException mid with
    | some r =>
      -- the exception is passed on through both levels
      obtain ⟨e, rfl⟩ := firstException_isException hexc
      have hmid : combine .all d' mid = some (.exception e) := by rw [combine, hexc, Option.some_or]
      rw [hmid]
      simp only [combine, firstException_append, firstException, hexc, Option.some_or]
      cases firstException pre <;> rfl
    | none =>
      have hmid : combine .all d' mid = if d' then (allValues mid).map .value else none := by
        rw [combine, hexc, Option.none_or]
      have hexc' : firstException (combine .all d' mid :: post) = firstException post := by
        rw [hmid]
        cases d' <;> cases allValues mid <;> rfl
      have hvalues : d = true → allValues (combine .all d' mid :: post) =
          allValues (mid ++ post) := by
        intro h
        rw [hmid, hd h, if_pos rfl, allValues_append]
        cases allValues mid <;> rfl
      have hall : (if d then (allValues (pre ++ combine .all d' mid :: post)).map Signal.value
          else none : Option (Signal V E)) =
          if d then (allValues (pre ++ (mid ++ post))).map Signal.value else none := by
        cases d with
        | false => rfl
        | true => rw [allValues_append, hvalues rfl, ← allValues_append]
      generalize combine .all d' mid = x at hexc' hall ⊢
      rw [combine, combine, hall, firstException_append, firstException_append, hexc',
        firstException_append, hexc, Option.none_or]

section merge

variable {s : Strategy} {stop stop' : ℕ}
  {pre mid post : List (History V E → Option (Signal V E))}

lemma extends_of_final (hm : ∀ v ∈ mid, Final v) (h : History V E) (a : Action V E) :
    Extends (mid.map fun v => v h) (mid.map fun v => v (a :: h)) := by
  induction mid with
  | nil => exact List.Forall₂.nil
  | cons v mid ih =>
    obtain ⟨hv, hrest⟩ := List.forall_mem_cons.1 hm
    exact List.Forall₂.cons (hv.stays h a) (ih hrest)

lemma reached_cons {name : ℕ} {h : History V E} (hp : reached name h = true)
    (a : Action V E) : reached name (a :: h) = true := by
  rw [reached_eq_true] at hp ⊢
  cases a with
  | proceed => rw [position_proceed]; omega
  | resolve i signal => exact hp

lemma combine_of_value (hm : ∀ v ∈ mid, Final v) {h : History V E} {vs : List V}
    (hv : connectionVerdict .all stop mid h = some (.value vs)) :
    reached stop h = true ∧ allValues (mid.map fun v => v h) = some vs := by
  induction h with
  | nil => cases hv
  | cons a h ih =>
    rw [connectionVerdict, Option.or_eq_some_iff] at hv
    rcases hv with hv | ⟨-, hv⟩
    · obtain ⟨hp, hvalues⟩ := ih hv
      rw [eq_of_allValues hvalues (extends_of_final hm h a)]
      exact ⟨reached_cons hp a, hvalues⟩
    · rw [combine, Option.or_eq_some_iff] at hv
      rcases hv with hv | ⟨-, hv⟩
      · obtain ⟨e, he⟩ := firstException_isException hv
        cases he
      · cases hp : reached stop (a :: h) with
        | false => simp [hp] at hv
        | true => simpa [hp] using hv

lemma connectionVerdict_eq_combine (hm : ∀ v ∈ mid, Final v) (h : History V E) (a : Action V E)
    {l : List (Option (Signal V E))} {d : Bool} {before : List (Option (Signal V E))}
    (hnone : combine s d (before ++ connectionVerdict s stop' mid h :: l) = none) :
    connectionVerdict s stop' mid (a :: h) =
      combine s (reached stop' (a :: h)) (mid.map fun v => v (a :: h)) := by
  cases hv : connectionVerdict s stop' mid h with
  | none => rw [connectionVerdict, hv, Option.none_or]
  | some r =>
    rw [hv] at hnone
    cases s with
    | any =>
      rw [combine, firstResolved_append, Option.or_eq_none_iff] at hnone
      cases hnone.2
    | all =>
      cases r with
      | exception e =>
        rw [combine, firstException_append, Option.or_eq_none_iff, Option.or_eq_none_iff] at hnone
        cases hnone.1.2
      | value vs =>
        obtain ⟨hp, hvalues⟩ := combine_of_value hm hv
        have hstays : connectionVerdict .all stop' mid (a :: h) = some (.value vs) := by
          rw [connectionVerdict, hv, Option.some_or]
        rw [hstays, eq_of_allValues hvalues (extends_of_final hm h a), reached_cons hp a, combine,
          firstException_of_allValues hvalues, hvalues]
        rfl

/-- **Merging.** The members of a member with the same strategy take its place. -/
theorem connectionVerdict_merge (hstop : stop' ≤ stop) (hpre : ∀ v ∈ pre, Final v)
    (hm : ∀ v ∈ mid, Final v) (hpost : ∀ v ∈ post, Final v) :
    connectionVerdict s stop (pre ++ connectionVerdict s stop' mid :: post) =
      connectionVerdict s stop (pre ++ (mid ++ post)) := by
  funext h
  induction h with
  | nil => rfl
  | cons a h ih =>
    rw [connectionVerdict, connectionVerdict, ih]
    cases hv : connectionVerdict s stop (pre ++ (mid ++ post)) h with
    | some r => rfl
    | none =>
      have hnil : ∀ v ∈ pre ++ connectionVerdict s stop' mid :: post, v [] = none := by
        intro v hv
        simp only [List.mem_append, List.mem_cons] at hv
        rcases hv with hv | rfl | hv
        · exact (hpre v hv).nil
        · rfl
        · exact (hpost v hv).nil
      have hnone : combine s (reached stop h)
          ((pre ++ connectionVerdict s stop' mid :: post).map fun v => v h) = none := by
        have habsorbs : (connectionVerdict s stop _ h).or (combine s (reached stop h) _) = _ :=
          connectionVerdict_absorbs hnil h
        rw [ih, hv, Option.none_or] at habsorbs
        exact habsorbs
      have hreached : reached stop (a :: h) = true → reached stop' (a :: h) = true := by
        simp only [reached_eq_true]
        omega
      simp only [List.map_append, List.map_cons] at hnone ⊢
      rw [connectionVerdict_eq_combine hm h a hnone, combine_flat hreached]

end merge

/-! ### Expressions -/

lemma sizes_append (l m : List (Continuation C)) : sizes (l ++ m) = sizes l + sizes m := by
  induction l with
  | nil => rw [List.nil_append, sizes, Nat.zero_add]
  | cons c l ih => rw [List.cons_append, sizes, sizes, ih, Nat.add_assoc]

lemma verdicts_append (first : ℕ) (l m : List (Continuation C)) :
    (verdicts first (l ++ m) : List (History V E → Option (Signal V E))) =
      verdicts first l ++ verdicts (first + sizes l) m := by
  induction l generalizing first with
  | nil => rfl
  | cons c l ih => rw [List.cons_append, verdicts, verdicts, ih, sizes, Nat.add_assoc]; rfl

lemma allOperands_append (l m : List (Continuation C)) :
    allOperands (l ++ m) = allOperands l ++ allOperands m := by
  induction l with
  | nil => rfl
  | cons c l ih => rw [List.cons_append, allOperands, allOperands, ih, List.append_assoc]

lemma sizes_normalize (s : Strategy) (x : Connectable C) :
    sizes (normalize s x) = (finish x).size := by
  cases x with
  | plain c => rw [normalize, finish, sizes, sizes, Nat.add_zero]
  | connection t members =>
    rw [normalize, finish, Continuation.size]
    split_ifs
    · rfl
    · rw [sizes, sizes, Continuation.size, Nat.add_zero]

lemma operands_normalize (s : Strategy) (x : Connectable C) :
    allOperands (normalize s x) = (finish x).operands := by
  cases x with
  | plain c => rw [normalize, finish, allOperands, allOperands, List.append_nil]
  | connection t members =>
    rw [normalize, finish, Continuation.operands]
    split_ifs
    · rfl
    · rw [allOperands, allOperands, Continuation.operands, List.append_nil]

lemma verdict_normalize (s : Strategy) {first stop : ℕ} (x : Connectable C)
    (hstop : first + (finish x).size ≤ stop)
    (pre post : List (History V E → Option (Signal V E))) (hpre : ∀ v ∈ pre, Final v)
    (hpost : ∀ v ∈ post, Final v) :
    connectionVerdict s stop (pre ++ (finish x).verdict first :: post) =
      connectionVerdict s stop (pre ++ (verdicts first (normalize s x) ++ post)) := by
  cases x with
  | plain c => rfl
  | connection t members =>
    rw [normalize]
    split_ifs with ht
    · subst ht
      rw [finish, Continuation.verdict]
      exact connectionVerdict_merge hstop hpre (final_verdicts first members) hpost
    · rfl

lemma finish_connect (s : Strategy) (x y : Connectable C) :
    (finish (connect s x y)).size = (finish x).size + (finish y).size ∧
      (finish (connect s x y)).operands = (finish x).operands ++ (finish y).operands := by
  rw [connect, finish, Continuation.size, Continuation.operands, sizes_append,
    allOperands_append]
  simp only [sizes_normalize, operands_normalize, and_self]

lemma verdict_connect (s : Strategy) (x y : Connectable C) (first : ℕ) :
    ((finish (connect s x y)).verdict first : History V E → Option (Signal V E)) =
      connectionVerdict s (first + ((finish x).size + (finish y).size))
        [(finish x).verdict first, (finish y).verdict (first + (finish x).size)] := by
  have hy : ∀ v ∈ [(finish y).verdict (first + (finish x).size)],
      Final (v : History V E → Option (Signal V E)) := by
    intro v hv
    rw [List.mem_singleton.1 hv]
    exact (finish y).final_verdict _
  have hxstop : first + (finish x).size ≤ first + ((finish x).size + (finish y).size) := by omega
  have hystop : first + (finish x).size + (finish y).size ≤
      first + ((finish x).size + (finish y).size) := by omega
  have hleft := verdict_normalize s x hxstop [] _ (by simp) hy
  have hright := verdict_normalize (V := V) (E := E) s y hystop _ []
    (final_verdicts first (normalize s x)) (by simp)
  rw [List.nil_append, List.nil_append] at hleft
  rw [hleft, hright, List.append_nil, connect, finish, Continuation.verdict, sizes_append,
    verdicts_append, sizes_normalize, sizes_normalize]

lemma Expr.merged_unmerged (e : Expr C) :
    (finish e.merged).size = (finish e.unmerged).size ∧
      (finish e.merged).operands = e.operands ∧ (finish e.unmerged).operands = e.operands ∧
      ∀ first, ((finish e.merged).verdict first : History V E → Option (Signal V E)) =
        (finish e.unmerged).verdict first := by
  induction e with
  | leaf o => exact ⟨rfl, rfl, rfl, fun _ => rfl⟩
  | connect s l r hl hr =>
    obtain ⟨hlsize, hlmerged, hlunmerged, hlverdict⟩ := hl
    obtain ⟨hrsize, hrmerged, hrunmerged, hrverdict⟩ := hr
    have hmerged := finish_connect s l.merged r.merged
    have hunmerged := finish_connect s (.plain (finish l.unmerged)) (.plain (finish r.unmerged))
    rw [Expr.merged, Expr.unmerged, hmerged.1, hmerged.2, hunmerged.1, hunmerged.2]
    refine ⟨by rw [hlsize, hrsize]; rfl, by rw [hlmerged, hrmerged]; rfl,
      by rw [finish, finish, hlunmerged, hrunmerged]; rfl, fun first => ?_⟩
    rw [verdict_connect, verdict_connect, hlsize, hrsize, hlverdict, hrverdict]
    rfl

end Continuable.Operators
