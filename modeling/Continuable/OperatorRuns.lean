import Continuable.OperatorSubmitters

/-!
Running a tree of submitters.

A step keeps up that the tree is in the state that the verdicts of its nodes say, and calls a
callback exactly when a verdict comes in.
-/

namespace Continuable.Operators

variable {C V E : Type}

/-! ### The steps -/

lemma statuses_extends (first : ℕ) (h : History V E) (a : Action V E)
    (members : List (Continuation C)) :
    Extends ((statuses first h members).map Status.verdict)
      ((statuses first (a :: h) members).map Status.verdict) := by
  induction members generalizing first with
  | nil => exact List.Forall₂.nil
  | cons c members ih =>
    refine List.Forall₂.cons ?_ (ih _)
    cases hv : c.verdict first h with
    | none => exact Or.inl rfl
    | some s => exact Or.inr (c.verdict_cons hv a)

lemma statuses_entered {first : ℕ} {h : History V E} {members : List (Continuation C)}
    (hp : first + sizes members < position h) :
    ∀ x ∈ statuses first h members, x.entered = true := by
  induction members generalizing first with
  | nil => simp [statuses]
  | cons c members ih =>
    rw [sizes] at hp
    rw [statuses, List.forall_mem_cons]
    exact ⟨reached_eq_true.2 (by omega), ih (by omega)⟩

lemma absorbed_statuses (s : Strategy) (first : ℕ) (members : List (Continuation C))
    (h : History V E) :
    Absorbed s (reached (first + sizes members) h)
      ((Continuation.finalized s members).verdict first h) (statuses first h members) := by
  rw [Absorbed, settle, statuses_verdicts, Continuation.verdict]
  exact connectionVerdict_absorbs (verdicts_nil first members) h

lemma verdict_finalized_cons (s : Strategy) (first : ℕ) (members : List (Continuation C))
    (a : Action V E) (h : History V E) :
    (Continuation.finalized s members).verdict first (a :: h) =
      settle s (reached (first + sizes members) (a :: h))
        ((Continuation.finalized s members).verdict first h)
        (statuses first (a :: h) members) := by
  rw [settle, statuses_verdicts, Continuation.verdict, connectionVerdict]

lemma verdict_old_or_new (c : Continuation C) (first : ℕ) (h : History V E) (a : Action V E) :
    c.verdict first h = none ∨ c.verdict first (a :: h) = c.verdict first h := by
  cases hv : c.verdict first h with
  | none => exact Or.inl rfl
  | some t => exact Or.inr (c.verdict_cons hv a)

section resolve

variable (i : ℕ) (signal : Signal V E) (h : History V E)

/-- The step of a node, when an operand resolves. -/
def Resolves (c : Continuation C) : Prop :=
  ∀ first, (c.nodeAt first h).resolve i signal =
    (c.nodeAt first (.resolve i signal :: h),
      newly (c.verdict first h) (c.verdict first (.resolve i signal :: h)))

variable {i signal h}

lemma resolveMembers_eq {s : Strategy} {d : Bool} {members : List (Continuation C)}
    (hm : ∀ c ∈ members, Resolves i signal h c) (first : ℕ) (pre : List (Status V E))
    {v : Option (Signal V E)} (ha : Absorbed s d v (pre ++ statuses first h members))
    (he : d = true → ∀ x ∈ pre ++ statuses first h members, x.entered = true) :
    Node.resolveMembers i signal pre.length (nodesAt first h members)
        (submitterAt s v.isSome d (pre ++ statuses first h members)) =
      let l := pre ++ statuses first (.resolve i signal :: h) members
      (nodesAt first (.resolve i signal :: h) members,
        submitterAt s (settle s d v l).isSome d l, newly v (settle s d v l)) := by
  induction members generalizing first pre v with
  | nil =>
    simp only [statuses, List.append_nil] at ha ⊢
    rw [Absorbed] at ha
    simp only [nodesAt, Node.resolveMembers, ha, newly_self]
  | cons c members ih =>
    obtain ⟨hc, hrest⟩ := List.forall_mem_cons.1 hm
    simp only [statuses] at ha he ⊢
    have hon := verdict_old_or_new c first h (.resolve i signal)
    have hentered : c.verdict first h ≠ c.verdict first (.resolve i signal :: h) →
        reached first h = true := by
      intro hne
      by_contra hidle
      have hp := reached_eq_false.1 (eq_false_of_ne_true hidle)
      exact hne (by rw [c.verdict_of_idle hp, c.verdict_of_idle (by simpa using hp)])
    have hreceive := receiveFrom_eq hon hentered ha he
    have hor := settle_settle (reached first h) hon ha
      (statuses_extends (first + c.size) h (.resolve i signal) members)
    have hnext := ih hrest (first + c.size)
      (pre ++ [⟨reached first h, c.verdict first (.resolve i signal :: h)⟩])
      (by rw [List.append_assoc]; exact absorbed_settle (v := v) _)
      (fun hd => by rw [List.append_assoc]; exact entered_replace _ (he hd))
    simp only [List.append_assoc, List.cons_append, List.nil_append, List.length_append,
      List.length_cons, List.length_nil, Nat.zero_add] at hnext
    simp only [nodesAt, Node.resolveMembers, hc first, hreceive, hnext, reached_resolve, hor,
      newly_settle hor]

theorem Continuation.resolve_eq (c : Continuation C) : Resolves i signal h c := by
  induction c with
  | leaf o =>
    intro first
    rw [Continuation.nodeAt, Node.resolve, Continuation.nodeAt, Continuation.verdict,
      leafVerdict, position_resolve, newly_or]
    by_cases hp : position h ≤ first
    · have hv : leafVerdict first h = none := (Continuation.leaf o).verdict_of_idle hp
      simp [phase, hp, hv]
    · have hphase : phase first (position h) ≠ .idle := by
        rw [phase, if_neg hp]
        split_ifs <;> simp
      have hp' : first < position h := by omega
      rcases hv : leafVerdict first h with _ | t
      · by_cases hi : i = first
        · simp [hphase, hi, hp']
        · simp [hi, Ne.symm hi]
      · simp
  | finalized s members ih =>
    intro first
    have ha := absorbed_statuses s first members h
    have hmembers := resolveMembers_eq ih first [] ha
      (fun hd => statuses_entered (reached_eq_true.1 hd))
    simp only [List.nil_append, List.length_nil] at hmembers
    rw [verdict_finalized_cons, Continuation.nodeAt, Node.resolve, hmembers, Continuation.nodeAt,
      verdict_finalized_cons]
    rfl

end resolve

section proceed

variable {h : History V E}

/-- A node that the dispatch has not come to or has left stays as it is. -/
def Stays (h : History V E) (c : Continuation C) : Prop :=
  ∀ first, position h < first ∨ first + c.size < position h →
    c.nodeAt first (.proceed :: h) = c.nodeAt first h

lemma reached_proceed {name : ℕ} (hp : name ≠ position h) :
    reached name (.proceed :: h) = reached name h :=
  decide_eq_decide.2 (by rw [position_proceed]; omega)

lemma members_proceed {members : List (Continuation C)} (hm : ∀ c ∈ members, Stays h c) {first : ℕ}
    (hp : position h < first ∨ first + sizes members < position h) :
    nodesAt first (.proceed :: h) members = nodesAt first h members ∧
      statuses first (.proceed :: h) members = statuses first h members := by
  induction members generalizing first with
  | nil => exact ⟨rfl, rfl⟩
  | cons c members ih =>
    rw [sizes] at hp
    obtain ⟨hc, hrest⟩ := List.forall_mem_cons.1 hm
    have hpc : position h < first ∨ first + c.size < position h := by omega
    obtain ⟨hnodes, hstatuses⟩ := @ih hrest (first + c.size) (by omega)
    simp only [nodesAt, statuses, hc first hpc, c.verdict_proceed hpc, hnodes, hstatuses,
      reached_proceed (show first ≠ position h by omega), and_self]

theorem Continuation.nodeAt_proceed (c : Continuation C) : Stays h c := by
  induction c with
  | leaf =>
    intro first hp
    have hphase : phase first (position h + 1) = phase first (position h) := by
      rw [Continuation.size] at hp
      unfold phase
      split_ifs <;> first | rfl | omega
    rw [Continuation.nodeAt, Continuation.nodeAt, position_proceed, hphase]
    rfl
  | finalized s members ih =>
    intro first hp
    have hverdict := (Continuation.finalized s members).verdict_proceed hp
    rw [Continuation.size] at hp
    obtain ⟨hnodes, hstatuses⟩ := members_proceed ih hp
    simp only [Continuation.nodeAt, hverdict, hnodes, hstatuses,
      reached_proceed (show first ≠ position h by omega),
      reached_proceed (show first + sizes members ≠ position h by omega)]

lemma Continuation.dispatched_nodeAt (c : Continuation C) (first : ℕ) :
    (c.nodeAt first h).dispatched = reached (first + c.size) h := by
  cases c with
  | leaf =>
    rw [Continuation.nodeAt, Node.dispatched, Continuation.size, phase]
    refine decide_eq_decide.2 ?_
    split_ifs <;> simp <;> omega
  | finalized s members => rfl

lemma Continuation.entered_nodeAt (c : Continuation C) (first : ℕ) :
    (c.nodeAt first h).entered = reached first h := by
  cases c with
  | leaf =>
    rw [Continuation.nodeAt, Node.entered, phase]
    refine decide_eq_decide.2 ?_
    split_ifs <;> simp <;> omega
  | finalized s members => rfl

/-- The operand that the dispatch comes to next. -/
def nextOperand (stop : ℕ) (h : History V E) : Option ℕ :=
  if position h < stop then some (position h) else none

/-- The step of a node that the dispatch is at. -/
def Proceeds (h : History V E) (c : Continuation C) : Prop :=
  ∀ first, first ≤ position h → position h ≤ first + c.size →
    (c.nodeAt first h).proceed =
      ⟨c.nodeAt first (.proceed :: h),
        newly (c.verdict first h) (c.verdict first (.proceed :: h)),
        nextOperand (first + c.size) h⟩

lemma createCallback_member (s : Strategy) (called : Bool) (pre post : List (Status V E))
    (c : Continuation C) (first : ℕ) :
    (if (c.nodeAt first h).entered then
        submitterAt s called false (pre ++ ⟨reached first h, c.verdict first h⟩ :: post)
      else (submitterAt s called false
        (pre ++ ⟨reached first h, c.verdict first h⟩ :: post)).createCallback) =
      submitterAt s called false (pre ++ ⟨true, c.verdict first h⟩ :: post) := by
  rw [c.entered_nodeAt]
  cases hp : reached first h with
  | true => rfl
  | false =>
    rw [c.verdict_of_idle (reached_eq_false.1 hp), if_neg (by simp), createCallback_eq]

lemma proceedMembers_eq {s : Strategy} {members : List (Continuation C)}
    (hm : ∀ c ∈ members, Proceeds h c) (first : ℕ) (pre : List (Status V E))
    {v : Option (Signal V E)} (hfirst : first ≤ position h)
    (hlast : position h ≤ first + sizes members)
    (ha : Absorbed s false v (pre ++ statuses first h members)) :
    Node.proceedMembers pre.length (nodesAt first h members)
        (submitterAt s v.isSome false (pre ++ statuses first h members)) =
      let l := pre ++ statuses first (.proceed :: h) members
      ⟨(nodesAt first (.proceed :: h) members, submitterAt s (settle s false v l).isSome false l),
        newly v (settle s false v l), nextOperand (first + sizes members) h⟩ := by
  induction members generalizing first pre v with
  | nil =>
    rw [sizes] at hlast
    simp only [statuses, List.append_nil] at ha ⊢
    rw [Absorbed] at ha
    simp only [nodesAt, Node.proceedMembers, sizes, ha, newly_self]
    rw [nextOperand, if_neg (by omega)]
  | cons c members ih =>
    obtain ⟨hc, hrest⟩ := List.forall_mem_cons.1 hm
    rw [sizes] at hlast
    simp only [statuses] at ha ⊢
    have hsum : first + c.size + sizes members = first + (c.size + sizes members) := by omega
    by_cases hleft : first + c.size < position h
    · -- the dispatch has left the member
      have hnext := ih hrest (first + c.size) (pre ++ [⟨reached first h, c.verdict first h⟩])
        (by omega) (by omega) (by rw [List.append_assoc]; exact ha)
      simp only [List.append_assoc, List.cons_append, List.nil_append, List.length_append,
        List.length_cons, List.length_nil, Nat.zero_add] at hnext
      have hdispatched : (c.nodeAt first h).dispatched = true := by
        rw [c.dispatched_nodeAt, reached_eq_true.2 hleft]
      simp only [nodesAt, Node.proceedMembers, hdispatched, if_true, hnext,
        c.nodeAt_proceed first (Or.inr hleft), c.verdict_proceed (Or.inr hleft),
        reached_proceed (show first ≠ position h by omega), sizes, hsum]
    · have hdispatched : (c.nodeAt first h).dispatched = false := by
        rw [c.dispatched_nodeAt, reached_eq_false.2 (by omega)]
      have hon := verdict_old_or_new c first h .proceed
      have ha' : Absorbed s false v
          (pre ++ ⟨true, c.verdict first h⟩ :: statuses (first + c.size) h members) := by
        rw [Absorbed, settle, List.map_append, List.map_cons] at ha ⊢
        exact ha
      have hentered : c.verdict first h ≠ c.verdict first (.proceed :: h) → true = true :=
        fun _ => rfl
      have hreceive := receiveFrom_eq hon hentered ha' (by simp)
      have hreached : reached first (.proceed :: h) = true :=
        reached_eq_true.2 (by rw [position_proceed]; omega)
      by_cases hin : position h < first + c.size
      · -- it starts one of the operands of the member
        have hstays : ∀ c ∈ members, Stays h c := fun c _ => c.nodeAt_proceed
        obtain ⟨hnodes, hstatuses⟩ := members_proceed hstays (Or.inl hin)
        have hoperand : nextOperand (first + c.size) h = some (position h) := if_pos hin
        have hoperand' : nextOperand (first + (c.size + sizes members)) h = some (position h) :=
          if_pos (by omega)
        simp only [nodesAt, Node.proceedMembers, hdispatched, createCallback_member,
          hc first hfirst (by omega), hreceive, hoperand, hnodes, hstatuses, hreached, sizes,
          hoperand']
        rfl
      · -- the member returns, and the dispatch goes on behind it
        have hnext := ih hrest (first + c.size)
          (pre ++ [⟨true, c.verdict first (.proceed :: h)⟩]) (by omega) (by omega)
          (by rw [List.append_assoc]; exact absorbed_settle (v := v) _)
        have hor := settle_settle true hon ha'
          (statuses_extends (first + c.size) h .proceed members)
        simp only [List.append_assoc, List.cons_append, List.nil_append, List.length_append,
          List.length_cons, List.length_nil, Nat.zero_add] at hnext
        have hoperand : nextOperand (first + c.size) h = none := if_neg hin
        simp only [nodesAt, Node.proceedMembers, hdispatched, createCallback_member,
          hc first hfirst (by omega), hreceive, hoperand, hnext, hor, newly_settle hor, hreached,
          sizes, hsum]
        rfl

lemma newly_accept {s : Strategy} {v : Option (Signal V E)} {l : List (Status V E)} :
    settle s true (settle s false v l) l = settle s true v l := by
  cases v with
  | some t => rfl
  | none =>
    simp only [settle, Option.none_or]
    cases s with
    | any => exact Option.or_self
    | all =>
      simp only [combine, Option.or_none, Bool.false_eq_true, if_false]
      cases firstException (l.map Status.verdict) <;> rfl

lemma phase_self (name : ℕ) : phase name name = .idle := if_pos (Nat.le_refl name)

lemma phase_entered (name : ℕ) : phase name (name + 1) = .running := by
  rw [phase, if_neg (by omega), if_pos rfl]

lemma phase_returned (name : ℕ) : phase name (name + 1 + 1) = .returned := by
  rw [phase, if_neg (by omega), if_neg (by omega)]

theorem Continuation.proceed_eq (c : Continuation C) : Proceeds h c := by
  induction c with
  | leaf =>
    intro first hfirst hlast
    rw [Continuation.size] at hlast ⊢
    have hp : position h = first ∨ position h = first + 1 := by omega
    rcases hp with hp | hp
    · simp only [Continuation.nodeAt, Continuation.verdict, leafVerdict, position_proceed, hp,
        phase_self, phase_entered, Node.proceed, nextOperand, newly_self]
      rw [if_pos (Nat.lt_add_one first)]
    · simp only [Continuation.nodeAt, Continuation.verdict, leafVerdict, position_proceed, hp,
        phase_entered, phase_returned, Node.proceed, nextOperand, newly_self]
      rw [if_neg (Nat.lt_irrefl _)]
  | finalized s members ih =>
    intro first hfirst hlast
    have ha := absorbed_statuses s first members h
    rw [Continuation.size] at hlast ⊢
    rw [reached_eq_false.2 hlast] at ha
    have hmembers := proceedMembers_eq ih first [] hfirst hlast ha
    simp only [List.nil_append, List.length_nil] at hmembers
    have hreached : reached first (.proceed :: h) = true :=
      reached_eq_true.2 (by rw [position_proceed]; omega)
    rw [verdict_finalized_cons, Continuation.nodeAt, Node.proceed, reached_eq_false.2 hlast,
      hmembers, Continuation.nodeAt, verdict_finalized_cons, hreached]
    by_cases hin : position h < first + sizes members
    · have hdispatched : reached (first + sizes members) (.proceed :: h) = false :=
        reached_eq_false.2 (by rw [position_proceed]; omega)
      simp only [nextOperand, if_pos hin, hdispatched]
    · -- the dispatch returns
      have hdispatched : reached (first + sizes members) (.proceed :: h) = true :=
        reached_eq_true.2 (by rw [position_proceed]; omega)
      have haccept := accept_eq (absorbed_settle (s := s) (d := false)
        (v := (Continuation.finalized s members).verdict first h)
        (statuses first (.proceed :: h) members))
        (statuses_entered (reached_eq_true.1 hdispatched))
      simp only [nextOperand, if_neg hin, haccept, newly_accept, newly_settle newly_accept,
        hdispatched]

end proceed

end Continuable.Operators
