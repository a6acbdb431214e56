import Continuable.SeqConnection

/-!
When a sequential connection does what a sequence of continuables should do.

The traversal is a resumable loop over the boxes, whose log settles box by box to what the
reference says, until a ready continuable is unpacked that holds an exception.
-/

namespace Continuable.Seq

open Traversal ResumableLoop

variable {V E : Type}

lemma behaviour_append (l m : List (Event V E)) :
    behaviour (l ++ m) = behaviour l ++ behaviour m := List.map_append

section settling

variable (garbage : ℕ → List V)

lemma acceptedLeaves_slots (slots : List (Slot V E)) :
    acceptedLeaves isContinuableBox (slots.map .leaf) = slots.filter isContinuableBox := by
  induction slots with
  | nil => rfl
  | cons s rest ih =>
    simp only [List.map_cons, acceptedLeaves, Pack.accepted, ih, List.filter_cons]
    split_ifs <;> rfl

lemma length_boxContinuables (i : ℕ) (args : List (Arg V E)) :
    (boxContinuables i args).length = args.length := by
  induction args generalizing i with
  | nil => rfl
  | cons a rest ih => simp [boxContinuables, ih]

lemma unboxContinuables_update (boxes : ℕ → List V) (i : ℕ) (vs : List V)
    (pre : List (Slot V E)) (hpre : ∀ s ∈ pre, s.position < i) :
    unboxContinuables (Function.update boxes i vs) pre = unboxContinuables boxes pre := by
  unfold unboxContinuables
  refine List.flatMap_congr fun s hs => ?_
  have hne : s.position ≠ i := Nat.ne_of_lt (hpre s hs)
  cases s.arg with
  | plain v => rfl
  | continuable m => exact Function.update_of_ne hne vs boxes

lemma records (head : List (Slot V E)) :
    (sequentialDispatchVisitor garbage head).toBody.Records fun d => behaviour d.log := by
  have hemit : ∀ (d : Data V E) e, behaviour d.log <+: behaviour (d.emit e).log := fun d e => by
    rw [Data.emit, behaviour_append]; exact List.prefix_append _ _
  have hassign : ∀ (d : Data V E) i vs, behaviour d.log <+: behaviour (d.assign i vs).log :=
    fun d i vs => hemit d (.assigned i vs)
  have hresolve : ∀ s (d : Data V E) o, behaviour d.log <+: behaviour (resolveBox s d o).2.log := by
    rintro s d (_ | ⟨vs | e⟩)
    · exact List.prefix_rfl
    · exact hassign d s.position vs
    · exact hemit d _
  refine ⟨?_, ?_, ?_, fun d => hemit d _, fun _ _ => rfl⟩
  · rintro ⟨i, v | ⟨n, r | ⟨t, o⟩, hfits⟩⟩ d
    · exact List.prefix_rfl
    · refine (hemit d (.unpacked i)).trans ?_
      cases r with
      | value vs => exact hassign _ i vs
      | exception e =>
        simp only [sequentialDispatchVisitor, visitBox, unpackInto]
        split_ifs
        · exact hassign _ i []
        · exact (hemit _ (.readException i)).trans (hassign _ i _)
    · exact List.prefix_rfl
  · rintro ⟨i, v | ⟨n, r | ⟨t, o⟩, hfits⟩⟩ d
    · exact List.prefix_rfl
    · exact List.prefix_rfl
    · cases t with
      | immediately => exact (hemit d (.started i)).trans (hresolve _ _ o)
      | later => exact hemit d (.started i)
  · rintro ⟨i, v | m⟩ d
    · exact List.prefix_rfl
    · exact hresolve _ d _

lemma settled_values (head rest : List (Slot V E)) (i : ℕ) (m : Member V E) (vs : List V)
    (d : Data V E) (hm : m.source.outcome = some (.value vs)) :
    ∃ d' : Data V E,
      (sequentialDispatchVisitor garbage head).settled (⟨i, .continuable m⟩ :: rest) d =
        (sequentialDispatchVisitor garbage head).settled rest d' ∧
      behaviour d'.log = behaviour d.log ++ [.started i, .assigned i vs] ∧
      d'.boxes = Function.update d.boxes i vs := by
  have hlog : ∀ e : Event V E, behaviour [e] = [.started i] →
      behaviour ((d.emit e).assign i vs).log = behaviour d.log ++ [.started i, .assigned i vs] := by
    intro e he
    simp only [Data.assign, Data.emit, behaviour_append, he]
    simp [behaviour]
  obtain ⟨n, r | ⟨t, o⟩, hfits⟩ := m
  · obtain rfl : r = .value vs := by simpa [Source.outcome] using hm
    exact ⟨_, rfl, hlog (.unpacked i) rfl, rfl⟩
  · obtain rfl : o = some (.value vs) := by simpa [Source.outcome] using hm
    cases t with
    | immediately => exact ⟨_, rfl, hlog (.started i) rfl, rfl⟩
    | later => exact ⟨_, rfl, hlog (.started i) rfl, rfl⟩

lemma settled_lazy (head rest : List (Slot V E)) (i n : ℕ) (t : Timing) (o : Outcome V E) (hfits)
    (d : Data V E) (ho : ∀ vs, o ≠ some (.value vs)) :
    behaviour ((sequentialDispatchVisitor garbage head).settled
        (⟨i, .continuable ⟨n, .lazy t o, hfits⟩⟩ :: rest) d).log =
      behaviour d.log ++ reference i [] [.inr o] := by
  have hend : (sequentialDispatchVisitor garbage head).settled
      (⟨i, .continuable ⟨n, .lazy t o, hfits⟩⟩ :: rest) d =
      (resolveBox ⟨i, .continuable ⟨n, .lazy t o, hfits⟩⟩ (d.emit (.started i)) o).2 := by
    rcases o with _ | ⟨vs | e⟩
    · cases t <;> rfl
    · exact absurd rfl (ho vs)
    · cases t <;> rfl
  rw [hend]
  rcases o with _ | ⟨vs | e⟩
  · simp [resolveBox, Data.emit, behaviour, reference]
  · exact absurd rfl (ho vs)
  · simp [resolveBox, Data.emit, behaviour, reference]

/-- A ready continuable that holds an exception does not end the sequence. -/
lemma settled_readyException (head rest : List (Slot V E)) (i n : ℕ) (e : Option E) (hfits)
    (d : Data V E) :
    behaviour ((sequentialDispatchVisitor garbage head).settled
        (⟨i, .continuable ⟨n, .ready (.exception e), hfits⟩⟩ :: rest) d).log ≠
      behaviour d.log ++ [.started i, .called (.exception e)] := by
  intro heq
  have hgrow := settled_record (records garbage head) rest
    (unpackInto garbage i n (d.emit (.unpacked i)) (.exception e))
  have hsettled : (sequentialDispatchVisitor garbage head).settled
      (⟨i, .continuable ⟨n, .ready (.exception e), hfits⟩⟩ :: rest) d =
      (sequentialDispatchVisitor garbage head).settled rest
        (unpackInto garbage i n (d.emit (.unpacked i)) (.exception e)) := rfl
  rw [← hsettled, heq] at hgrow
  -- what follows the unpacking is not a call of the callback
  by_cases hn : n = 0
  · simp [unpackInto, hn, Data.assign, Data.emit, behaviour, List.prefix_append_right_inj] at hgrow
  · simp [unpackInto, hn, Data.assign, Data.emit, behaviour, List.prefix_append_right_inj] at hgrow

lemma unboxContinuables_snoc (boxes : ℕ → List V) (pre : List (Slot V E)) (s : Slot V E) :
    unboxContinuables boxes (pre ++ [s]) =
      unboxContinuables boxes pre ++ unboxContinuables boxes [s] := List.flatMap_append

/-- The rest of the pack is dispatched as the reference says if and only if its first failure
is lazy. -/
lemma settled_iff (args : List (Arg V E)) (i : ℕ) (pre : List (Slot V E))
    (hpre : ∀ s ∈ pre, s.position < i) (d : Data V E) :
    behaviour ((sequentialDispatchVisitor garbage (pre ++ boxContinuables i args)).settled
        ((boxContinuables i args).filter isContinuableBox) d).log =
      behaviour d.log ++ reference i (unboxContinuables d.boxes pre) (args.map Arg.awaited) ↔
    firstFailureIsLazy args := by
  induction args generalizing i pre d with
  | nil =>
    simp [boxContinuables, Body.settled, sequentialDispatchVisitor, reference,
      firstFailureIsLazy, Data.emit, behaviour]
  | cons a rest ih =>
    have hsnoc : ∀ s ∈ pre ++ [⟨i, a⟩], s.position < i + 1 := by
      intro s hs
      rcases List.mem_append.1 hs with hs | hs
      · exact Nat.lt_succ_of_lt (hpre s hs)
      · obtain rfl : s = ⟨i, a⟩ := by simpa using hs
        exact Nat.lt_succ_self i
    have hhead : pre ++ boxContinuables i (a :: rest) =
      (pre ++ [⟨i, a⟩]) ++ boxContinuables (i + 1) rest := by simp [boxContinuables]
    cases a with
    | plain v =>
      have h := ih (i + 1) (pre ++ [⟨i, .plain v⟩]) hsnoc d
      rw [unboxContinuables_snoc] at h
      rw [hhead]
      exact h
    | continuable m =>
      have hfilter : (boxContinuables i (.continuable m :: rest)).filter isContinuableBox =
        ⟨i, .continuable m⟩ :: (boxContinuables (i + 1) rest).filter isContinuableBox := rfl
      rw [hfilter, List.map_cons]
      by_cases hval : ∃ vs, m.source.outcome = some (.value vs)
      · -- the continuable resolves with values
        obtain ⟨vs, hvs⟩ := hval
        obtain ⟨d', hset, hlog, hboxes⟩ := settled_values garbage
          (pre ++ boxContinuables i (.continuable m :: rest))
          ((boxContinuables (i + 1) rest).filter isContinuableBox) i m vs d hvs
        have hlazy : firstFailureIsLazy (.continuable m :: rest) = firstFailureIsLazy rest := by
          obtain ⟨n, r | ⟨t, o⟩, hfits⟩ := m
          · obtain rfl : r = .value vs := by simpa [Source.outcome] using hvs
            rfl
          · obtain rfl : o = some (.value vs) := by simpa [Source.outcome] using hvs
            rfl
        have hunbox : unboxContinuables d'.boxes (pre ++ [⟨i, .continuable m⟩]) =
            unboxContinuables d.boxes pre ++ vs := by
          rw [unboxContinuables_snoc, hboxes, unboxContinuables_update _ _ _ _ hpre]
          simp [unboxContinuables]
        have h := ih (i + 1) (pre ++ [⟨i, .continuable m⟩]) hsnoc d'
        rw [hlog, hunbox, List.append_assoc (behaviour d.log)] at h
        rw [hset, hhead, hlazy]
        simpa only [Arg.awaited, hvs, reference, List.cons_append, List.nil_append] using h
      · -- it does not, which ends the reference
        push Not at hval
        obtain ⟨n, r | ⟨t, o⟩, hfits⟩ := m
        · cases r with
          | value vs => exact absurd rfl (hval vs)
          | exception e =>
            have hne := settled_readyException garbage
              (pre ++ boxContinuables i (.continuable ⟨n, .ready (.exception e), hfits⟩ :: rest))
              ((boxContinuables (i + 1) rest).filter isContinuableBox) i n e hfits d
            simpa [Arg.awaited, Source.outcome, reference, firstFailureIsLazy] using hne
        · have heq := settled_lazy garbage
            (pre ++ boxContinuables i (.continuable ⟨n, .lazy t o, hfits⟩ :: rest))
            ((boxContinuables (i + 1) rest).filter isContinuableBox) i n t o hfits d hval
          rcases o with _ | ⟨vs | e⟩
          · simpa [Arg.awaited, Source.outcome, reference, firstFailureIsLazy] using heq
          · exact absurd rfl (hval vs)
          · simpa [Arg.awaited, Source.outcome, reference, firstFailureIsLazy] using heq

lemma whenSeq_settlesTo (args : List (Arg V E)) (wakes : ℕ) :
    let final := (sequentialDispatchVisitor garbage (boxContinuables 0 args)).settled
      ((boxContinuables 0 args).filter isContinuableBox) ⟨fun _ => [], []⟩
    behaviour (whenSeq garbage args wakes).user.log <+: behaviour final.log ∧
      ((whenSeq garbage args wakes).pending = none → (whenSeq garbage args wakes).user = final) ∧
      (args.length ≤ wakes → (whenSeq garbage args wakes).pending = none) := by
  have hfuel : (acceptedLeaves isContinuableBox
      ((boxContinuables 0 args).map .leaf)).length ≤ args.length := by
    rw [acceptedLeaves_slots, ← length_boxContinuables 0 args]
    exact List.length_filter_le _ _
  have hloop := traversal_loop (v := sequentialDispatchVisitor garbage (boxContinuables 0 args))
    ((boxContinuables 0 args).map .leaf) ⟨fun _ => [], []⟩ wakes args.length hfuel
  have haccepted : acceptedLeaves
      (sequentialDispatchVisitor garbage (boxContinuables 0 args)).accepts
      ((boxContinuables 0 args).map .leaf) = (boxContinuables 0 args).filter isContinuableBox :=
    acceptedLeaves_slots _
  rw [haccepted] at hloop
  have hlength : ((boxContinuables 0 args).filter isContinuableBox).length ≤ args.length :=
    Nat.le_trans (List.length_filter_le _ _) (Nat.le_of_eq (length_boxContinuables 0 args))
  have huser : (whenSeq garbage args wakes).user = _ := congrArg Loop.user hloop
  have hpending : (whenSeq garbage args wakes).pending = none ↔ _ :=
    Option.map_eq_none_iff.symm.trans (Eq.congr_left (congrArg Loop.pending hloop))
  rw [huser, hpending]
  exact (run_settlesTo (records garbage (boxContinuables 0 args))
    ((boxContinuables 0 args).filter isContinuableBox) ⟨⟨fun _ => [], []⟩, [], none⟩ rfl).mono
    hlength wakes

end settling

/-- **When a sequential connection dispatches in sequence**: if and only if the first
continuable that does not resolve with values, if there is one, is lazy. -/
theorem behavesSequentially_iff (garbage : ℕ → List V) (args : List (Arg V E)) :
    BehavesSequentially garbage args ↔ firstFailureIsLazy args := by
  have hiff : behaviour ((sequentialDispatchVisitor garbage (boxContinuables 0 args)).settled
      ((boxContinuables 0 args).filter isContinuableBox) ⟨fun _ => [], []⟩).log =
      reference 0 [] (args.map Arg.awaited) ↔ firstFailureIsLazy args :=
    settled_iff garbage args 0 [] (by simp) ⟨fun _ => [], []⟩
  have hsettles := whenSeq_settlesTo garbage args
  rw [← hiff]
  constructor
  · intro h
    obtain ⟨-, hfinal, hidle⟩ := hsettles args.length
    have hpend := hidle (Nat.le_refl _)
    have := (h args.length).2 hpend
    rw [hfinal hpend] at this
    exact this
  · intro h wakes
    obtain ⟨hpre, hfinal, -⟩ := hsettles wakes
    refine ⟨?_, fun hp => ?_⟩
    · rw [h] at hpre
      exact hpre
    · rw [hfinal hp]
      exact h

/-- An exceptional ready continuable and a lazy one behind it, of one result argument each. -/
def exceptionalThenLazy : List (Arg ℕ ℕ) :=
  [.continuable ⟨1, .ready (.exception (some 7)), by simp [Source.outcome]⟩,
    .continuable ⟨1, .lazy .immediately (some (.value [5])), by simp [Source.outcome]⟩]

/-- The exception is read as a value, the second continuable is started, and the callback is
called with values. -/
theorem exceptionalThenLazy_called :
    ¬ BehavesSequentially (fun _ => [0]) exceptionalThenLazy ∧
      (whenSeq (fun _ => [0]) exceptionalThenLazy 0).user.log =
        [.unpacked 0, .readException 0, .assigned 0 [0], .started 1, .assigned 1 [5],
          .called (.value [0, 5])] := by
  refine ⟨fun h => ?_, by decide⟩
  have hfinal := (h 0).2 (by rfl)
  revert hfinal
  decide

end Continuable.Seq
