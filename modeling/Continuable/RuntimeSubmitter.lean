import Continuable.Runtime

/-!
What a submitter does to the downstream callback.

The verdict of a connection is read off what the members have done to their callbacks so far. The
submitter keeps track of it with its counter, its flag, its boxes and the number of its owners.
-/

namespace Continuable.Runtime

open ChainDestruction (Use)
open Operators (Strategy Submitter)

variable {V E : Type}

/-! ### Verdicts -/

/-- A use of a member's callback that settles the connection by itself. -/
def decisive : Strategy → Use V E → Bool
  | .all, .called (.exception _) => true
  | .any, .called _ => true
  | _, _ => false

/-- All the values, if every callback was called with some. -/
def collected : List (Use V E) → Option (List V)
  | [] => some []
  | .called (.value vs) :: us => (collected us).map (vs ++ ·)
  | .called (.exception _) :: _ | .destroyed :: _ => none

/-- What becomes of the downstream callback when no member is left and none was decisive. -/
def conclude : Strategy → List (Use V E) → Use V E
  | .any, _ => .destroyed
  | .all, us =>
    match collected us with
    | some vs => .called (.value vs)
    | none => .destroyed

/-- What the members did to their callbacks settles the connection, or not yet. -/
def verdict (s : Strategy) (dispatched : Bool) (ins : List (Option (Use V E))) :
    Option (Use V E) :=
  ((ins.filterMap id).find? (decisive s)).or
    (if dispatched && ins.all Option.isSome then some (conclude s (ins.filterMap id)) else none)

def Undecided (s : Strategy) (ins : List (Option (Use V E))) : Prop :=
  ∀ u, some u ∈ ins → decisive s u = false

/-- Some members used their callbacks. -/
def Extends (old new : List (Option (Use V E))) : Prop :=
  List.Forall₂ (fun o n => o = none ∨ n = o) old new

lemma exists_of_forall₂ {α β : Type} {R : α → β → Prop} {l : List α} {l' : List β}
    (h : List.Forall₂ R l l') {a : α} (ha : a ∈ l) : ∃ b ∈ l', R a b := by
  induction h with
  | nil => cases ha
  | @cons a' b l l' hab _ ih =>
    rcases List.mem_cons.1 ha with rfl | hmem
    · exact ⟨b, List.mem_cons_self, hab⟩
    · obtain ⟨b', hb', hR⟩ := ih hmem
      exact ⟨b', List.mem_cons_of_mem b hb', hR⟩

@[simp] lemma filterMap_some_cons (u : Use V E) (ins : List (Option (Use V E))) :
    (some u :: ins).filterMap id = u :: ins.filterMap id := rfl

section verdict

variable {s : Strategy} {d : Bool} {ins P R R' : List (Option (Use V E))} {u : Use V E}

lemma find_of_undecided (h : Undecided s ins) :
    (ins.filterMap id).find? (decisive s) = none := by
  rw [List.find?_eq_none]
  intro u hu
  obtain ⟨i, hi, rfl⟩ := List.mem_filterMap.1 hu
  simp [h u hi]

lemma verdict_of_undecided (h : Undecided s ins) :
    verdict s d ins =
      if d && ins.all Option.isSome then some (conclude s (ins.filterMap id)) else none := by
  rw [verdict, find_of_undecided h, Option.none_or]

lemma verdict_of_decisive (hP : Undecided s P) (hu : decisive s u = true) :
    verdict s d (P ++ some u :: R) = some u := by
  have hfind : ((P ++ some u :: R).filterMap id).find? (decisive s) = some u := by
    rw [List.filterMap_append, List.find?_append, find_of_undecided hP, Option.none_or,
      filterMap_some_cons, List.find?_cons, hu]
  rw [verdict, hfind, Option.some_or]

lemma undecided_append :
    Undecided s (P ++ R) ↔ Undecided s P ∧ Undecided s R := by
  simp only [Undecided, List.mem_append]
  exact ⟨fun h => ⟨fun u hu => h u (.inl hu), fun u hu => h u (.inr hu)⟩,
    fun h u hu => hu.elim (h.1 u) (h.2 u)⟩

lemma undecided_cons_none : Undecided s (none :: R) ↔ Undecided s R := by
  simp [Undecided]

lemma undecided_cons_some :
    Undecided s (some u :: R) ↔ decisive s u = false ∧ Undecided s R := by
  simp [Undecided]

lemma eq_of_extends (h : Extends R R') (hR : R.all Option.isSome = true) : R' = R := by
  induction h with
  | nil => rfl
  | @cons o n l l' hon _ ih =>
    rw [List.all_cons, Bool.and_eq_true] at hR
    rcases hon with rfl | rfl
    · cases hR.1
    · rw [ih hR.2]

lemma verdict_stable {x : Use V E} (hP : Undecided s P) (hR : Undecided s R)
    (h : verdict s d (P ++ some u :: R) = some x) (he : Extends R R') :
    verdict s d (P ++ some u :: R') = some x := by
  cases hu : decisive s u with
  | true => rwa [verdict_of_decisive hP hu] at h ⊢
  | false =>
    rw [verdict_of_undecided (undecided_append.2 ⟨hP, undecided_cons_some.2 ⟨hu, hR⟩⟩)] at h
    split_ifs at h with hall
    have hin : R.all Option.isSome = true := by
      simp only [List.all_append, List.all_cons, Bool.and_eq_true] at hall
      exact hall.2.2.2
    rw [eq_of_extends he hin,
      verdict_of_undecided (undecided_append.2 ⟨hP, undecided_cons_some.2 ⟨hu, hR⟩⟩),
      if_pos hall, h]

end verdict

/-! ### The invariant of a submitter -/

/-- The box of a member. -/
def box : Option (Use V E) → List V
  | some (.called (.value vs)) => vs
  | some (.called (.exception _)) | some .destroyed | none => []

/-- A member that was not completed. -/
def unfinished : Option (Use V E) → Bool
  | some (.called (.value _)) => false
  | some (.called (.exception _)) | some .destroyed | none => true

lemma collected_of_finished {ins : List (Option (Use V E))} (h : ins.countP unfinished = 0) :
    ins.all Option.isSome = true ∧
      collected (ins.filterMap id) = some (ins.map box).flatten := by
  induction ins with
  | nil => exact ⟨rfl, rfl⟩
  | cons i ins ih =>
    rw [List.countP_cons] at h
    obtain ⟨hall, hcollected⟩ := ih (by omega)
    rcases i with _ | ⟨vs | e⟩ | _
    · simp [unfinished] at h
    · refine ⟨by simpa using hall, ?_⟩
      rw [filterMap_some_cons, collected, hcollected]
      rfl
    · simp [unfinished] at h
    · simp [unfinished] at h

lemma collected_of_unfinished {ins : List (Option (Use V E))} (hall : ins.all Option.isSome = true)
    (h : 0 < ins.countP unfinished) : collected (ins.filterMap id) = none := by
  induction ins with
  | nil => simp at h
  | cons i ins ih =>
    rw [List.all_cons, Bool.and_eq_true] at hall
    rcases i with _ | ⟨vs | e⟩ | _
    · cases hall.1
    · rw [List.countP_cons] at h
      rw [filterMap_some_cons, collected,
        ih hall.2 (by simpa [unfinished] using h), Option.map_none]
    · rfl
    · rfl

/-- The submitter did not call the downstream callback yet; its counter and its boxes say what the
members did so far. -/
structure Counting (s : Strategy) (dispatched : Bool) (n : ℕ) (t : Submitter V E)
    (ins : List (Option (Use V E))) : Prop where
  strategy : t.strategy = s
  flag : t.flag = false
  undecided : Undecided s ins
  left : s = .all → t.left = ins.countP unfinished + (!dispatched).toNat
  incomplete : s = .all → 0 < t.left
  boxes : s = .all → t.boxes = ins.map box ++ List.replicate (n - ins.length) []

/-- What a submitter does with a signal, or at the end of the dispatch: it goes on counting, or it
calls the downstream callback with the verdict. -/
def Answers (s : Strategy) (dispatched : Bool) (n : ℕ) (ins : List (Option (Use V E)))
    (r : Submitter V E × Option (Signal V E)) : Prop :=
  match r.2 with
  | none => Counting s dispatched n r.1 ins
  | some signal => r.1.strategy = s ∧ r.1.flag = true ∧
      verdict s dispatched ins = some (.called signal)

/-- Nothing was done to the downstream callback yet. Besides the members and the dispatch, `extra`
more objects own the submitter. -/
structure Open (s : Strategy) (dispatched : Bool) (n extra : ℕ) (sh : Shared V E)
    (ins : List (Option (Use V E))) : Prop where
  counting : Counting s dispatched n sh.submitter ins
  uses : sh.uses = []
  owners : sh.owners = ins.countP Option.isNone + (!dispatched).toNat + extra
  owned : 0 < sh.owners

/-- The downstream callback was used, and nobody can use it again. -/
structure Closed (s : Strategy) (sh : Shared V E) (ins : List (Option (Use V E)))
    (x : Use V E) : Prop where
  strategy : sh.submitter.strategy = s
  uses : sh.uses = [x]
  settled : sh.submitter.flag = true ∨ ins.all Option.isSome = true

def Tracks (s : Strategy) (dispatched : Bool) (n : ℕ) (sh : Shared V E)
    (ins : List (Option (Use V E))) : Option (Use V E) → Prop
  | none => Open s dispatched n 0 sh ins
  | some x => Closed s sh ins x

/-! ### One step of a submitter -/

section counting

variable {s : Strategy} {d : Bool} {n : ℕ} {t : Submitter V E}
  {ins P R : List (Option (Use V E))}

lemma countP_isNone : ins.countP Option.isNone = 0 ↔ ins.all Option.isSome = true := by
  simp [List.countP_eq_zero, Option.isSome_iff_ne_none]

lemma countP_middle (p : Option (Use V E) → Bool) (i : Option (Use V E)) :
    (P ++ i :: R).countP p = P.countP p + R.countP p + (p i).toNat := by
  rw [List.countP_append, List.countP_cons]
  cases p i
  · simp
  · simp
    omega

lemma undecided_middle (h : Undecided s (P ++ none :: R)) {u : Use V E}
    (hu : decisive s u = false) : Undecided s (P ++ some u :: R) := by
  rw [undecided_append, undecided_cons_none] at h
  exact undecided_append.2 ⟨h.1, undecided_cons_some.2 ⟨hu, h.2⟩⟩

lemma set_box (vs : List V) (n : ℕ) :
    (((P ++ none :: R).map box ++ List.replicate (n - (P ++ none :: R).length) []).set
      P.length vs) =
      (P ++ some (.called (.value vs) : Use V E) :: R).map box ++
        List.replicate (n - (P ++ some (.called (.value vs) : Use V E) :: R).length) [] := by
  have hlength : P.length = (P.map (box : Option (Use V E) → List V)).length := by simp
  rw [List.map_append, List.map_append, List.append_assoc, List.append_assoc]
  conv_lhs => rw [hlength]
  rw [List.set_append_right _ _ (Nat.le_refl _), Nat.sub_self]
  simp [box]

lemma answers_callOnce (hs : t.strategy = s) (hflag : t.flag = false) {signal : Signal V E}
    (hv : verdict s d ins = some (.called signal)) : Answers s d n ins (t.callOnce signal) := by
  have hcall : t.callOnce signal = ({ t with flag := true }, some signal) := by
    rw [Submitter.callOnce, hflag]
    rfl
  rw [hcall]
  exact ⟨hs, rfl, hv⟩

lemma answers_completeOne (hs : t.strategy = .all) (hflag : t.flag = false)
    (hundecided : Undecided .all ins)
    (hleft : t.left = ins.countP unfinished + (!d).toNat + 1)
    (hboxes : t.boxes = ins.map box ++ List.replicate (n - ins.length) [])
    (hn : ins.length = n ∨ d = false) : Answers .all d n ins t.completeOne := by
  rw [Submitter.completeOne]
  simp only
  split_ifs with hzero
  · -- it was the last one
    have hd : d = true := by
      cases d with
      | true => rfl
      | false =>
        simp only [Bool.not_false, Bool.toNat_true] at hleft
        omega
    subst hd
    have hfinished : ins.countP unfinished = 0 := by
      simp only [Bool.not_true, Bool.toNat_false] at hleft
      omega
    obtain ⟨hall, hcollected⟩ := collected_of_finished hfinished
    have hlength : n - ins.length = 0 := by
      rcases hn with hn | hn
      · omega
      · cases hn
    refine answers_callOnce (t := { t with left := t.left - 1 }) hs hflag ?_
    rw [verdict_of_undecided hundecided, Bool.true_and, if_pos hall, conclude, hcollected, hboxes,
      hlength, List.replicate_zero, List.append_nil]
  · exact ⟨hs, hflag, hundecided, fun _ => by simp only; omega, fun _ => by simp only; omega,
      fun _ => hboxes⟩

/-- **A member calls its callback.** -/
lemma Counting.receive (h : Counting s d n t (P ++ none :: R))
    (hn : (P ++ none :: R).length = n ∨ d = false) (signal : Signal V E) :
    Answers s d n (P ++ some (.called signal) :: R) (t.receive P.length signal) := by
  have hdecisive : decisive s (.called signal) = true →
      Answers s d n (P ++ some (.called signal) :: R) (t.callOnce signal) := fun hu =>
    answers_callOnce h.strategy h.flag
      (verdict_of_decisive (undecided_append.1 h.undecided).1 hu)
  have hstrategy := h.strategy
  cases s with
  | any =>
    have hreceive : t.receive P.length signal = t.callOnce signal := by
      simp only [Submitter.receive, hstrategy]
    rw [hreceive]
    exact hdecisive rfl
  | all =>
    cases signal with
    | exception e =>
      have hreceive : t.receive P.length (.exception e) = t.callOnce (.exception e) := by
        simp only [Submitter.receive, hstrategy]
      rw [hreceive]
      exact hdecisive rfl
    | value vs =>
      have hreceive : t.receive P.length (.value vs) =
          { t with boxes := t.boxes.set P.length vs }.completeOne := by
        simp only [Submitter.receive, hstrategy]
      have hcount : (P ++ none :: R).countP unfinished =
          (P ++ some (.called (.value vs)) :: R).countP unfinished + 1 := by
        rw [countP_middle, countP_middle]
        rfl
      rw [hreceive]
      refine answers_completeOne hstrategy h.flag (undecided_middle h.undecided rfl) ?_ ?_ ?_
      · have hleft := h.left rfl
        simp only
        omega
      · simp only [h.boxes rfl, set_box]
      · simpa using hn

lemma Counting.decisive (h : Counting s d n t (P ++ none :: R))
    (hn : (P ++ none :: R).length = n ∨ d = false) {signal : Signal V E}
    (hu : decisive s (.called signal) = true) :
    ∃ t', t.receive P.length signal = (t', some signal) ∧ t'.strategy = s ∧ t'.flag = true := by
  have hr := h.receive hn signal
  generalize t.receive P.length signal = r at hr
  obtain ⟨t', answer⟩ := r
  cases answer with
  | none =>
    have hundecided := (undecided_append.1 hr.undecided).2
    rw [undecided_cons_some, hu] at hundecided
    cases hundecided.1
  | some signal' =>
    obtain ⟨hstrategy, hflag, hv⟩ := hr
    rw [verdict_of_decisive (undecided_append.1 h.undecided).1 hu] at hv
    obtain rfl : signal = signal' := by simpa using hv
    exact ⟨t', rfl, hstrategy, hflag⟩

lemma Counting.destroyed (h : Counting s d n t (P ++ none :: R)) :
    Counting s d n t (P ++ some .destroyed :: R) where
  strategy := h.strategy
  flag := h.flag
  undecided := undecided_middle h.undecided (by cases s <;> rfl)
  left hs := by
    have hleft := h.left hs
    rw [countP_middle] at hleft ⊢
    exact hleft
  incomplete := h.incomplete
  boxes hs := by
    have hboxes := h.boxes hs
    rw [List.map_append, List.map_cons, List.length_append, List.length_cons] at hboxes ⊢
    exact hboxes

/-- **The dispatch ends.** -/
lemma Counting.accept (h : Counting s false n t ins) (hn : ins.length = n) :
    Answers s true n ins t.accept := by
  have hstrategy := h.strategy
  cases s with
  | any =>
    have haccept : t.accept = (t, none) := by simp only [Submitter.accept, hstrategy]
    rw [haccept]
    exact ⟨hstrategy, h.flag, h.undecided, nofun, nofun, nofun⟩
  | all =>
    have haccept : t.accept = t.completeOne := by simp only [Submitter.accept, hstrategy]
    have hleft := h.left rfl
    simp only [Bool.not_false, Bool.toNat_true] at hleft
    rw [haccept]
    exact answers_completeOne hstrategy h.flag h.undecided
      (by simp only [Bool.not_true, Bool.toNat_false]; omega) (h.boxes rfl) (.inl hn)

/-- **The dispatch comes to the next member.** -/
lemma Counting.createCallback (h : Counting s false n t ins) (hn : ins.length < n) :
    Counting s false n t.createCallback (ins ++ [none]) := by
  have hundecided : Undecided s (ins ++ [none]) :=
    undecided_append.2 ⟨h.undecided, by simp [Undecided]⟩
  have hunfinished : (ins ++ [none]).countP unfinished = ins.countP unfinished + 1 := by
    simp [unfinished]
  have hstrategy := h.strategy
  cases s with
  | any =>
    have hcreate : t.createCallback = t := by simp only [Submitter.createCallback, hstrategy]
    rw [hcreate]
    exact ⟨hstrategy, h.flag, hundecided, nofun, nofun, nofun⟩
  | all =>
    have hcreate : t.createCallback = { t with left := t.left + 1 } := by
      simp only [Submitter.createCallback, hstrategy]
    have hreplicate : List.replicate (n - ins.length) ([] : List V) =
        [] :: List.replicate (n - (ins.length + 1)) [] := by
      rw [← List.replicate_succ]
      congr 1
      omega
    rw [hcreate]
    refine ⟨hstrategy, h.flag, hundecided, fun _ => ?_, fun _ => Nat.succ_pos _, fun _ => ?_⟩
    · have hleft := h.left rfl
      simp only
      omega
    · simp only [h.boxes rfl, hreplicate]
      simp [box]

lemma Counting.conclude (h : Counting s true n t ins) (hall : ins.all Option.isSome = true) :
    conclude s (ins.filterMap id) = .destroyed := by
  cases s with
  | any => rfl
  | all =>
    have hleft := h.left rfl
    have hpos := h.incomplete rfl
    rw [Runtime.conclude, collected_of_unfinished hall (by simpa [hleft] using hpos)]

end counting

section submitter

variable (s : Submitter V E)

@[simp] lemma callOnce_strategy (signal : Signal V E) :
    (s.callOnce signal).1.strategy = s.strategy := by
  unfold Submitter.callOnce
  split_ifs <;> rfl

@[simp] lemma completeOne_strategy : s.completeOne.1.strategy = s.strategy := by
  unfold Submitter.completeOne
  simp only
  split_ifs
  · exact callOnce_strategy { s with left := s.left - 1 } _
  · rfl

@[simp] lemma receive_strategy (k : ℕ) (signal : Signal V E) :
    (s.receive k signal).1.strategy = s.strategy := by
  unfold Submitter.receive
  split
  · exact completeOne_strategy { s with boxes := s.boxes.set k _ }
  · exact callOnce_strategy s _
  · exact callOnce_strategy s _

@[simp] lemma accept_strategy : s.accept.1.strategy = s.strategy := by
  unfold Submitter.accept
  split
  · exact completeOne_strategy s
  · rfl

end submitter

section once

variable {sh : Shared V E} {s : Strategy} {x : Use V E}

/-- The flag is set for good. -/
structure Flagged (s : Strategy) (sh : Shared V E) (x : Use V E) : Prop where
  strategy : sh.submitter.strategy = s
  uses : sh.uses = [x]
  flag : sh.submitter.flag = true

lemma Flagged.closed (h : Flagged s sh x) (ins : List (Option (Use V E))) : Closed s sh ins x :=
  ⟨h.strategy, h.uses, .inl h.flag⟩

lemma Flagged.release (h : Flagged s sh x) : Flagged s sh.release x where
  strategy := h.strategy
  uses := by simp [Shared.release, h.flag, h.uses]
  flag := h.flag

lemma callOnce_of_flag {t : Submitter V E} (h : t.flag = true) (signal : Signal V E) :
    (t.callOnce signal).1.flag = true ∧ (t.callOnce signal).2 = none := by
  rw [Submitter.callOnce, if_pos h]
  exact ⟨h, rfl⟩

lemma completeOne_of_flag {t : Submitter V E} (h : t.flag = true) :
    t.completeOne.1.flag = true ∧ t.completeOne.2 = none := by
  unfold Submitter.completeOne
  simp only
  split_ifs
  · exact callOnce_of_flag (t := { t with left := t.left - 1 }) h _
  · exact ⟨h, rfl⟩

lemma receive_of_flag {t : Submitter V E} (h : t.flag = true) (k : ℕ) (signal : Signal V E) :
    (t.receive k signal).1.flag = true ∧ (t.receive k signal).2 = none := by
  unfold Submitter.receive
  split
  · exact completeOne_of_flag h
  · exact callOnce_of_flag h _
  · exact callOnce_of_flag h _

lemma accept_of_flag {t : Submitter V E} (h : t.flag = true) :
    t.accept.1.flag = true ∧ t.accept.2 = none := by
  unfold Submitter.accept
  split
  · exact completeOne_of_flag h
  · exact ⟨h, rfl⟩

lemma Flagged.submit (h : Flagged s sh x) {r : Submitter V E × Option (Signal V E)}
    (hstrategy : r.1.strategy = sh.submitter.strategy) (hr : r.1.flag = true ∧ r.2 = none) :
    Flagged s (sh.submit r) x where
  strategy := hstrategy.trans h.strategy
  uses := by simp [Shared.submit, hr.2, h.uses]
  flag := hr.1

lemma Flagged.use (h : Flagged s sh x) (k : ℕ) (u : Use V E) : Flagged s (sh.use k u) x := by
  cases u with
  | called signal =>
    exact (h.submit (receive_strategy ..) (receive_of_flag h.flag k signal)).release
  | destroyed => exact h.release

lemma Flagged.accept (h : Flagged s sh x) : Flagged s sh.accept x :=
  (h.submit (accept_strategy _) (accept_of_flag h.flag)).release

lemma Flagged.createCallback (h : Flagged s sh x) : Flagged s sh.createCallback x := by
  refine ⟨?_, h.uses, ?_⟩ <;> simp only [Shared.createCallback, Submitter.createCallback]
  · split
    · exact h.strategy
    · exact h.strategy
  · split
    · exact h.flag
    · exact h.flag

lemma Flagged.uses_of_list (h : Flagged s sh x) (k : ℕ) (us : List (Use V E)) :
    Flagged s (us.foldl (Shared.use k) sh) x := by
  induction us generalizing sh with
  | nil => exact h
  | cons u us ih => exact ih (h.use k u)

lemma Flagged.receive (h : Flagged s sh x) (k : ℕ) (uss : List (List (Use V E))) :
    Flagged s (sh.receive k uss) x := by
  induction uss generalizing k sh with
  | nil => exact h
  | cons us uss ih => exact ih (h.uses_of_list k us) (k + 1)

lemma Flagged.dispatch (h : Flagged s sh x) (k : ℕ) (uss : List (List (Use V E))) :
    Flagged s (sh.dispatch k uss) x := by
  induction uss generalizing k sh with
  | nil => exact h.accept
  | cons us uss ih => exact ih (h.createCallback.uses_of_list k us) (k + 1)

end once

/-! ### One step of the objects that own a submitter -/

section step

variable {s : Strategy} {d : Bool} {n : ℕ} {sh : Shared V E}
  {ins P R : List (Option (Use V E))}

lemma Flagged.tracks {x : Use V E} (h : Flagged s sh x) (hv : verdict s d ins = some x) :
    Tracks s d n sh ins (verdict s d ins) := by
  rw [hv]
  exact h.closed ins

lemma Open.strategy {extra : ℕ} (h : Open s d n extra sh ins) : sh.submitter.strategy = s :=
  h.counting.strategy

lemma Open.release (h : Open s d n 1 sh ins) :
    Tracks s d n sh.release ins (verdict s d ins) := by
  have howners := h.owners
  have hcounting := h.counting
  rw [verdict_of_undecided hcounting.undecided]
  split_ifs with hall
  · -- it was the last one
    rw [Bool.and_eq_true] at hall
    obtain ⟨rfl, hall⟩ := hall
    rw [countP_isNone.2 hall] at howners
    refine ⟨h.strategy, ?_, .inr hall⟩
    rw [hcounting.conclude hall, Shared.release, h.uses, if_pos ⟨howners, hcounting.flag⟩]
    rfl
  · have hmore : 0 < ins.countP Option.isNone + (!d).toNat := by
      by_contra hzero
      have hnone : ins.countP Option.isNone = 0 := by omega
      cases d with
      | false => simp at hzero
      | true => exact hall (by simpa using countP_isNone.1 hnone)
    have hlast : ¬ (sh.owners = 1 ∧ sh.submitter.flag = false) := by omega
    have huses : sh.release.uses = [] := by rw [Shared.release, if_neg hlast, h.uses]
    have hrelease : sh.release.owners = sh.owners - 1 := rfl
    exact ⟨hcounting, huses, by omega, by omega⟩

lemma release_of_answers {r : Submitter V E × Option (Signal V E)} (hr : Answers s d n ins r)
    (huses : sh.uses = []) (howners : sh.owners = ins.countP Option.isNone + (!d).toNat + 1) :
    Tracks s d n (sh.submit r).release ins (verdict s d ins) := by
  obtain ⟨t, answer⟩ := r
  cases answer with
  | some signal =>
    obtain ⟨hstrategy, hflag, hv⟩ := hr
    have hflagged : Flagged s (sh.submit (t, some signal)) (.called signal) :=
      ⟨hstrategy, by simp [Shared.submit, huses], hflag⟩
    exact hflagged.release.tracks hv
  | none =>
    have hsubmit : sh.submit (t, none) = { sh with submitter := t } := by simp [Shared.submit]
    have hopen : Open s d n 1 { sh with submitter := t } ins :=
      ⟨hr, huses, howners, by simp only; omega⟩
    rw [hsubmit]
    exact hopen.release

/-- **A member uses its callback.** -/
theorem Open.use (h : Open s d n 0 sh (P ++ none :: R))
    (hn : (P ++ none :: R).length = n ∨ d = false)
    (u : Use V E) :
    Tracks s d n (sh.use P.length u) (P ++ some u :: R) (verdict s d (P ++ some u :: R)) := by
  have howners : sh.owners = (P ++ some u :: R).countP Option.isNone + (!d).toNat + 1 := by
    have hbefore := h.owners
    rw [countP_middle] at hbefore ⊢
    simp only [Option.isNone_none, Option.isNone_some, Bool.toNat_true,
      Bool.toNat_false] at hbefore ⊢
    omega
  cases u with
  | called signal => exact release_of_answers (h.counting.receive hn signal) h.uses howners
  | destroyed =>
    have hopen : Open s d n 1 sh (P ++ some .destroyed :: R) :=
      ⟨h.counting.destroyed, h.uses, howners, h.owned⟩
    exact hopen.release

lemma Open.decisive {u : Use V E} (h : Open s d n 0 sh (P ++ none :: R))
    (hn : (P ++ none :: R).length = n ∨ d = false) (hu : decisive s u = true) :
    Flagged s (sh.use P.length u) u := by
  cases u with
  | destroyed => cases s <;> cases hu
  | called signal =>
    obtain ⟨t, hreceive, hstrategy, hflag⟩ := h.counting.decisive hn hu
    have hflagged : Flagged s (sh.submit (t, some signal)) (.called signal) :=
      ⟨hstrategy, by simp [Shared.submit, h.uses], hflag⟩
    rw [Shared.use, hreceive]
    exact hflagged.release

/-- The dispatch ends. -/
theorem Open.accept (h : Open s false n 0 sh ins) (hn : ins.length = n) :
    Tracks s true n sh.accept ins (verdict s true ins) :=
  release_of_answers (h.counting.accept hn) h.uses (by simpa using h.owners)

/-- The dispatch comes to the next member. -/
theorem Open.createCallback (h : Open s false n 0 sh ins) (hn : ins.length < n) :
    Open s false n 0 sh.createCallback (ins ++ [none]) := by
  have howners := h.owners
  have hone : (ins ++ [none]).countP Option.isNone = ins.countP Option.isNone + 1 := by simp
  refine ⟨h.counting.createCallback hn, h.uses, ?_, Nat.succ_pos _⟩
  simp only [Shared.createCallback]
  omega

lemma Open.verdict (h : Open s d n 0 sh ins) : verdict s d ins = none := by
  have howners := h.owners
  have howned := h.owned
  rw [verdict_of_undecided h.counting.undecided, if_neg]
  rw [Bool.and_eq_true]
  rintro ⟨rfl, hall⟩
  rw [countP_isNone.2 hall] at howners
  simp only [Bool.not_true, Bool.toNat_false] at howners
  omega

end step

/-! ### Several members -/

/-- What members did in between: nothing, or they used their callbacks, once. -/
inductive Fed : List (Option (Use V E)) → List (Option (Use V E)) → List (List (Use V E)) → Prop
  | nil : Fed [] [] []
  | same {old new : List (Option (Use V E))} {uss : List (List (Use V E))} (o : Option (Use V E))
      (rest : Fed old new uss) : Fed (o :: old) (o :: new) ([] :: uss)
  | uses {old new : List (Option (Use V E))} {uss : List (List (Use V E))} (u : Use V E)
      (rest : Fed old new uss) : Fed (none :: old) (some u :: new) ([u] :: uss)

section members

variable {s : Strategy} {n : ℕ} {sh : Shared V E} {P old new : List (Option (Use V E))}
  {uss : List (List (Use V E))}

lemma Fed.extends (h : Fed old new uss) : Extends old new := by
  induction h with
  | nil => exact .nil
  | same o _ ih => exact .cons (.inr rfl) ih
  | uses u _ ih => exact .cons (.inl rfl) ih

lemma Fed.receive_of_all (h : Fed old new uss) (hall : old.all Option.isSome = true) (k : ℕ)
    (sh : Shared V E) : sh.receive k uss = sh := by
  induction h generalizing k with
  | nil => rfl
  | same o _ ih =>
    rw [List.all_cons, Bool.and_eq_true] at hall
    exact ih hall.2 (k + 1)
  | uses u _ ih => cases hall

/-- **Members of a connection use their callbacks.** -/
theorem Open.receive (h : Open s true n 0 sh (P ++ old)) (hf : Fed old new uss)
    (hn : (P ++ old).length = n) :
    Tracks s true n (sh.receive P.length uss) (P ++ new) (Runtime.verdict s true (P ++ new)) := by
  induction hf generalizing P sh with
  | nil =>
    rw [h.verdict]
    exact h
  | @same old new uss o _ ih =>
    have hsplit : ∀ l : List (Option (Use V E)), P ++ o :: l = P ++ [o] ++ l := fun l => by simp
    rw [hsplit] at h hn ⊢
    have hrest := ih h hn
    rwa [List.length_append, List.length_singleton] at hrest
  | @uses old new uss u hf ih =>
    have hsplit : ∀ l : List (Option (Use V E)), P ++ some u :: l = P ++ [some u] ++ l :=
      fun l => by simp
    have huse := h.use (.inl hn) u
    have hundecided := h.counting.undecided
    rw [undecided_append, undecided_cons_none] at hundecided
    change Tracks s true n ((sh.use P.length u).receive (P.length + 1) uss) _ _
    cases hv : Runtime.verdict s true (P ++ some u :: old) with
    | none =>
      rw [hv, hsplit] at huse
      rw [hsplit]
      have hrest := ih huse (by simpa using hn)
      rwa [List.length_append, List.length_singleton] at hrest
    | some x =>
      rw [hv] at huse
      have hstable := verdict_stable hundecided.1 hundecided.2 hv hf.extends
      rcases huse.settled with hflag | hall
      · have hflagged : Flagged s (sh.use P.length u) x := ⟨huse.strategy, huse.uses, hflag⟩
        exact (hflagged.receive _ _).tracks hstable
      · have hold : old.all Option.isSome = true := by
          simp only [List.all_append, List.all_cons, Bool.and_eq_true] at hall
          exact hall.2.2
        rw [hf.receive_of_all hold, hstable, eq_of_extends hf.extends hold]
        exact huse

/-- **The members of a connection are started.** -/
theorem Open.dispatch (h : Open s false n 0 sh P) (huss : ∀ us ∈ uss, us.length ≤ 1)
    (hn : P.length + uss.length = n) :
    Tracks s true n (sh.dispatch P.length uss) (P ++ uss.map List.head?)
      (Runtime.verdict s true (P ++ uss.map List.head?)) := by
  induction uss generalizing P sh with
  | nil =>
    rw [List.map_nil, List.append_nil]
    exact h.accept hn
  | cons us uss ih =>
    rw [List.length_cons] at hn
    obtain ⟨hus, hrest⟩ := List.forall_mem_cons.1 huss
    have hcreate := h.createCallback (by omega)
    have hsplit : ∀ o, P ++ (o :: uss.map List.head?) = P ++ [o] ++ uss.map List.head? :=
      fun o => by simp
    -- the dispatch goes on when the connection is not settled
    have hgo : ∀ (o : Option (Use V E)) (sh' : Shared V E), Open s false n 0 sh' (P ++ [o]) →
        Tracks s true n (sh'.dispatch (P.length + 1) uss) (P ++ (o :: uss.map List.head?))
          (Runtime.verdict s true (P ++ (o :: uss.map List.head?))) := by
      intro o sh' h'
      have htracks := ih h' hrest (by simp; omega)
      rwa [List.length_append, List.length_singleton, ← hsplit] at htracks
    rcases us with _ | ⟨u, _ | ⟨u', us⟩⟩
    · exact hgo none _ hcreate
    · change Tracks s true n ((sh.createCallback.use P.length u).dispatch (P.length + 1) uss)
        (P ++ (some u :: uss.map List.head?)) _
      cases hu : Runtime.decisive s u with
      | true =>
        exact ((hcreate.decisive (.inr rfl) hu).dispatch _ _).tracks
          (verdict_of_decisive h.counting.undecided hu)
      | false =>
        have huse := hcreate.use (.inr rfl) u
        have hundecided : Undecided s (P ++ [some u]) :=
          undecided_append.2 ⟨h.counting.undecided, undecided_cons_some.2 ⟨hu, by simp [Undecided]⟩⟩
        rw [verdict_of_undecided hundecided] at huse
        exact hgo (some u) _ huse
    · simp at hus

end members

lemma init_counting (s : Strategy) (n : ℕ) :
    Counting s false n (⟨s, 1, false, List.replicate n []⟩ : Submitter V E) [] where
  strategy := rfl
  flag := rfl
  undecided := by simp [Undecided]
  left _ := rfl
  incomplete _ := Nat.one_pos
  boxes _ := rfl

lemma init_open (s : Strategy) (n : ℕ) : Open s false n 0 (Shared.init s n : Shared V E) [] :=
  ⟨init_counting s n, rfl, rfl, Nat.one_pos⟩

end Continuable.Runtime
