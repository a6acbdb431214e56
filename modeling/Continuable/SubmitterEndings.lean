import Continuable.RuntimeSubmitter
import Continuable.SubmitterOwners

/-!
How a connection ends.

The dispatch and the members take their steps in any order, on threads of their own. When nothing
owns the submitter any more, the downstream callback was used for what a decisive member resolved
to, whichever was the first, or for what all of the members come to together.
-/

namespace Continuable.SubmitterOwners

open Schedule Operators ChainDestruction
open Continuable.Runtime (Undecided Counting Answers decisive conclude verdict)

variable {V E : Type}

/-- What the members use their callbacks for. -/
def endings (members : List (Chain.Continuation V E)) : List (Use V E) :=
  members.map fun c => useOf c.outcome

/-- Every decisive member may settle the connection. -/
def Ends (strategy : Strategy) (us : List (Use V E)) (u : Use V E) : Prop :=
  (u ∈ us ∧ decisive strategy u = true) ∨
    ((∀ w ∈ us, decisive strategy w = false) ∧ u = conclude strategy us)

/-- What a member has used its callback for. -/
def status (us : List (Use V E)) (s : State V E) (k : ℕ) : Option (Use V E) :=
  if (s.pending k).isEmpty then us[k]? else none

/-- What the members that were started have used their callbacks for. -/
def statuses (us : List (Use V E)) (s : State V E) : List (Option (Use V E)) :=
  (List.range s.started).map (status us s)

/-- The dispatch is through. -/
def dispatched (s : State V E) : Bool := .dispatch ∉ s.owners

/-- Where the dispatch and the members are. -/
structure Threads (us : List (Use V E)) (s : State V E) : Prop where
  started : s.started ≤ us.length
  through : .dispatch ∉ s.owners → s.started = us.length
  pending : ∀ k, s.pending k = [] ∨ ∃ u, us[k]? = some u ∧ s.pending k = [u]
  waiting : ∀ k, s.started ≤ k → k < us.length → s.pending k ≠ []
  owned : ∀ k < s.started, s.pending k ≠ [] → .callback k ∈ s.owners
  owner : ∀ k, .callback k ∈ s.owners → k < s.started

/-- The submitter has kept count of the members, or it called the downstream callback. -/
def Kept (strategy : Strategy) (us : List (Use V E)) (s : State V E) : Prop :=
  Counting strategy (dispatched s) us.length s.submitter (statuses us s) ∨
    (s.submitter.flag = true ∧
      ∃ signal, s.uses = [.called signal] ∧ Ends strategy us (.called signal))

section verdicts

variable {strategy : Strategy} {us : List (Use V E)} {s : State V E}

lemma length_statuses : (statuses us s).length = s.started := by simp [statuses]

lemma exists_of_mem_statuses {u : Use V E} (h : some u ∈ statuses us s) : u ∈ us := by
  obtain ⟨k, -, hk⟩ := List.mem_map.1 h
  unfold status at hk
  split_ifs at hk
  exact List.mem_of_getElem? hk

lemma statuses_of_all (hstarted : s.started = us.length)
    (hall : (statuses us s).all Option.isSome = true) : statuses us s = us.map some := by
  refine List.ext_getElem (by simp [length_statuses, hstarted]) fun k hk hk' => ?_
  have hsome := List.all_eq_true.1 hall _ (List.getElem_mem hk)
  simp only [statuses, List.getElem_map, List.getElem_range] at hsome ⊢
  unfold status at hsome ⊢
  split_ifs at hsome ⊢
  · rw [List.getElem?_eq_getElem (by simpa using hk')]
  · cases hsome

lemma ends_of_verdict {ins : List (Option (Use V E))} {d : Bool}
    (hin : ∀ w, some w ∈ ins → w ∈ us)
    (hall : d = true → ins.all Option.isSome = true → ins = us.map some) {u : Use V E}
    (hv : verdict strategy d ins = some u) : Ends strategy us u := by
  rw [verdict] at hv
  cases hfind : (ins.filterMap id).find? (decisive strategy) with
  | some w =>
    rw [hfind, Option.some_or] at hv
    obtain rfl := Option.some.inj hv
    obtain ⟨i, hi, rfl⟩ := List.mem_filterMap.1 (List.mem_of_find?_eq_some hfind)
    exact .inl ⟨hin w hi, List.find?_some hfind⟩
  | none =>
    rw [hfind, Option.none_or] at hv
    split_ifs at hv with hthrough
    rw [Bool.and_eq_true] at hthrough
    have hus : ins.filterMap id = us := by
      rw [hall hthrough.1 hthrough.2, List.filterMap_map]
      exact List.filterMap_some
    rw [hus] at hfind hv
    refine .inr ⟨fun w hw => ?_, (Option.some.inj hv).symm⟩
    simpa using List.find?_eq_none.1 hfind w hw

lemma ends_of_statuses {d : Bool} (hd : d = true → s.started = us.length) {u : Use V E}
    (hv : verdict strategy d (statuses us s) = some u) : Ends strategy us u :=
  ends_of_verdict (fun _ => exists_of_mem_statuses) (fun h => statuses_of_all (hd h)) hv

end verdicts

/-! ### Steps -/

section threads

variable {us : List (Use V E)} {s : State V E} {k : ℕ}

lemma Threads.dispatched_iff (h : Threads us s) (hd : dispatched s = true) :
    s.started = us.length := h.through (of_decide_eq_true hd)

lemma Threads.start (h : Threads us s) (hd : .dispatch ∈ s.owners) (hlt : s.started < us.length)
    (t : Submitter V E) :
    Threads us { s with
      submitter := t
      owners := insert (.callback s.started) s.owners
      started := s.started + 1 } where
  started := hlt
  through hn := absurd (Finset.mem_insert_of_mem hd) hn
  pending := h.pending
  waiting k hk := h.waiting k (by simp only at hk; omega)
  owned k hk hp := by
    simp only at hk
    rcases Nat.lt_succ_iff_lt_or_eq.1 hk with hk | rfl
    · exact Finset.mem_insert_of_mem (h.owned k hk hp)
    · exact Finset.mem_insert_self _ _
  owner k hk := by
    rcases Finset.mem_insert.1 hk with hk | hk
    · cases hk
      exact Nat.lt_succ_self _
    · exact Nat.lt_succ_of_lt (h.owner k hk)

lemma Threads.releaseDispatch (h : Threads us s) (hstarted : s.started = us.length) :
    Threads us (s.release .dispatch) where
  started := h.started
  through _ := hstarted
  pending := h.pending
  waiting := h.waiting
  owned k hk hp := Finset.mem_erase_of_ne_of_mem nofun (h.owned k hk hp)
  owner k hk := h.owner k (Finset.mem_of_mem_erase hk)

lemma Threads.releaseCallback (h : Threads us s) (hk : s.pending k = []) :
    Threads us (s.release (.callback k)) where
  started := h.started
  through hn := h.through fun hd => hn (Finset.mem_erase_of_ne_of_mem nofun hd)
  pending := h.pending
  waiting := h.waiting
  owned j hj hp := by
    refine Finset.mem_erase_of_ne_of_mem (fun heq => hp ?_) (h.owned j hj hp)
    cases heq
    exact hk
  owner j hj := h.owner j (Finset.mem_of_mem_erase hj)

lemma Threads.use (h : Threads us s) (ho : .callback k ∈ s.owners) :
    Threads us { s with pending := Function.update s.pending k [] } where
  started := h.started
  through := h.through
  pending j := by
    by_cases hj : j = k
    · exact .inl (by simp only [hj, Function.update_self])
    · simp only [Function.update_of_ne hj]
      exact h.pending j
  waiting j hj hlt := by
    have hne : j ≠ k := by
      rintro rfl
      exact absurd (h.owner j ho) (Nat.not_lt.2 hj)
    simp only [Function.update_of_ne hne]
    exact h.waiting j hj hlt
  owned j hj hp := by
    have hne : j ≠ k := by
      rintro rfl
      exact hp (Function.update_self ..)
    simp only [Function.update_of_ne hne] at hp
    exact h.owned j hj hp
  owner := h.owner

lemma Threads.of_pending (h : Threads us s) {u : Use V E} {rest : List (Use V E)}
    (hp : s.pending k = u :: rest) : us[k]? = some u ∧ rest = [] := by
  rcases h.pending k with hnil | ⟨w, hw, hone⟩
  · rw [hp] at hnil
    cases hnil
  · rw [hp] at hone
    obtain ⟨rfl, rfl⟩ := List.cons.inj hone
    exact ⟨hw, rfl⟩

lemma statuses_start (hp : s.pending s.started ≠ []) (t : Submitter V E) (owners : Finset Owner) :
    statuses us { s with submitter := t, owners := owners, started := s.started + 1 } =
      statuses us s ++ [none] := by
  have hnone : status us s s.started = none := by
    rw [status, if_neg (by simpa using hp)]
  rw [statuses, List.range_succ, List.map_append, List.map_singleton]
  exact congrArg (statuses us s ++ [·]) hnone

lemma exists_statuses_use (hk : k < s.started) {u : Use V E} (hu : us[k]? = some u)
    (hp : s.pending k ≠ []) :
    ∃ P R, P.length = k ∧ statuses us s = P ++ none :: R ∧
      statuses us { s with pending := Function.update s.pending k [] } = P ++ some u :: R := by
  have hlength : k < (statuses us s).length := by rwa [length_statuses]
  have hnone : (statuses us s)[k] = none := by
    simp only [statuses, List.getElem_map, List.getElem_range]
    rw [status, if_neg (by simpa using hp)]
  have hset : statuses us { s with pending := Function.update s.pending k [] } =
      (statuses us s).set k (some u) := by
    refine List.ext_getElem (by simp [length_statuses]) fun j hj hj' => ?_
    rw [List.getElem_set]
    simp only [statuses, List.getElem_map, List.getElem_range]
    by_cases hkj : k = j
    · subst hkj
      simp only [status, Function.update_self, List.isEmpty_nil, if_true, hu]
    · simp only [status, Function.update_of_ne (Ne.symm hkj), if_neg hkj]
  refine ⟨(statuses us s).take k, (statuses us s).drop (k + 1), ?_, ?_, ?_⟩
  · rw [List.length_take]
    omega
  · rw [← hnone, List.getElem_cons_drop, List.take_append_drop]
  · rw [hset, List.set_eq_take_append_cons_drop, if_pos hlength]

end threads

section kept

variable {strategy : Strategy} {us : List (Use V E)} {s : State V E} {k : ℕ}

lemma dispatched_of_mem (h : .dispatch ∈ s.owners) : dispatched s = false := by
  simp [dispatched, h]

lemma dispatched_release (k : ℕ) : dispatched (s.release (.callback k)) = dispatched s := by
  simp [dispatched, State.release]

lemma dispatched_releaseDispatch : dispatched (s.release .dispatch) = true := by
  simp [dispatched, State.release]

lemma Inv.uses_nil (h : Inv s) (hflag : s.submitter.flag = false) {o : Owner} (ho : o ∈ s.owners) :
    s.uses = [] := by
  rcases h with ⟨hset, -⟩ | ⟨-, huses⟩
  · rw [hflag] at hset
    cases hset
  · rw [huses, if_neg (Finset.ne_empty_of_mem ho)]

lemma submit_of_answers {d : Bool} {r : Submitter V E × Option (Signal V E)}
    (hr : Answers strategy d us.length (statuses us s) r)
    (hd : d = true → s.started = us.length) (huses : s.uses = []) :
    Counting strategy d us.length (s.submit r).submitter (statuses us (s.submit r)) ∨
      ((s.submit r).submitter.flag = true ∧
        ∃ signal, (s.submit r).uses = [.called signal] ∧ Ends strategy us (.called signal)) := by
  obtain ⟨t, answer⟩ := r
  cases answer with
  | none => exact .inl hr
  | some signal =>
    obtain ⟨-, hflag, hv⟩ := hr
    exact .inr ⟨hflag, signal, by simp [State.submit, huses], ends_of_statuses hd hv⟩

lemma submit_of_flag {r : Submitter V E × Option (Signal V E)} (hr : r.1.flag = true ∧ r.2 = none)
    {u : Use V E} (huses : s.uses = [u]) :
    (s.submit r).submitter.flag = true ∧ (s.submit r).uses = [u] :=
  ⟨hr.1, by simp [State.submit, hr.2, huses]⟩

lemma release_of_flag (hflag : s.submitter.flag = true) {u : Use V E} (huses : s.uses = [u])
    (o : Owner) : (s.release o).submitter.flag = true ∧ (s.release o).uses = [u] :=
  ⟨hflag, by simp [State.release, hflag, huses]⟩

lemma kept_of_flag {signal : Signal V E}
    (h : s.submitter.flag = true ∧ s.uses = [.called signal])
    (hends : Ends strategy us (.called signal)) : Kept strategy us s :=
  .inr ⟨h.1, signal, h.2, hends⟩

lemma Kept.releaseCallback (h : Kept strategy us s) (k : ℕ) :
    Kept strategy us (s.release (.callback k)) := by
  rcases h with hcounting | ⟨hflag, signal, huses, hends⟩
  · left
    rw [dispatched_release]
    exact hcounting
  · exact kept_of_flag (release_of_flag hflag huses _) hends

lemma dispatch_kept (hi : Inv s) (ht : Threads us s) (h : Kept strategy us s)
    (hd : .dispatch ∈ s.owners) : Kept strategy us (s.dispatch us.length) := by
  have hfalse := dispatched_of_mem hd
  unfold State.dispatch
  split_ifs with hlt
  · rcases h with hcounting | ⟨hflag, signal, huses, hends⟩
    · left
      rw [hfalse] at hcounting
      have hmem : .dispatch ∈ insert (.callback s.started) s.owners := Finset.mem_insert_of_mem hd
      rw [statuses_start (ht.waiting _ (Nat.le_refl _) hlt), dispatched_of_mem hmem]
      exact hcounting.createCallback (by rwa [length_statuses])
    · exact kept_of_flag ⟨(createCallback_flag _).trans hflag, huses⟩ hends
  · have hstarted : s.started = us.length := by
      have := ht.started
      omega
    rcases h with hcounting | ⟨hflag, signal, huses, hends⟩
    · rw [hfalse] at hcounting
      rcases submit_of_answers (hcounting.accept (by rw [length_statuses, hstarted]))
        (fun _ => hstarted) (hi.uses_nil hcounting.flag hd) with
        hcounting' | ⟨hflag, signal, huses, hends⟩
      · left
        rw [dispatched_releaseDispatch]
        exact hcounting'
      · exact kept_of_flag (release_of_flag hflag huses _) hends
    · have hsubmit := submit_of_flag (Runtime.accept_of_flag hflag) huses
      exact kept_of_flag (release_of_flag hsubmit.1 hsubmit.2 _) hends

lemma member_kept (hi : Inv s) (ht : Threads us s) (h : Kept strategy us s)
    (ho : .callback k ∈ s.owners) : Kept strategy us (s.member k) := by
  have hstarted := ht.owner k ho
  unfold State.member
  cases hp : s.pending k with
  | nil => exact h.releaseCallback k
  | cons u rest =>
    obtain ⟨hu, rfl⟩ := ht.of_pending hp
    obtain ⟨P, R, hlength, hbefore, hafter⟩ :=
      exists_statuses_use hstarted hu (by rw [hp]; exact List.cons_ne_nil _ _)
    cases u with
    | called signal =>
      rcases h with hcounting | ⟨hflag, signal', huses, hends⟩
      · have huses := hi.uses_nil hcounting.flag ho
        have hn : (P ++ none :: R).length = us.length ∨ dispatched s = false := by
          rw [← hbefore, length_statuses]
          cases hd : dispatched s with
          | false => exact .inr rfl
          | true => exact .inl (ht.dispatched_iff hd)
        rw [hbefore] at hcounting
        have hanswers := hcounting.receive hn signal
        rw [hlength, ← hafter] at hanswers
        exact submit_of_answers hanswers ht.dispatched_iff huses
      · exact kept_of_flag (submit_of_flag (Runtime.receive_of_flag hflag k signal) huses) hends
    | destroyed =>
      refine Kept.releaseCallback (s := { s with pending := Function.update s.pending k [] }) ?_ k
      rcases h with hcounting | ⟨hflag, signal, huses, hends⟩
      · left
        rw [hbefore] at hcounting
        rw [hafter]
        exact hcounting.destroyed
      · exact .inr ⟨hflag, signal, huses, hends⟩

lemma step_threads (ht : Threads us s) (a : Action) : Threads us (step us.length s a) := by
  cases a with
  | dispatch =>
    rw [step]
    split_ifs with hd
    · unfold State.dispatch
      split_ifs with hlt
      · exact ht.start hd hlt _
      · have hsubmit : Threads us (s.submit s.submitter.accept) :=
          ⟨ht.started, ht.through, ht.pending, ht.waiting, ht.owned, ht.owner⟩
        have := ht.started
        exact hsubmit.releaseDispatch (by simp only [State.submit]; omega)
    · exact ht
  | member k =>
    rw [step]
    split_ifs with ho
    · unfold State.member
      cases hp : s.pending k with
      | nil => exact ht.releaseCallback hp
      | cons u rest =>
        obtain ⟨-, rfl⟩ := ht.of_pending hp
        have huse := ht.use ho
        cases u with
        | called signal =>
          exact ⟨huse.started, huse.through, huse.pending, huse.waiting, huse.owned, huse.owner⟩
        | destroyed => exact huse.releaseCallback (Function.update_self ..)
    · exact ht

lemma step_kept (hi : Inv s) (ht : Threads us s) (h : Kept strategy us s) (a : Action) :
    Kept strategy us (step us.length s a) := by
  cases a with
  | dispatch =>
    rw [step]
    split_ifs with hd
    · exact dispatch_kept hi ht h hd
    · exact h
  | member k =>
    rw [step]
    split_ifs with ho
    · exact member_kept hi ht h ho
    · exact h

end kept

/-! ### Runs -/

section runs

variable {strategy : Strategy} {members : List (Chain.Continuation V E)}

lemma init_pending (strategy : Strategy) (members : List (Chain.Continuation V E)) (k : ℕ) :
    (init strategy members).pending k = (endings members)[k]?.toList := by
  simp only [init, endings, List.getD_eq_getElem?_getD, List.getElem?_map]
  cases members[k]? with
  | none => rfl
  | some c => exact handlerUses_eq c

lemma init_threads (strategy : Strategy) (members : List (Chain.Continuation V E)) :
    Threads (endings members) (init strategy members) where
  started := Nat.zero_le _
  through h := absurd (Finset.mem_singleton_self _) h
  pending k := by
    rw [init_pending]
    cases hk : (endings members)[k]? with
    | none => exact .inl rfl
    | some u => exact .inr ⟨u, rfl, rfl⟩
  waiting k _ hk := by
    rw [init_pending, List.getElem?_eq_getElem hk]
    exact List.cons_ne_nil _ _
  owned k hk := absurd hk (Nat.not_lt_zero k)
  owner k hk := by simp [init] at hk

lemma init_kept (strategy : Strategy) (members : List (Chain.Continuation V E)) :
    Kept strategy (endings members) (init strategy members) := by
  have hboxes : members.map (fun _ => ([] : List V)) =
      List.replicate (endings members).length [] := by
    rw [List.map_const', endings, List.length_map]
  left
  rw [init, hboxes]
  exact Runtime.init_counting strategy _

/-- **What every run keeps.** -/
theorem runConnection_kept (strategy : Strategy) (members : List (Chain.Continuation V E))
    (schedule : List Action) :
    Threads (endings members) (runConnection strategy members schedule) ∧
      Kept strategy (endings members) (runConnection strategy members schedule) := by
  have hlength : members.length = (endings members).length := (List.length_map ..).symm
  have hstep : ∀ (s : State V E) a,
      Inv s ∧ Threads (endings members) s ∧ Kept strategy (endings members) s →
        Inv (step members.length s a) ∧ Threads (endings members) (step members.length s a) ∧
          Kept strategy (endings members) (step members.length s a) := by
    intro s a h
    rw [hlength]
    exact ⟨step_inv h.1 a, step_threads h.2.1 a, step_kept h.1 h.2.1 h.2.2 a⟩
  exact (run_preserves hstep
    ⟨init_inv strategy members, init_threads strategy members, init_kept strategy members⟩
    schedule).2

lemma ends_of_finished {schedule : List Action} {u : Use V E}
    (h : (runConnection strategy members schedule).owners = ∅)
    (hu : (runConnection strategy members schedule).uses = [u]) :
    Ends strategy (endings members) u := by
  have hinv := runConnection_inv strategy members schedule
  obtain ⟨hthreads, hkept⟩ := runConnection_kept strategy members schedule
  generalize runConnection strategy members schedule = s at *
  rcases hkept with hcounting | ⟨-, signal, huses, hends⟩
  · have hdispatched : dispatched s = true := by simp [dispatched, h]
    have hstarted := hthreads.dispatched_iff hdispatched
    have hall : (statuses (endings members) s).all Option.isSome = true := by
      rw [List.all_eq_true]
      intro o ho
      obtain ⟨k, hk, rfl⟩ := List.mem_map.1 ho
      rw [List.mem_range] at hk
      have hpending : s.pending k = [] := by
        by_contra hp
        have howner := hthreads.owned k hk hp
        rw [h] at howner
        cases howner
      rw [status, hpending, List.getElem?_eq_getElem (by omega)]
      rfl
    have hstatuses := statuses_of_all hstarted hall
    have hfilter : ((endings members).map some).filterMap id = endings members := by
      rw [List.filterMap_map]
      exact List.filterMap_some
    rw [hdispatched] at hcounting
    have hconclude := hcounting.conclude hall
    have hundecided := hcounting.undecided
    rw [hstatuses] at hconclude hundecided
    rw [hfilter] at hconclude
    -- the callback was destroyed with the submitter
    have hdestroyed : u = .destroyed := by
      rcases hinv with ⟨hset, -⟩ | ⟨-, huses⟩
      · rw [hcounting.flag] at hset
        cases hset
      · rw [hu, if_pos h] at huses
        exact (List.cons.inj huses).1
    refine .inr ⟨fun w hw => hundecided w (List.mem_map_of_mem hw), ?_⟩
    rw [hconclude, hdestroyed]
  · rw [hu] at huses
    rw [(List.cons.inj huses).1]
    exact hends

lemma run_dispatches (strategy : Strategy) (members : List (Chain.Continuation V E)) {j : ℕ}
    (hj : j ≤ members.length) :
    (runConnection strategy members (List.replicate j .dispatch)).started = j ∧
      (runConnection strategy members (List.replicate j .dispatch)).pending =
        (init strategy members).pending ∧
      .dispatch ∈ (runConnection strategy members (List.replicate j .dispatch)).owners ∧
      (runConnection strategy members (List.replicate j .dispatch)).submitter.flag = false := by
  induction j with
  | zero => exact ⟨rfl, rfl, Finset.mem_singleton_self _, rfl⟩
  | succ j ih =>
    obtain ⟨hstarted, hpending, hd, hflag⟩ := ih (by omega)
    rw [runConnection, List.replicate_succ', run_append, ← runConnection]
    generalize runConnection strategy members (List.replicate j .dispatch) = s at *
    rw [run_cons, run_nil, step, if_pos hd, State.dispatch, if_pos (by omega)]
    exact ⟨by simp only [hstarted], hpending, Finset.mem_insert_of_mem hd,
      (createCallback_flag _).trans hflag⟩

lemma step_of_flag {n : ℕ} {s : State V E} {u : Use V E}
    (h : s.submitter.flag = true ∧ s.uses = [u]) (a : Action) :
    (step n s a).submitter.flag = true ∧ (step n s a).uses = [u] := by
  obtain ⟨hflag, huses⟩ := h
  cases a with
  | dispatch =>
    rw [step]
    split_ifs
    · unfold State.dispatch
      split_ifs
      · exact ⟨(createCallback_flag _).trans hflag, huses⟩
      · have hsubmit := submit_of_flag (Runtime.accept_of_flag hflag) huses
        exact release_of_flag hsubmit.1 hsubmit.2 _
    · exact ⟨hflag, huses⟩
  | member k =>
    rw [step]
    split_ifs
    · unfold State.member
      cases s.pending k with
      | nil => exact release_of_flag hflag huses _
      | cons use rest =>
        cases use with
        | called signal => exact submit_of_flag (Runtime.receive_of_flag hflag k signal) huses
        | destroyed => exact release_of_flag hflag huses _
    · exact ⟨hflag, huses⟩

/-- A decisive member may be the first to use its callback. -/
lemma exists_of_decisive {u : Use V E} (hu : u ∈ endings members)
    (hdecisive : decisive strategy u = true) :
    ∃ schedule, (runConnection strategy members schedule).owners = ∅ ∧
      (runConnection strategy members schedule).uses = [u] := by
  obtain ⟨k, hk, rfl⟩ := List.mem_iff_getElem.1 hu
  obtain ⟨signal, hsignal⟩ : ∃ signal, (endings members)[k] = .called signal := by
    cases hc : (endings members)[k] with
    | called signal => exact ⟨signal, rfl⟩
    | destroyed =>
      rw [hc] at hdecisive
      cases strategy <;> cases hdecisive
  rw [hsignal] at hdecisive ⊢
  have hget : (endings members)[k]? = some (.called signal) := by
    rw [List.getElem?_eq_getElem hk, hsignal]
  have hlength : (endings members).length = members.length := List.length_map ..
  obtain ⟨hstarted, hpending, hd, hflag⟩ := run_dispatches strategy members (Nat.le_refl _)
  obtain ⟨hthreads, hkept⟩ :=
    runConnection_kept strategy members (List.replicate members.length .dispatch)
  have hinv := runConnection_inv strategy members (List.replicate members.length .dispatch)
  -- the member uses its callback
  have hcalled : (runConnection strategy members
        (List.replicate members.length .dispatch ++ [.member k])).submitter.flag = true ∧
      (runConnection strategy members
        (List.replicate members.length .dispatch ++ [.member k])).uses = [.called signal] := by
    rw [runConnection, run_append, ← runConnection]
    generalize runConnection strategy members (List.replicate members.length .dispatch) = s at *
    have hp : s.pending k = [.called signal] := by rw [hpending, init_pending, hget]; rfl
    have hne : s.pending k ≠ [] := by rw [hp]; exact List.cons_ne_nil _ _
    have ho := hthreads.owned k (by omega) hne
    have huses := hinv.uses_nil hflag hd
    rcases hkept with hcounting | ⟨hset, -⟩
    · obtain ⟨P, R, hP, hbefore, -⟩ := exists_statuses_use (by omega) hget hne
      rw [hbefore, dispatched_of_mem hd] at hcounting
      obtain ⟨t, hreceive, -, ht⟩ := hcounting.decisive (.inr rfl) hdecisive
      rw [hP] at hreceive
      rw [run_cons, run_nil, step, if_pos ho, State.member, hp]
      simp only [hreceive]
      exact ⟨ht, by simp [State.submit, huses]⟩
    · rw [hflag] at hset
      cases hset
  obtain ⟨more, hmore⟩ := exists_finished strategy members
    (List.replicate members.length .dispatch ++ [.member k])
  refine ⟨_, hmore, ?_⟩
  rw [runConnection, run_append]
  exact (run_preserves (I := fun s : State V E => s.submitter.flag = true ∧
    s.uses = [.called signal]) (fun _ a h => step_of_flag h a) hcalled more).2

lemma exists_of_ends {u : Use V E} (h : Ends strategy (endings members) u) :
    ∃ schedule, (runConnection strategy members schedule).owners = ∅ ∧
      (runConnection strategy members schedule).uses = [u] := by
  rcases h with ⟨hu, hdecisive⟩ | ⟨hnone, rfl⟩
  · exact exists_of_decisive hu hdecisive
  · obtain ⟨more, hmore⟩ := exists_finished strategy members []
    obtain ⟨o, ho⟩ := uses_of_finished strategy members ([] ++ more) hmore
    refine ⟨_, hmore, ?_⟩
    rcases ends_of_finished hmore ho with ⟨hmem, hdecisive⟩ | ⟨-, hconclude⟩
    · rw [hnone _ hmem] at hdecisive
      cases hdecisive
    · rw [ho, hconclude]

end runs

end Continuable.SubmitterOwners
