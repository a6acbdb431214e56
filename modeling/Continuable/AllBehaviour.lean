import Continuable.AllProgress

/-!
What the downstream callback of an `all` connection sees.
-/

namespace Continuable.All

open Schedule

variable {V E : Type}

lemma tally_threads (c : ℕ) (stage : Thread → Stage) :
    tally (threads c) stage Stage.counts =
      ((Finset.range c).filter fun i => (stage (.member i)).counts = true).card +
        if (stage .dispatcher).counts = true then 1 else 0 := by
  have hmembers : (((Finset.range c).image Thread.member).filter fun t =>
      (stage t).counts = true).card =
      ((Finset.range c).filter fun i => (stage (.member i)).counts = true).card := by
    rw [Finset.filter_image]
    exact Finset.card_image_of_injective _ fun i j hij => by simpa using hij
  unfold tally threads
  rw [Finset.filter_insert]
  split_ifs with hd
  · rw [Finset.card_insert_of_notMem (by simp), hmembers]
  · rw [hmembers, Nat.add_zero]

/-- What became of a connection of `n` members, by how they resolved. -/
structure Completed (n : ℕ) (s : State V E) : Prop where
  accepted : s.started = n ∧ s.stage .dispatcher = .finished
  left_eq : s.left =
    ((Finset.range n).filter fun i => !(s.resolution i matches some (.value _))).card
  values_iff : (∃ bs, .values bs ∈ s.calls) ↔ ∀ i < n, ∃ vs, s.resolution i = some (.value vs)
  exception_iff : (∃ e, .exception e ∈ s.calls) ↔
    ∃ i < n, ∃ e, s.resolution i = some (.exception e)

/-- What holds of a connection of `n` members at any time. -/
structure Behaves (n : ℕ) (s : State V E) : Prop where
  /-- The counter counts the created callbacks that are not completed with values, plus one
  until the connection is accepted. -/
  left_eq : s.left =
    ((Finset.range s.created).filter fun i => (s.stage (.member i)).counts = true).card +
      if (s.stage .dispatcher).counts = true then 1 else 0
  asserts : s.asserts = true
  calls_le : s.calls.length ≤ 1
  /-- Values are passed on exactly when dispatch and every member finished. -/
  values_iff : (∃ bs, .values bs ∈ s.calls) ↔
    s.stage .dispatcher = .finished ∧ ∀ i < n, s.stage (.member i) = .finished
  /-- A member that finished resolved with values and assigned them to its own box. -/
  finished : ∀ i, s.stage (.member i) = .finished →
    ∃ vs, s.resolution i = some (.value vs) ∧ s.boxes i = some vs
  /-- The values are those of the members, in the order of the pack. -/
  values_eq : ∀ bs, .values bs ∈ s.calls → ∃ vs : ℕ → List V,
    (∀ i < n, s.resolution i = some (.value (vs i))) ∧
      bs = (List.range n).map fun i => some (vs i)
  /-- A member whose callback ran with an exception passed it on. -/
  raised : ∀ i e, s.resolution i = some (.exception e) → s.stage (.member i) ≠ .idle →
    e ∈ s.raised
  /-- The callback gets the first exception that is passed on, and only that. -/
  first : ∀ e rest, s.raised = e :: rest → s.calls = [.exception e]
  exception : ∀ e, .exception e ∈ s.calls →
    (∃ rest, s.raised = e :: rest) ∧ ∃ i < n, s.resolution i = some (.exception e)
  /-- By itself the connection comes to where only resolutions are left. -/
  settles : ∃ more, (∀ a ∈ more, Internal a) ∧ Settled n (run (step n) s more)
  /-- There the dispatch has ended, and the callback was called if the resolutions say so. -/
  settled : Settled n s → Completed n s

section behaviour

variable {n : ℕ} {s : State V E}

lemma Inv.calls_le (h : Inv n s) : s.calls.length ≤ 1 := by
  rcases h.phase with ⟨-, -, hvalues⟩ | ⟨-, -, -, -, hcalls⟩ | ⟨-, -, hcalls⟩
  · cases hr : s.raised with
    | nil => rw [h.calls_eq_nil hvalues hr]; simp
    | cons e rest => rw [h.first e rest hr]; simp
  · simp [hcalls]
  · simp [hcalls]

lemma Inv.closed (h : Inv n s) {bs : List (Option (List V))} (hbs : .values bs ∈ s.calls) :
    s.left = 0 ∧ (∀ t, (s.stage t).closing = false) ∧ bs = (List.range n).map s.boxes := by
  rcases h.phase with ⟨-, -, hcalls⟩ | ⟨-, -, -, -, hcalls⟩ | ⟨hleft, hidle, hcalls⟩
  · exact absurd hbs (hcalls bs)
  · rw [hcalls] at hbs; cases hbs
  · rw [hcalls, List.mem_singleton] at hbs
    exact ⟨hleft, hidle, by simpa using hbs⟩

lemma Stage.eq_finished {g : Stage} (hc : g.counts = false) (hg : g.closing = false) :
    g = .finished := by
  cases g <;> simp_all [Stage.counts, Stage.closing]

lemma Inv.values_of_finished (h : Inv n s) (hd : s.stage .dispatcher = .finished)
    (hm : ∀ i < n, s.stage (.member i) = .finished) : ∃ bs, .values bs ∈ s.calls := by
  have hthreads : ∀ t ∈ threads s.created, s.stage t = .finished := by
    intro t ht
    cases t with
    | dispatcher => exact hd
    | member i =>
      rw [member_mem_threads] at ht
      have := h.created_le
      exact hm i (by omega)
  rcases h.phase with ⟨hleft, -, -⟩ | ⟨t, -, ht, -, -⟩ | ⟨-, -, hcalls⟩
  · rw [h.left_eq, tally, Finset.card_pos] at hleft
    obtain ⟨t, ht⟩ := hleft
    obtain ⟨hmem, hc⟩ := Finset.mem_filter.1 ht
    rw [hthreads t hmem] at hc
    cases hc
  · have hmem := h.mem_threads (t := t) (by rintro hi; rw [hi] at ht; cases ht)
    rw [hthreads t hmem] at ht
    cases ht
  · exact ⟨(List.range n).map s.boxes, by rw [hcalls]; exact List.mem_singleton_self _⟩

/-- An exception that the callback is called with is the first that was passed on. -/
lemma Inv.exception (h : Inv n s) {e : Option E} (he : .exception e ∈ s.calls) :
    (∃ rest, s.raised = e :: rest) ∧ ∃ i < n, s.resolution i = some (.exception e) := by
  obtain ⟨e', rest, hr⟩ := List.exists_cons_of_ne_nil (h.thrown e he)
  have hcalls := h.first e' rest hr
  rw [hcalls, List.mem_singleton] at he
  obtain rfl : e = e' := by simpa using he
  obtain ⟨i, hres, -⟩ := h.raiser e (by rw [hr]; exact List.mem_cons_self)
  have hi := h.resolved i (by rw [hres]; simp)
  have := h.started_le
  have := h.created_le
  exact ⟨⟨rest, hr⟩, i, by omega, hres⟩

lemma Inv.completed (h : Inv n s) (hs : Settled n s) : Completed n s := by
  obtain ⟨hcreated, hstarted, hdispatched⟩ := dispatched_of_settled h hs
  refine ⟨⟨hstarted, hdispatched⟩, ?_, ⟨?_, fun hall => ?_⟩, ⟨?_, ?_⟩⟩
  · rw [h.left_eq, tally_threads, hcreated, hdispatched]
    have hcounts : ∀ i, (s.stage (.member i)).counts =
        !(s.resolution i matches some (.value _)) := by
      intro i
      rcases member_of_settled h hs i with ⟨hm, hres⟩ | ⟨hm, vs, hres⟩ | ⟨hm, e, hres, -⟩ <;>
        rw [hm, hres] <;> rfl
    rw [if_neg (by decide), Nat.add_zero]
    simp only [hcounts]
  · rintro ⟨bs, hbs⟩ i hi
    obtain ⟨hleft, -, -⟩ := h.closed hbs
    obtain ⟨vs, hres, -⟩ := ((h.all_assigned hleft).2.2.2 i hi).2
    exact ⟨vs, hres⟩
  · refine h.values_of_finished hdispatched fun i hi => ?_
    obtain ⟨vs, hvs⟩ := hall i hi
    rcases member_of_settled h hs i with ⟨-, hres⟩ | ⟨hm, -⟩ | ⟨-, e, hres, -⟩
    · rw [hvs] at hres; cases hres
    · exact hm
    · rw [hvs] at hres; cases hres
  · rintro ⟨e, he⟩
    obtain ⟨-, i, hi, hres⟩ := h.exception he
    exact ⟨i, hi, e, hres⟩
  · rintro ⟨i, -, e, he⟩
    rcases member_of_settled h hs i with ⟨-, hres⟩ | ⟨-, vs, hres⟩ | ⟨-, e', -, hraised⟩
    · rw [he] at hres; cases hres
    · rw [he] at hres; cases hres
    · obtain ⟨e₀, rest, hr⟩ := List.exists_cons_of_ne_nil (List.ne_nil_of_mem hraised)
      exact ⟨e₀, by rw [h.first e₀ rest hr]; exact List.mem_singleton_self _⟩

lemma Inv.behaves (h : Inv n s) : Behaves n s where
  left_eq := h.left_eq.trans (tally_threads _ _)
  asserts := h.asserts
  calls_le := h.calls_le
  values_iff := by
    constructor
    · rintro ⟨bs, hbs⟩
      obtain ⟨hleft, hidle, -⟩ := h.closed hbs
      obtain ⟨hdisp, -, -, hmembers⟩ := h.all_assigned hleft
      exact ⟨Stage.eq_finished hdisp (hidle _),
        fun i hi => Stage.eq_finished (hmembers i hi).1 (hidle _)⟩
    · rintro ⟨hd, hm⟩
      exact h.values_of_finished hd hm
  finished := fun i hi => h.box_assigned (by simp [hi]) (by simp [hi]) i rfl
  values_eq := by
    intro bs hbs
    obtain ⟨hleft, -, rfl⟩ := h.closed hbs
    obtain ⟨-, -, -, hmembers⟩ := h.all_assigned hleft
    choose! vs hvs using fun i hi => (hmembers i hi).2
    refine ⟨vs, fun i hi => (hvs i hi).1, List.map_congr_left fun i hi => ?_⟩
    exact (hvs i (List.mem_range.1 hi)).2
  raised := by
    intro i e hres hidle
    rcases h.ran i hidle with ⟨-, e', he', hmem⟩ | ⟨-, vs, hvs, -⟩
    · obtain rfl : e' = e := by rw [hres] at he'; simpa using he'.symm
      exact hmem
    · rw [hres] at hvs; cases hvs
  first := h.first
  exception := fun e he => h.exception he
  settles := reaches_settled h
  settled := h.completed

end behaviour

/-- **An `all` connection under every interleaving**: the counter is exact, no assertion fails,
the downstream callback is called at most once, with the values of all members in pack order
or with the first exception, and by itself every run comes to where it was called if all members
resolved with values or one with an exception. -/
theorem runAll_behaves (n : ℕ) (schedule : List (Action V E)) : Behaves n (runAll n schedule) :=
  (runAll_inv n schedule).behaves

end Continuable.All
