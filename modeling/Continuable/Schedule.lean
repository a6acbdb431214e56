import Mathlib.Data.Finset.Card
import Mathlib.Data.Finset.Image
import Mathlib.Data.Finset.Range

/-!
State machines driven by a schedule.

A machine is a step function that does nothing on an action that is not possible. A run folds
it over a schedule, so every list of actions is a run. An invariant that every step preserves
holds after every run; one that only some steps preserve holds after the runs that take no
other steps.
-/

namespace Continuable.Schedule

variable {σ α : Type} (step : σ → α → σ)

def run (s : σ) (schedule : List α) : σ := schedule.foldl step s

@[simp] lemma run_nil (s : σ) : run step s [] = s := rfl

@[simp] lemma run_cons (s : σ) (a : α) (schedule : List α) :
    run step s (a :: schedule) = run step (step s a) schedule := rfl

lemma run_append (s : σ) (l m : List α) : run step s (l ++ m) = run step (run step s l) m :=
  List.foldl_append

lemma run_of_fixed {s : σ} {schedule : List α} (h : ∀ a ∈ schedule, step s a = s) :
    run step s schedule = s := by
  induction schedule with
  | nil => rfl
  | cons a rest ih =>
    obtain ⟨ha, hrest⟩ := List.forall_mem_cons.1 h
    rw [run_cons, ha, ih hrest]

/-- Every step of the run is taken in a state that allows it. -/
def Allowed (ok : σ → α → Prop) : σ → List α → Prop
  | _, [] => True
  | s, a :: schedule => ok s a ∧ Allowed ok (step s a) schedule

instance Allowed.decide (ok : σ → α → Prop) [∀ s a, Decidable (ok s a)] :
    (s : σ) → (schedule : List α) → Decidable (Allowed step ok s schedule)
  | _, [] => isTrue trivial
  | s, a :: schedule =>
    have := decide ok (step s a) schedule
    inferInstanceAs (Decidable (ok s a ∧ Allowed step ok (step s a) schedule))

lemma allowed_iff (ok : σ → α → Prop) (s : σ) (schedule : List α) :
    Allowed step ok s schedule ↔
      ∀ pre a post, schedule = pre ++ a :: post → ok (run step s pre) a := by
  induction schedule generalizing s with
  | nil => simp [Allowed]
  | cons b rest ih =>
    rw [Allowed, ih]
    constructor
    · rintro ⟨hb, hrest⟩ (_ | ⟨c, pre⟩) a post h
      · obtain ⟨rfl, -⟩ : b = a ∧ rest = post := by simpa using h
        exact hb
      · obtain ⟨rfl, hr⟩ : b = c ∧ rest = pre ++ a :: post := by simpa using h
        exact hrest pre a post hr
    · intro h
      exact ⟨h [] b rest rfl, fun pre a post hr => h (b :: pre) a post (by rw [hr]; rfl)⟩

lemma Allowed.initial {ok : σ → α → Prop} {s : σ} {pre post : List α}
    (h : Allowed step ok s (pre ++ post)) : Allowed step ok s pre := by
  rw [allowed_iff] at h ⊢
  intro l a m hl
  exact h l a (m ++ post) (by rw [hl]; simp)

variable {step}

/-- **The invariant rule** for runs whose steps are all allowed. -/
theorem run_preserves_of_allowed {ok : σ → α → Prop} {I : σ → Prop}
    (hstep : ∀ s a, I s → ok s a → I (step s a)) {s : σ} (hs : I s) (schedule : List α)
    (hok : Allowed step ok s schedule) : I (run step s schedule) := by
  induction schedule generalizing s with
  | nil => exact hs
  | cons a rest ih => exact ih (hstep s a hs hok.1) hok.2

/-- **The invariant rule.** -/
theorem run_preserves {I : σ → Prop} (hstep : ∀ s a, I s → I (step s a)) {s : σ} (hs : I s)
    (schedule : List α) : I (run step s schedule) := by
  induction schedule generalizing s with
  | nil => exact hs
  | cons a rest ih => exact ih (hstep s a hs)

/-- A run stays out of the bad states if and only if its steps are all allowed, where every other
step leads to one. -/
theorem avoids_iff_allowed {ok : σ → α → Prop} {I J bad : σ → Prop}
    (hI : ∀ s a, I s → I (step s a)) (hJ : ∀ s a, I s → J s → ok s a → J (step s a))
    (hgood : ∀ s, J s → ¬ bad s) (hbad : ∀ s a, I s → ¬ ok s a → bad (step s a)) {s : σ}
    (hs : I s) (hs' : J s) (schedule : List α) :
    (∀ pre post, schedule = pre ++ post → ¬ bad (run step s pre)) ↔
      Allowed step ok s schedule := by
  constructor
  · intro h
    rw [allowed_iff]
    intro pre a post hschedule
    by_contra hok
    refine h (pre ++ [a]) post (by rw [hschedule]; simp) ?_
    rw [run_append]
    exact hbad _ a (run_preserves hI hs pre) hok
  · rintro h pre post rfl
    have hrun := run_preserves_of_allowed (I := fun s => I s ∧ J s)
      (fun s a h hok => ⟨hI s a h.1, hJ s a h.1 h.2 hok⟩) ⟨hs, hs'⟩ pre h.initial
    exact hgood _ hrun.2

/-! ### What a run may come to -/

variable (step) in
/-- Some run of the actions that may be taken comes to a state that is fine. -/
def Reaches (may : α → Prop) (ok : σ → Prop) (s : σ) : Prop :=
  ∃ schedule, (∀ a ∈ schedule, may a) ∧ ok (run step s schedule)

namespace Reaches

variable {may : α → Prop} {ok ok' : σ → Prop} {s : σ}

lemma now (h : ok s) : Reaches step may ok s := ⟨[], by simp, h⟩

lemma of_step (a : α) (ha : may a) (h : Reaches step may ok (step s a)) :
    Reaches step may ok s := by
  obtain ⟨schedule, hmay, hs⟩ := h
  exact ⟨a :: schedule, List.forall_mem_cons.2 ⟨ha, hmay⟩, hs⟩

lemma trans (h : Reaches step may ok s) (hok : ∀ t, ok t → Reaches step may ok' t) :
    Reaches step may ok' s := by
  obtain ⟨first, hmay, hfirst⟩ := h
  obtain ⟨second, hmay', hsecond⟩ := hok _ hfirst
  refine ⟨first ++ second, fun a ha => ?_, by rw [run_append]; exact hsecond⟩
  exact (List.mem_append.1 ha).elim (hmay a) (hmay' a)

end Reaches

/-- **The rank rule**: where every step that changes the state lowers a rank, every run comes to
a state that nothing changes any more. -/
theorem reaches_fixed {may : α → Prop} {I : σ → Prop} (rank : σ → ℕ)
    (hstep : ∀ s a, I s → I (step s a))
    (hrank : ∀ s a, I s → may a → step s a ≠ s → rank (step s a) < rank s) {s : σ} (hs : I s) :
    Reaches step may (fun t => ∀ a, may a → step t a = t) s := by
  generalize hn : rank s = n
  induction n using Nat.strong_induction_on generalizing s with
  | _ n ih =>
    by_cases hfixed : ∀ a, may a → step s a = s
    · exact .now hfixed
    · push Not at hfixed
      obtain ⟨a, ha, hne⟩ := hfixed
      exact .of_step a ha (ih _ (hn ▸ hrank s a hs ha hne) (hstep s a hs) rfl)

/-! ### Counting threads

A counter often stands for the number of threads in some set of stages. -/

section counting

variable {ι β : Type} (threads : Finset ι) (stage : ι → β) (counts : β → Bool)

def tally : ℕ := (threads.filter fun t => counts (stage t)).card

variable {threads stage counts}

lemma tally_pos {t : ι} (ht : t ∈ threads) (hc : counts (stage t) = true) :
    0 < tally threads stage counts :=
  Finset.card_pos.2 ⟨t, Finset.mem_filter.2 ⟨ht, hc⟩⟩

lemma counts_of_tally_eq_zero (h : tally threads stage counts = 0) {t : ι} (ht : t ∈ threads) :
    counts (stage t) = false := by
  by_contra hc
  have := tally_pos ht (Bool.eq_true_of_not_eq_false hc)
  omega

variable [DecidableEq ι]

lemma tally_update {t : ι} {b : β} (hb : counts b = counts (stage t)) :
    tally threads (Function.update stage t b) counts = tally threads stage counts := by
  unfold tally
  congr 1
  refine Finset.filter_congr fun u _ => ?_
  by_cases hu : u = t
  · subst hu; rw [Function.update_self, hb]
  · rw [Function.update_of_ne hu]

lemma tally_update_of_leaves {t : ι} {b : β} (ht : t ∈ threads) (hc : counts (stage t) = true)
    (hb : counts b = false) :
    tally threads (Function.update stage t b) counts + 1 = tally threads stage counts := by
  unfold tally
  have herase : (threads.filter fun u => counts (Function.update stage t b u) = true) =
      (threads.filter fun u => counts (stage u) = true).erase t := by
    ext u
    by_cases hu : u = t
    · subst hu; simp [hb]
    · simp [hu]
  rw [herase]
  exact Finset.card_erase_add_one (Finset.mem_filter.2 ⟨ht, hc⟩)

lemma tally_insert {t : ι} (ht : t ∉ threads) (hc : counts (stage t) = true) :
    tally (insert t threads) stage counts = tally threads stage counts + 1 := by
  unfold tally
  rw [Finset.filter_insert, if_pos hc]
  exact Finset.card_insert_of_notMem fun h => ht (Finset.mem_of_mem_filter t h)

end counting

end Continuable.Schedule
