import Continuable.HandleCustody

/-!
What became of every source continuation after a run over continuable handles.

Only the move assignment onto an acquired handle that is not frozen loses a source.
-/

namespace Continuable.Handles

open Schedule Custody

variable {place : ℕ → Place} {s : State} {i j : ℕ} {g h h' : Handle} {l : List ℕ}

/-! ### Lost sources -/

def Lost (place : ℕ → Place) : Prop := ∃ x, place x = .gone .lost

lemma lost_relocate {p : Place} (hp : p ≠ .gone .lost) :
    Lost (relocate place i p) ↔ Lost place := by
  refine exists_congr fun x => ?_
  unfold relocate
  split_ifs with hx
  · simp [hx, hp]
  · rfl

lemma lost_relocate_lost {x : ℕ} (hx : place x = .held i) :
    Lost (relocate place i (.gone .lost)) :=
  ⟨x, if_pos hx⟩

lemma lost_update {x : ℕ} (hx : place x = .unborn) :
    Lost (Function.update place x (.held i)) ↔ Lost place := by
  refine exists_congr fun y => ?_
  by_cases hy : y = x
  · subst hy; simp [hx]
  · rw [Function.update_of_ne hy]

/-! ### Steps and runs -/

lemma assign_step_inv (hs : Inv place s) (hj : s.handles j = some g) (hi : s.handles i = some h)
    (hji : j ≠ i) : ∃ place', Inv place' (step s (.assign j i)) ∧
      (Lost place' ↔ Lost place ∨ g.ownership.invokesOnDestruction = true) := by
  obtain ⟨place₁, hs₁, hlost⟩ : ∃ place₁, Inv place₁ ((s.lapse g).set j none) ∧
      (Lost place₁ ↔ Lost place ∨ g.ownership.invokesOnDestruction = true) := by
    by_cases hd : g.ownership.invokesOnDestruction = true
    · have hlapse : s.lapse g = s := by
        obtain ⟨⟨a, f⟩, d⟩ := g
        cases f with
        | false => simp [State.lapse]
        | true => simp [Ownership.invokesOnDestruction] at hd
      have ha := Ownership.acquired_of_invokes hd
      obtain ⟨x, hx⟩ := Option.ne_none_iff_exists'.1 (hs.sound.filled j g hj ha)
      have hheld : place x = .held j := (hs.tracks.held x j).2 (by rw [view_content hj, hx])
      rw [hlapse]
      exact ⟨_, leave_lost_inv hs hj, by simp [hd, lost_relocate_lost hheld]⟩
    · exact ⟨_, leave_released_inv hs hj (Bool.eq_false_of_not_eq_true hd),
        by simp [hd, lost_relocate]⟩
  have hnext : (s.lapse g).next = s.next := by unfold State.lapse; split_ifs <;> rfl
  have hhandles : (s.lapse g).handles = s.handles := by unfold State.lapse; split_ifs <;> rfl
  have hi₁ : ((s.lapse g).set j none).handles i = some h := by
    simp only [State.set, hhandles]
    rw [Function.update_of_ne hji.symm, hi]
  have hassign := assign_inv hs₁ hi₁ (by rw [State.set, hnext]; exact hs.sound.lt_next hj) hji
    (by simp [view, State.set])
  refine ⟨relocate place₁ i (.held j), ?_, (lost_relocate (by simp)).trans hlost⟩
  simp only [State.set, Function.update_idem] at hassign
  simp only [step, hj, hi, if_neg hji, State.set]
  exact hassign

/-- What every step preserves: the sources are tracked, and only the steps that overwrite lose
one. -/
lemma step_inv (hs : Inv place s) (op : Op) :
    ∃ place', Inv place' (step s op) ∧ (Lost place' ↔ Lost place ∨ Overwrites s op) := by
  have hsame : ¬ Overwrites s op → step s op = s →
      ∃ place', Inv place' (step s op) ∧ (Lost place' ↔ Lost place ∨ Overwrites s op) := by
    intro hno h
    exact ⟨place, by rw [h]; exact hs, by simp [hno]⟩
  cases op with
  | create =>
    have hunborn : place s.sources = .unborn := (hs.tracks.unborn _).2 (Nat.le_refl _)
    exact ⟨_, create_inv hs, by simp [Overwrites, lost_update hunborn]⟩
  | move i | finish i =>
    cases hi : s.handles i with
    | none => exact hsame id (by simp [step, hi])
    | some h =>
      have := pass_inv hs hi (Handle.moved_fst_content h) id
        (show h.moved.2.ownership.acquired = false from rfl)
      exact ⟨relocate place i (.held s.next), by simpa only [step, hi] using this,
        by simp [Overwrites, lost_relocate]⟩
  | convert i =>
    cases hc : (s.handles i).bind Handle.convert with
    | none => exact hsame id (by simp [step, hc])
    | some r =>
      obtain ⟨h, hi, hr⟩ := Option.bind_eq_some_iff.1 hc
      obtain ⟨hg, ha, hr'⟩ := Handle.convert_cases hr
      have := pass_inv hs hi hg (fun _ => ha) hr'
      exact ⟨relocate place i (.held s.next), by simpa only [step, hc] using this,
        by simp [Overwrites, lost_relocate]⟩
  | attach i =>
    cases hc : (s.handles i).bind Handle.attach with
    | none => exact hsame id (by simp [step, hc])
    | some r =>
      obtain ⟨h, hi, hr⟩ := Option.bind_eq_some_iff.1 hc
      obtain ⟨hg, hl, ha, hr'⟩ := Handle.attach_cases hr
      have := pass_inv hs hi hg (fun _ => ha) hr'
      refine ⟨relocate place i (.held s.next), ?_, by simp [Overwrites, lost_relocate]⟩
      simpa only [step, hc, hl, State.invoke, List.append_nil] using this
  | assign j i =>
    cases hj : s.handles j with
    | none => exact hsame (by simp [Overwrites, hj]) (by simp [step, hj])
    | some g =>
      cases hi : s.handles i with
      | none => exact hsame (by simp [Overwrites, hi]) (by simp [step, hj, hi])
      | some h =>
        by_cases hji : j = i
        · exact hsame (by simp [Overwrites, hji]) (by simp [step, hi, hji])
        · obtain ⟨place', hs', hlost⟩ := assign_step_inv hs hj hi hji
          exact ⟨place', hs', by simpa [Overwrites, hj, hi, hji] using hlost⟩
  | freeze i enabled =>
    cases hi : s.handles i with
    | none => exact hsame id (by simp [step, hi])
    | some h =>
      cases ho : h.ownership.freeze enabled with
      | none => exact hsame id (by simp [step, hi, ho])
      | some o =>
        exact ⟨place, by simpa only [step, hi, ho] using freeze_inv hs hi ho,
          by simp [Overwrites]⟩
  | done i =>
    cases hc : (s.handles i).bind Handle.done with
    | none => exact hsame id (by simp [step, hc])
    | some r =>
      obtain ⟨h, hi, hr⟩ := Option.bind_eq_some_iff.1 hc
      obtain ⟨hl, ha⟩ := Handle.done_cases hr
      have htracks := leave_used_tracks (x := some r.2) hs hi (Handle.content_of_released ha)
      have hsound := (hs.sound.spend (hs.sound.lt_next hi) ha).invoke r.1
      refine ⟨relocate place i (.gone .used), ⟨?_, ?_⟩, by simp [Overwrites, lost_relocate]⟩
      · simp only [step, hc, hl]
        exact htracks
      · simpa only [step, hc] using hsound
  | destroy i =>
    cases hi : s.handles i with
    | none => exact hsame id (by simp [step, hi])
    | some h =>
      by_cases hd : h.ownership.invokesOnDestruction = true
      · have ha := Ownership.acquired_of_invokes hd
        obtain ⟨l, g, hr⟩ := Handle.done_of_acquired ha
        have htracks := leave_used_tracks (x := none) hs hi rfl
        have hsound := (hs.sound.remove (hs.sound.lt_next hi)).invoke l
        refine ⟨relocate place i (.gone .used), ⟨?_, ?_⟩, by simp [Overwrites, lost_relocate]⟩
        · rw [← (Handle.done_cases hr).1] at htracks
          simpa only [step, hi, if_pos hd, hr] using htracks
        · simpa only [step, hi, if_pos hd, hr] using hsound
      · have := leave_released_inv hs hi (Bool.eq_false_of_not_eq_true hd)
        refine ⟨relocate place i (.gone .released), ?_, by simp [Overwrites, lost_relocate]⟩
        simpa only [step, hi, if_neg hd] using this

lemma run_inv {s : State} (hs : Inv place s) (schedule : List Op) :
    ∃ place', Inv place' (run step s schedule) ∧
      (Lost place' ↔ Lost place ∨ ¬ Allowed step (fun s op => ¬ Overwrites s op) s schedule) := by
  induction schedule generalizing place s with
  | nil => exact ⟨place, hs, by simp [Allowed]⟩
  | cons op rest ih =>
    obtain ⟨place₁, hs₁, h₁⟩ := step_inv hs op
    obtain ⟨place₂, hs₂, h₂⟩ := ih hs₁
    refine ⟨place₂, hs₂, h₂.trans ?_⟩
    rw [h₁, Allowed]
    tauto

/-- Every source was invoked once, except for those whose holder was frozen when it went away. -/
def Balanced (s : State) : Prop :=
  ∀ src < s.sources, s.invoked.count src = if src ∈ s.lapsed then 0 else 1

lemma balanced_iff (hs : Inv place s) (hnone : ∀ i, s.handles i = none) :
    Balanced s ↔ ¬ Lost place := by
  have hplace : ∀ src < s.sources, ∃ fate, place src = .gone fate := by
    intro src hsrc
    cases hp : place src with
    | unborn =>
      have : s.sources ≤ src := (hs.tracks.unborn src).1 hp
      omega
    | held i =>
      have := (hs.tracks.held src i).1 hp
      simp [view, hnone] at this
    | gone fate => exact ⟨fate, rfl⟩
  have hcount := hs.tracks.used
  have hlapsed := hs.tracks.released
  simp only [view] at hcount hlapsed
  constructor
  · rintro h ⟨src, hsrc⟩
    have hlt : src < s.sources := by
      by_contra hn
      rw [(hs.tracks.unborn src).2 (by simpa [view] using hn)] at hsrc
      cases hsrc
    have := h src hlt
    rw [hcount] at this
    simp [hlapsed, hsrc] at this
  · intro h src hsrc
    obtain ⟨fate, hfate⟩ := hplace src hsrc
    simp only [hcount, hlapsed, hfate, Place.gone.injEq]
    cases fate with
    | used => simp
    | released => simp
    | lost => exact absurd ⟨src, hfate⟩ h

lemma destroy_released (hr : ∀ h, s.handles i = some h → h.ownership.acquired = false) :
    (step s (.destroy i)).invoked = s.invoked := by
  cases hi : s.handles i with
  | none => simp [step, hi]
  | some h =>
    simp [step, hi, Ownership.invokesOnDestruction, State.lapse, State.set, hr h hi]

lemma assign_invoked (s : State) (j i : ℕ) : (step s (.assign j i)).invoked = s.invoked := by
  simp only [step]
  split
  · split_ifs
    · rfl
    · simp only [State.spend, State.set, State.lapse]
      split_ifs <;> rfl
  · rfl

/-- **Sources are invoked once**: no run invokes a source twice, and no handle that was moved
from or consumed invokes anything when it is destroyed or overwritten. Once no handle exists any
more, every source was invoked once or its holder was frozen, if and only if no step moved onto
a handle that was acquired and not frozen. -/
theorem runHandles_balanced_iff (schedule : List Op) :
    let s := runHandles schedule
    (∀ src, s.invoked.count src ≤ 1) ∧
    (∀ i, s.spent i = true → (step s (.destroy i)).invoked = s.invoked ∧
      ∀ k, (step s (.assign i k)).invoked = s.invoked) ∧
    ((∀ i, s.handles i = none) →
      (Balanced s ↔ Allowed step (fun s op => ¬ Overwrites s op) init schedule)) := by
  obtain ⟨place, hs, hlost⟩ := run_inv init_inv schedule
  refine ⟨fun src => ?_, fun i hi => ⟨?_, assign_invoked _ i⟩, fun hnone => ?_⟩
  · have := hs.tracks.used src
    simp only [view] at this
    rw [runHandles, this]
    split_ifs <;> omega
  · exact destroy_released fun h hh => hs.sound.released i h hh hi
  · rw [runHandles, balanced_iff hs hnone, hlost]
    simp [Lost]

/-- The source of the handle that is assigned to is never invoked. -/
theorem overwritten_not_balanced :
    (∀ i, (runHandles [.create, .create, .assign 0 1, .destroy 0, .destroy 1]).handles i = none) ∧
    ¬ Balanced (runHandles [.create, .create, .assign 0 1, .destroy 0, .destroy 1]) := by
  refine ⟨fun i => ?_, fun h => absurd (h 0 (by decide)) (by decide)⟩
  by_cases h0 : i = 0
  · subst h0; rfl
  · by_cases h1 : i = 1
    · subst h1; rfl
    · obtain ⟨_, hs, -⟩ := run_inv init_inv
        [.create, .create, .assign 0 1, .destroy 0, .destroy 1]
      exact hs.sound.fresh i (by change 2 ≤ i; omega)

end Continuable.Handles
