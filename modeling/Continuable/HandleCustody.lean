import Continuable.Handles

/-!
Continuable handles as slots that have custody of the source continuations.

Every operation on the handles is a sequence of transfers and departures there.
-/

namespace Continuable.Handles

open Custody

/-- The handles as slots: they hold a source as long as they are acquired. -/
def view (s : State) : Slots where
  content i := (s.handles i).bind Handle.content
  created := s.sources
  used := s.invoked
  released := s.lapsed

/-! ### Handles keep their flags consistent -/

structure Sound (s : State) : Prop where
  fresh : ∀ i, s.next ≤ i → s.handles i = none
  unspent : ∀ i, s.next ≤ i → s.spent i = false
  released : ∀ i h, s.handles i = some h → s.spent i = true → h.ownership.acquired = false
  filled : ∀ i h, s.handles i = some h → h.ownership.acquired = true → h.content ≠ none

variable {place : ℕ → Place} {s : State} {i j : ℕ} {g h h' : Handle} {l : List ℕ}

lemma Sound.lt_next (hs : Sound s) (hi : s.handles i = some h) : i < s.next := by
  by_contra hn
  rw [hs.fresh i (by omega)] at hi
  cases hi

lemma Sound.invoke (hs : Sound s) (l : List ℕ) : Sound (s.invoke l) :=
  ⟨hs.fresh, hs.unspent, hs.released, hs.filled⟩

lemma Sound.lapse (hs : Sound s) (h : Handle) : Sound (s.lapse h) := by
  unfold State.lapse
  split_ifs
  · exact ⟨hs.fresh, hs.unspent, hs.released, hs.filled⟩
  · exact hs

lemma Sound.replace (hs : Sound s) (hi : i < s.next) {x : Option Handle} {b : Bool}
    (hr : ∀ h, x = some h → b = true → h.ownership.acquired = false)
    (hf : ∀ h, x = some h → h.ownership.acquired = true → h.content ≠ none) :
    Sound { s with
      handles := Function.update s.handles i x, spent := Function.update s.spent i b } := by
  refine ⟨fun k hk => ?_, fun k hk => ?_, fun k h hk hspent => ?_, fun k h hk ha => ?_⟩
  · simp only at hk ⊢
    rw [Function.update_of_ne (by omega)]
    exact hs.fresh k hk
  · simp only at hk ⊢
    rw [Function.update_of_ne (by omega)]
    exact hs.unspent k hk
  · simp only at hk hspent
    by_cases hki : k = i
    · subst hki
      rw [Function.update_self] at hk hspent
      exact hr h hk hspent
    · rw [Function.update_of_ne hki] at hk hspent
      exact hs.released k h hk hspent
  · simp only at hk
    by_cases hki : k = i
    · subst hki
      rw [Function.update_self] at hk
      exact hf h hk ha
    · rw [Function.update_of_ne hki] at hk
      exact hs.filled k h hk ha

lemma Sound.spend (hs : Sound s) (hi : i < s.next) (ha : h.ownership.acquired = false) :
    Sound ((s.set i (some h)).spend i) := by
  refine hs.replace hi (fun g hg _ => ?_) (fun g hg hacquired => ?_)
  · rw [← Option.some.inj hg, ha]
  · rw [← Option.some.inj hg, ha] at hacquired
    cases hacquired

lemma Sound.remove (hs : Sound s) (hi : i < s.next) : Sound (s.set i none) := by
  have := hs.replace (x := none) (b := s.spent i) hi (fun g hg => by cases hg)
    (fun g hg => by cases hg)
  rwa [Function.update_eq_self] at this

lemma Sound.add (hs : Sound s) (hf : h.ownership.acquired = true → h.content ≠ none) :
    Sound (s.add h) := by
  refine ⟨fun k hk => ?_, fun k hk => ?_, fun k g hk hspent => ?_, fun k g hk ha => ?_⟩
  · simp only [State.add, State.set] at hk ⊢
    rw [Function.update_of_ne (by omega)]
    exact hs.fresh k (by omega)
  · exact hs.unspent k (Nat.le_of_succ_le hk)
  · simp only [State.add, State.set] at hk hspent
    by_cases hn : k = s.next
    · subst hn
      rw [hs.unspent _ (Nat.le_refl _)] at hspent
      cases hspent
    · rw [Function.update_of_ne hn] at hk
      exact hs.released k g hk hspent
  · simp only [State.add, State.set] at hk
    by_cases hn : k = s.next
    · subst hn
      rw [Function.update_self, Option.some.injEq] at hk
      subst hk
      exact hf ha
    · rw [Function.update_of_ne hn] at hk
      exact hs.filled k g hk ha

/-! ### The invariant -/

structure Inv (place : ℕ → Place) (s : State) : Prop where
  tracks : Tracks place (view s)
  sound : Sound s

lemma init_inv : Inv (fun _ => .unborn) init where
  tracks := ⟨by simp [view, init], by simp [view, init], by simp [view, init], by simp [view, init]⟩
  sound := ⟨fun _ _ => rfl, fun _ _ => rfl, fun _ _ hi => (by cases hi),
    fun _ _ hi => (by cases hi)⟩

lemma Inv.content_next (hs : Inv place s) : (view s).content s.next = none := by
  simp only [view, hs.sound.fresh _ (Nat.le_refl _), Option.bind_none]

lemma view_content (hi : s.handles i = some h) : (view s).content i = h.content := by
  simp only [view, hi, Option.bind_some]

lemma view_set (s : State) (i : ℕ) (x : Option Handle) :
    view (s.set i x) = { view s with
      content := Function.update (view s).content i (x.bind Handle.content) } := by
  simp only [view, State.set, Slots.mk.injEq, and_true]
  funext k
  exact Function.apply_update (fun _ o => o.bind Handle.content) s.handles i x k

lemma create_inv (hs : Inv place s) :
    Inv (Function.update place s.sources (.held s.next)) (step s .create) := by
  have hview : view (step s .create) = (view s).create s.next := by
    change { view (s.set s.next (some ⟨.default, some s.sources⟩)) with
      created := s.sources + 1 } = _
    rw [view_set]
    rfl
  have hsound := hs.sound.add (h := ⟨.default, some s.sources⟩)
    (fun _ => by simp [Handle.content, Ownership.default])
  refine ⟨?_, hsound.fresh, hsound.unspent, hsound.released, hsound.filled⟩
  rw [hview]
  exact create_tracks hs.tracks hs.content_next

lemma pass_inv (hs : Inv place s) (hi : s.handles i = some h) (hg : g.content = h.content)
    (ha : g.ownership.acquired = true → h.ownership.acquired = true)
    (hr : h'.ownership.acquired = false) :
    Inv (relocate place i (.held s.next)) (((s.set i (some h')).spend i).add g) := by
  have hlt := hs.sound.lt_next hi
  have hview : view (((s.set i (some h')).spend i).add g) = (view s).transfer i s.next := by
    change view ((s.set i (some h')).set s.next (some g)) = _
    rw [view_set, view_set, Slots.transfer, view_content hi]
    simp only [Option.bind_some, Handle.content_of_released hr, hg]
    rw [Function.update_comm hlt.ne]
  refine ⟨?_, (hs.sound.spend hlt hr).add fun hacquired => ?_⟩
  · rw [hview]
    exact transfer_tracks hs.tracks hlt.ne hs.content_next
  · rw [hg]
    exact hs.sound.filled i h hi (ha hacquired)

lemma assign_inv (hs : Inv place s) (hi : s.handles i = some h) (hj : j < s.next) (hji : j ≠ i)
    (hcontent : (view s).content j = none) :
    Inv (relocate place i (.held j))
      ((({ s.set j (some h.moved.1) with
        spent := Function.update s.spent j (s.spent i) } : State).set i
          (some h.moved.2)).spend i) := by
  have hlt := hs.sound.lt_next hi
  have hsound : Sound { s.set j (some h.moved.1) with
      spent := Function.update s.spent j (s.spent i) } := by
    refine hs.sound.replace hj (fun g hg hspent => ?_) (fun g hg ha => ?_)
    · rw [← Option.some.inj hg]
      exact hs.sound.released i h hi hspent
    · rw [← Option.some.inj hg] at ha ⊢
      exact hs.sound.filled i h hi ha
  refine ⟨?_, hsound.spend hlt rfl⟩
  change Tracks _ (view ((s.set j (some h.moved.1)).set i (some h.moved.2)))
  rw [view_set, view_set]
  simp only [Option.bind_some, Handle.moved_fst_content, Handle.moved_snd_content]
  rw [← view_content hi]
  exact transfer_tracks hs.tracks hji.symm hcontent

lemma leave_used_tracks (hs : Inv place s) (hi : s.handles i = some h) {x : Option Handle}
    (hx : x.bind Handle.content = none) :
    Tracks (relocate place i (.gone .used)) (view ((s.set i x).invoke h.content.toList)) := by
  change Tracks _ { view (s.set i x) with used := (view s).used ++ h.content.toList }
  rw [view_set, hx, ← view_content hi]
  exact leave_tracks hs.tracks i .used

lemma view_lapse (s : State) (hd : h.ownership.invokesOnDestruction = false) :
    view (s.lapse h) = { view s with released := s.lapsed ++ h.content.toList } := by
  obtain ⟨⟨a, f⟩, d⟩ := h
  cases a with
  | false => simp [view, State.lapse, Handle.content]
  | true =>
    cases f with
    | false => cases hd
    | true => simp [view, State.lapse, Handle.content]

lemma leave_released_inv (hs : Inv place s) (hi : s.handles i = some h)
    (hd : h.ownership.invokesOnDestruction = false) :
    Inv (relocate place i (.gone .released)) ((s.lapse h).set i none) := by
  have hlt : i < (s.lapse h).next := by
    have := hs.sound.lt_next hi
    unfold State.lapse
    split_ifs <;> exact this
  refine ⟨?_, (hs.sound.lapse h).remove hlt⟩
  rw [view_set, view_lapse s hd, ← view_content hi]
  exact leave_tracks hs.tracks i .released

/-- A handle goes away without a trace of what it holds. -/
lemma leave_lost_inv (hs : Inv place s) (hi : s.handles i = some h) :
    Inv (relocate place i (.gone .lost)) (s.set i none) := by
  refine ⟨?_, hs.sound.remove (hs.sound.lt_next hi)⟩
  rw [view_set]
  exact leave_tracks hs.tracks i .lost

lemma freeze_inv (hs : Inv place s) (hi : s.handles i = some h) {enabled : Bool} {o : Ownership}
    (ho : h.ownership.freeze enabled = some o) : Inv place (s.set i (some ⟨o, h.data⟩)) := by
  have ha : h.ownership.acquired = true := by
    by_contra ha
    simp [Ownership.freeze, ha] at ho
  rw [Ownership.freeze_of_acquired ha, Option.some.injEq] at ho
  have hcontent : Handle.content ⟨o, h.data⟩ = h.content := by
    simp [Handle.content, ← ho]
  refine ⟨?_, ?_⟩
  · rw [view_set, Option.bind_some, hcontent, ← view_content hi, Function.update_eq_self]
    exact hs.tracks
  · have := hs.sound.replace (x := some ⟨o, h.data⟩) (b := s.spent i) (hs.sound.lt_next hi)
      (fun g hg hspent => by
        have := hs.sound.released i h hi hspent
        rw [ha] at this
        cases this)
      (fun g hg _ => by
        rw [← Option.some.inj hg, hcontent]
        exact hs.sound.filled i h hi ha)
    rwa [Function.update_eq_self] at this

end Continuable.Handles
