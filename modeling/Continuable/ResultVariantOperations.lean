import Continuable.ResultVariant

/-!
What the operations on result variants keep.

Between the steps of one operation tag and storage differ. What holds then as well is that every
payload is alive in one storage or was destroyed once; each operation restores the rest.
-/

namespace Continuable.ResultVariant

open Schedule Custody State

/-! ### Payloads in their storages -/

/-- A storage holds its payload until it is destroyed. -/
def payloads (s : State) : Slots where
  content i := ((s.variants i).bind Variant.storage).map Prod.snd
  created := s.constructed
  used := s.destroyed
  released := []

/-- Nothing went wrong so far, and no payload got lost. -/
structure Accounted (s : State) : Prop where
  sound : s.violated = false
  tracked : ∃ place, Tracks place (payloads s) ∧ ∀ p, place p ≠ .gone .lost

/-- The slot says what is in the storage. -/
def Variant.Matching (v : Variant) : Prop := v.storage.map Prod.fst = v.slot.holds

/-- What an operation keeps. -/
structure Orderly (s : State) : Prop where
  accounted : Accounted s
  slots : ∀ i v, s.variants i = some v → v.Matching

variable {s : State} {i j : ℕ} {v other : Variant} {kind : Kind}

lemma Kind.holds_slot (kind : Kind) : kind.slot.holds = some kind := by cases kind <;> rfl

lemma holds_eq_none {slot : Slot} (h : slot.holds = none) : slot = .empty := by
  cases slot <;> simp_all [Slot.holds]

lemma holds_eq_some {slot : Slot} (h : slot.holds = some kind) : slot = kind.slot := by
  cases slot <;> simp_all [Slot.holds] <;> subst h <;> rfl

lemma Variant.Matching.eq_none (hm : v.Matching) (h : v.slot.holds = none) :
    v = ⟨.empty, none⟩ := by
  obtain ⟨slot, storage⟩ := v
  have hslot : slot = .empty := holds_eq_none h
  subst hslot
  have hs : storage = none := by simpa [Matching, Slot.holds] using hm
  rw [hs]

lemma Variant.Matching.eq_some (hm : v.Matching) (h : v.slot.holds = some kind) :
    ∃ p, v.storage = some (kind, p) := by
  have hs : v.storage.map Prod.fst = some kind := hm.trans h
  obtain ⟨⟨k, p⟩, hkp, rfl⟩ := Option.map_eq_some_iff.1 hs
  exact ⟨p, hkp⟩

lemma Orderly.of_update (h : Orderly s) {s' : State} {w : Option Variant} (ha : Accounted s')
    (hs : s'.variants = Function.update s.variants i w) (hw : ∀ v, w = some v → v.Matching) :
    Orderly s' := by
  refine ⟨ha, fun k v hv => ?_⟩
  rw [hs] at hv
  by_cases hk : k = i
  · subst hk
    rw [Function.update_self] at hv
    exact hw v hv
  · rw [Function.update_of_ne hk] at hv
    exact h.slots k v hv

/-! ### The primitive steps -/

lemma destroy_eq (hv : s.variants i = some v) (hm : v.Matching) :
    s.destroy i = { s.set i (some { v with storage := none }) with
      destroyed := s.destroyed ++ (v.storage.map Prod.snd).toList } := by
  cases hh : v.slot.holds with
  | none =>
    have hvar : Function.update s.variants i (some v) = s.variants := by
      rw [← hv, Function.update_eq_self]
    rw [hm.eq_none hh] at hvar ⊢
    simp [destroy, hv, hh, State.set, hvar]
  | some kind =>
    obtain ⟨p, hp⟩ := hm.eq_some hh
    simp [destroy, hv, hh, hp]

lemma destroy_spec (h : Accounted s) (hv : s.variants i = some v) (hm : v.Matching) :
    Accounted (s.destroy i) ∧
      (s.destroy i).variants = Function.update s.variants i (some { v with storage := none }) := by
  rw [destroy_eq hv hm]
  obtain ⟨place, ht, hlost⟩ := h.tracked
  refine ⟨⟨h.sound, relocate place i (.gone .used), ?_, fun p => ?_⟩, rfl⟩
  · convert leave_tracks ht i .used using 1
    simp only [payloads, Slots.leave, State.set, hv]
    congr 1
    funext k
    by_cases hk : k = i
    · subst hk; simp
    · simp [Function.update_of_ne hk]
  · unfold relocate
    split_ifs
    · simp
    · exact hlost p

lemma construct_spec (h : Accounted s) (hv : s.variants i = some v) (hnone : v.storage = none)
    (kind : Kind) :
    Accounted (s.construct i kind) ∧ (s.construct i kind).variants =
      Function.update s.variants i (some { v with storage := some (kind, s.constructed) }) := by
  obtain ⟨place, ht, hlost⟩ := h.tracked
  have hc : (payloads s).content i = none := by simp [payloads, hv, hnone]
  have heq : payloads (s.construct i kind) = (payloads s).create i := by
    simp only [payloads, construct, hv, Slots.create, State.set]
    congr 1
    funext k
    by_cases hk : k = i
    · subst hk; simp
    · simp [Function.update_of_ne hk]
  refine ⟨⟨by simpa [construct, hv, State.set] using h.sound, _,
    heq ▸ create_tracks ht hc, fun p => ?_⟩, by simp [construct, hv, State.set]⟩
  change Function.update place s.constructed (.held i) p ≠ _
  by_cases hp : p = s.constructed
  · subst hp; simp
  · rw [Function.update_of_ne hp]; exact hlost p

lemma payloads_set {w : Option Variant}
    (hw : w.bind Variant.storage = (s.variants i).bind Variant.storage) :
    payloads (s.set i w) = payloads s := by
  simp only [payloads, State.set]
  congr 1
  funext k
  by_cases hk : k = i
  · subst hk; simp [hw]
  · simp [Function.update_of_ne hk]

lemma retag_spec (h : Accounted s) (hv : s.variants i = some v) (slot : Slot) :
    Accounted (s.retag i slot) ∧
      (s.retag i slot).variants = Function.update s.variants i (some { v with slot }) := by
  obtain ⟨place, ht, hlost⟩ := h.tracked
  have hretag : s.retag i slot = s.set i (some { v with slot }) := by
    simp only [retag, hv]
  have heq : payloads (s.retag i slot) = payloads s := by
    rw [hretag]
    exact payloads_set (by rw [hv]; rfl)
  exact ⟨⟨by simpa [retag, hv, State.set] using h.sound, place, heq ▸ ht, hlost⟩,
    by simp [retag, hv, State.set]⟩

lemma set_accounted (h : Accounted s) (hv : (s.variants i).bind Variant.storage = none)
    {w : Option Variant} (hw : w.bind Variant.storage = none) : Accounted (s.set i w) := by
  obtain ⟨place, ht, hlost⟩ := h.tracked
  have heq : payloads (s.set i w) = payloads s := payloads_set (hw.trans hv.symm)
  exact ⟨h.sound, place, heq ▸ ht, hlost⟩

lemma read_eq (hv : s.variants j = some v) (hm : v.Matching) (hh : v.slot.holds = some kind) :
    s.read j kind = s := by
  obtain ⟨p, hp⟩ := hm.eq_some hh
  simp [State.read, hv, hp]

/-! ### The operations -/

lemma clear_spec (h : Accounted s) (hv : s.variants j = some v) (hm : v.Matching) :
    Accounted (s.clear j) ∧
      (s.clear j).variants = Function.update s.variants j (some ⟨.empty, none⟩) := by
  obtain ⟨hd, hdv⟩ := destroy_spec h hv hm
  have hj : (s.destroy j).variants j = some { v with storage := none } := by
    rw [hdv, Function.update_self]
  obtain ⟨hr, hrv⟩ := retag_spec hd hj .empty
  refine ⟨hr, ?_⟩
  rw [State.clear, hrv, hdv, Function.update_idem]

lemma matching_empty : (⟨.empty, none⟩ : Variant).Matching := rfl

lemma matching_slot (kind : Kind) (p : ℕ) : (⟨kind.slot, some (kind, p)⟩ : Variant).Matching :=
  (kind.holds_slot).symm

lemma Orderly.default (h : Orderly s) (hi : s.variants i = none) :
    Orderly (s.set i (some ⟨.empty, none⟩)) :=
  h.of_update (set_accounted h.accounted (by rw [hi]; rfl) rfl) rfl
    fun v hv => by cases hv; exact matching_empty

lemma Orderly.of_construct (h : Orderly s) {s' : State} (ha : Accounted s')
    (hs : s'.variants = Function.update s.variants i (some ⟨kind.slot, none⟩)) :
    Orderly (s'.construct i kind) := by
  have hv : s'.variants i = some ⟨kind.slot, none⟩ := by rw [hs, Function.update_self]
  obtain ⟨hc, hcv⟩ := construct_spec ha hv rfl kind
  refine h.of_update hc (i := i) (w := some ⟨kind.slot, some (kind, s'.constructed)⟩) ?_ ?_
  · rw [hcv, hs, Function.update_idem]
  · intro v hv; cases hv; exact matching_slot kind _

lemma Orderly.fill (h : Orderly s) (hi : s.variants i = none) (kind : Kind) (throws : Bool) :
    Orderly (s.fill i kind throws) := by
  cases throws with
  | true => exact h
  | false => exact h.of_construct (set_accounted h.accounted (by rw [hi]; rfl) rfl) rfl

lemma Orderly.clear (h : Orderly s) (hj : s.variants j = some v) : Orderly (s.clear j) := by
  obtain ⟨hc, hcv⟩ := clear_spec h.accounted hj (h.slots j v hj)
  exact h.of_update hc hcv fun v hv => by cases hv; exact matching_empty

lemma Orderly.destruct (h : Orderly s) (hi : s.variants i = some v) : Orderly (s.destruct i) := by
  obtain ⟨hd, hdv⟩ := destroy_spec h.accounted hi (h.slots i v hi)
  have hnone : ((s.destroy i).variants i).bind Variant.storage = none := by
    rw [hdv, Function.update_self]; rfl
  refine h.of_update (set_accounted hd hnone rfl) (i := i) (w := none) ?_ (by simp)
  change Function.update (s.destroy i).variants i none = _
  rw [hdv, Function.update_idem]

lemma construct_variants_of_ne (hij : i ≠ j) : (s.construct i kind).variants j = s.variants j := by
  unfold construct
  cases s.variants i with
  | none => rfl
  | some v => exact Function.update_of_ne (Ne.symm hij) ..

lemma Orderly.moveConstruct (h : Orderly s) (hi : s.variants i = none)
    (hj : s.variants j = some other) (throws : Bool) :
    Orderly (s.moveConstruct i j other throws) := by
  have hij : i ≠ j := by rintro rfl; rw [hi] at hj; cases hj
  have hm : other.Matching := h.slots j other hj
  have hother : ∀ w, (s.set i w).variants j = some other := fun w => by
    rw [← hj]; exact Function.update_of_ne (Ne.symm hij) ..
  have hnone : (s.variants i).bind Variant.storage = none := by rw [hi]; rfl
  simp only [State.moveConstruct]
  cases hh : other.slot.holds with
  | none =>
    rw [hm.eq_none hh] at hother ⊢
    exact (h.default hi).clear (hother _)
  | some kind =>
    have ha : Accounted (s.set i (some ⟨other.slot, none⟩)) := set_accounted h.accounted hnone rfl
    simp only [read_eq (hother _) hm hh]
    cases throws with
    | true =>
      have hfresh : ((s.set i (some ⟨other.slot, none⟩)).variants i).bind Variant.storage = none :=
        by simp [State.set]
      exact h.of_update (set_accounted ha hfresh rfl) (Function.update_idem ..) (by simp)
    | false =>
      have hslot : other.slot = kind.slot := holds_eq_some hh
      rw [hslot] at ha ⊢
      refine (h.of_construct ha rfl).clear (v := other) ?_
      rw [construct_variants_of_ne hij]
      exact hother _

/-- An empty source clears the target; any other one must not be the target and must not throw. -/
lemma Orderly.moveAssign (h : Orderly s) (hi : s.variants i = some v)
    (hj : s.variants j = some other) {throws : Bool}
    (hok : other.slot ≠ .empty → throws = false ∧ i ≠ j) :
    Orderly (s.moveAssign i j other throws) := by
  have hm : other.Matching := h.slots j other hj
  obtain ⟨hd, hdv⟩ := destroy_spec h.accounted hi (h.slots i v hi)
  have hdi : (s.destroy i).variants i = some { v with storage := none } := by
    rw [hdv, Function.update_self]
  simp only [State.moveAssign]
  cases hh : other.slot.holds with
  | none =>
    rw [holds_eq_none hh]
    change Orderly ((s.clear i).clear j)
    by_cases hij : i = j
    · subst hij
      exact (h.clear hi).clear (v := ⟨.empty, none⟩)
        (by rw [(clear_spec h.accounted hi (h.slots i v hi)).2, Function.update_self])
    · refine (h.clear hi).clear (v := other) ?_
      rw [(clear_spec h.accounted hi (h.slots i v hi)).2, Function.update_of_ne (Ne.symm hij), hj]
  | some kind =>
    have hslot : other.slot = kind.slot := holds_eq_some hh
    obtain ⟨hthrows, hij⟩ := hok fun hc => by rw [hc] at hh; cases hh
    obtain ⟨hr, hrv⟩ := retag_spec hd hdi other.slot
    rw [hdv, Function.update_idem] at hrv
    have hother : ((s.destroy i).retag i other.slot).variants j = some other := by
      rw [hrv, Function.update_of_ne (Ne.symm hij), hj]
    simp only [read_eq hother hm hh, hthrows]
    rw [hslot] at hr hrv hother ⊢
    refine (h.of_construct hr hrv).clear (v := other) ?_
    rw [construct_variants_of_ne hij, hother]

/-- The tag is set last, so that an exception finds an empty variant empty. -/
lemma Orderly.assign (h : Orderly s) (hi : s.variants i = some v) (kind : Kind) {throws : Bool}
    (hok : v.slot ≠ .empty → throws = false) : Orderly (s.assign i kind throws) := by
  have hm : v.Matching := h.slots i v hi
  obtain ⟨hd, hdv⟩ := destroy_spec h.accounted hi hm
  have hdi : (s.destroy i).variants i = some { v with storage := none } := by
    rw [hdv, Function.update_self]
  cases throws with
  | true =>
    have hslot : v.slot = .empty := not_not.1 fun hc => by simpa using hok hc
    have hv : v = ⟨.empty, none⟩ := hm.eq_none (by rw [hslot]; rfl)
    subst hv
    exact h.of_update hd hdv fun v hv => by cases hv; exact matching_empty
  | false =>
    obtain ⟨hc, hcv⟩ := construct_spec hd hdi rfl kind
    obtain ⟨hr, hrv⟩ := retag_spec hc (by rw [hcv, Function.update_self]) kind.slot
    rw [hcv, hdv, Function.update_idem, Function.update_idem] at hrv
    exact h.of_update hr hrv fun v hv => by cases hv; exact matching_slot kind _

end Continuable.ResultVariant
