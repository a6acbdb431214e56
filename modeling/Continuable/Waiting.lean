import Mathlib.Data.List.Basic

/-!
Computations that wait for events.

What a computation comes to is known from some point of the history on. Computations are put
together by going on with what one of them comes to, or by gathering what several come to that
wait side by side; two of them are the same when they come to the same at the same time.
-/

namespace Continuable.Waiting

variable {ε α β γ : Type}

/-- What is known of a computation after a history, the oldest event first. -/
@[ext] structure Wait (ε α : Type) where
  known : List ε → Option α
  stays : ∀ l e a, known l = some a → known (l ++ [e]) = some a

namespace Wait

lemma stays_append {w : Wait ε α} {l : List ε} {a : α} (h : w.known l = some a) (m : List ε) :
    w.known (l ++ m) = some a := by
  induction m generalizing l with
  | nil => rwa [List.append_nil]
  | cons e m ih =>
    have hrest := ih (w.stays l e a h)
    rwa [List.append_assoc] at hrest

lemma known_of_nil {w : Wait ε α} {a : α} (h : w.known [] = some a) (l : List ε) :
    w.known l = some a := stays_append h l

def now (a : α) : Wait ε α := ⟨fun _ => some a, fun _ _ _ h => h⟩

/-- The first event of a kind. -/
def upon (p : ε → Bool) (a : α) : Wait ε α where
  known l := if l.any p then some a else none
  stays l e b h := by
    split_ifs at h with hl
    rw [if_pos (by simp [List.any_append, hl])]
    exact h

/-- What is left of a computation after an event. -/
def after (w : Wait ε α) (e : ε) : Wait ε α :=
  ⟨fun l => w.known (e :: l), fun l e' a h => w.stays (e :: l) e' a h⟩

@[simp] lemma now_known (a : α) (l : List ε) : (now a : Wait ε α).known l = some a := rfl

@[simp] lemma now_after (a : α) (e : ε) : (now a : Wait ε α).after e = now a := rfl

@[simp] lemma after_known (w : Wait ε α) (e : ε) (l : List ε) :
    (w.after e).known l = w.known (e :: l) := rfl

@[simp] lemma upon_nil (p : ε → Bool) (a : α) : (upon p a).known [] = none := rfl

lemma upon_after (p : ε → Bool) (a : α) (e : ε) :
    (upon p a).after e = if p e then now a else upon p a := by
  ext l : 2
  cases he : p e <;> simp [upon, he]

lemma eq_now {w : Wait ε α} {a : α} (h : w.known [] = some a) : w = now a := by
  ext l : 2
  exact known_of_nil h l

/-- **The bisimulation rule.** -/
theorem eq_of_bisim {R : Wait ε α → Wait ε α → Prop}
    (hR : ∀ w w', R w w' → w.known [] = w'.known [] ∧
      (w.known [] = none → ∀ e, R (w.after e) (w'.after e)))
    {w w' : Wait ε α} (h : R w w') : w = w' := by
  ext l : 2
  induction l generalizing w w' with
  | nil => exact (hR w w' h).1
  | cons e l ih =>
    obtain ⟨hnil, hafter⟩ := hR w w' h
    cases hw : w.known [] with
    | some a => rw [known_of_nil hw, known_of_nil (hnil ▸ hw)]
    | none => exact ih (hafter hw e)

/-! ### Going on with what a computation comes to -/

def bindKnown (f : α → Wait ε β) : Wait ε α → List ε → Option β
  | w, [] => (w.known []).bind fun a => (f a).known []
  | w, e :: l =>
    match w.known [] with
    | some a => (f a).known (e :: l)
    | none => bindKnown f (w.after e) l

lemma bindKnown_of_some {f : α → Wait ε β} {w : Wait ε α} {a : α} (h : w.known [] = some a)
    (l : List ε) : bindKnown f w l = (f a).known l := by
  cases l <;> simp [bindKnown, h]

lemma bindKnown_of_none {f : α → Wait ε β} {w : Wait ε α} (h : w.known [] = none) (e : ε)
    (l : List ε) : bindKnown f w (e :: l) = bindKnown f (w.after e) l := by
  simp [bindKnown, h]

def bind (w : Wait ε α) (f : α → Wait ε β) : Wait ε β where
  known := bindKnown f w
  stays l e b h := by
    induction l generalizing w with
    | nil =>
      obtain ⟨a, ha, hb⟩ := Option.bind_eq_some_iff.1 h
      rw [bindKnown_of_some ha]
      exact (f a).stays [] e b hb
    | cons e' l ih =>
      cases hw : w.known [] with
      | some a =>
        rw [bindKnown_of_some hw] at h ⊢
        exact (f a).stays _ e b h
      | none =>
        rw [bindKnown_of_none hw] at h
        rw [List.cons_append, bindKnown_of_none hw]
        exact ih _ h

section bind

variable {w : Wait ε α} {f : α → Wait ε β}

@[simp] lemma now_bind (a : α) (f : α → Wait ε β) : (now a : Wait ε α).bind f = f a := by
  ext l : 2
  exact bindKnown_of_some rfl l

lemma bind_of_some {a : α} (h : w.known [] = some a) : w.bind f = f a := by
  rw [eq_now h, now_bind]

lemma bind_known_nil (h : w.known [] = none) : (w.bind f).known [] = none := by
  change (w.known []).bind _ = none
  rw [h, Option.bind_none]

lemma bind_after (h : w.known [] = none) (e : ε) :
    (w.bind f).after e = (w.after e).bind f := by
  ext l : 2
  exact bindKnown_of_none h e l

lemma bind_now (w : Wait ε α) : w.bind now = w := by
  refine eq_of_bisim (R := fun v v' => v = v'.bind now) (fun v v' hv => ?_) rfl
  subst hv
  cases hw : v'.known [] with
  | some a => simp [bind_of_some hw]
  | none => exact ⟨bind_known_nil hw, fun _ e => bind_after hw e⟩

lemma bind_assoc (w : Wait ε α) (f : α → Wait ε β) (g : β → Wait ε γ) :
    (w.bind f).bind g = w.bind fun a => (f a).bind g := by
  refine eq_of_bisim (R := fun v v' => v = v' ∨ ∃ w : Wait ε α, v = (w.bind f).bind g ∧
    v' = w.bind fun a => (f a).bind g) (fun v v' hv => ?_) (.inr ⟨w, rfl, rfl⟩)
  rcases hv with rfl | ⟨w, rfl, rfl⟩
  · exact ⟨rfl, fun _ _ => .inl rfl⟩
  · cases hw : w.known [] with
    | some a =>
      rw [bind_of_some hw, bind_of_some hw]
      exact ⟨rfl, fun _ _ => .inl rfl⟩
    | none =>
      have hf := bind_known_nil (f := f) hw
      rw [bind_known_nil hf, bind_known_nil hw]
      exact ⟨rfl, fun _ e => .inr ⟨w.after e, by rw [bind_after hf, bind_after hw],
        bind_after hw e⟩⟩

lemma upon_bind (p : ε → Bool) (a : α) (f : α → Wait ε β) :
    (upon p a).bind f = (upon p ()).bind fun _ => f a := by
  refine eq_of_bisim (R := fun v v' => v = v' ∨ v = (upon p a).bind f ∧
    v' = (upon p ()).bind fun _ => f a) (fun v v' hv => ?_) (.inr ⟨rfl, rfl⟩)
  rcases hv with rfl | ⟨rfl, rfl⟩
  · exact ⟨rfl, fun _ _ => .inl rfl⟩
  · refine ⟨rfl, fun _ e => ?_⟩
    rw [bind_after (upon_nil p a), bind_after (upon_nil p ()), upon_after, upon_after]
    cases p e with
    | true => exact .inl (by rw [if_pos rfl, if_pos rfl, now_bind, now_bind])
    | false => exact .inr ⟨by rw [if_neg Bool.false_ne_true], by rw [if_neg Bool.false_ne_true]⟩

lemma exists_split {a : α} {l : List ε} (h : w.known l = some a) (f : α → Wait ε β) :
    ∃ l₁ l₂, l = l₁ ++ l₂ ∧ ∀ m, (w.bind f).known (l₁ ++ m) = (f a).known m := by
  induction l generalizing w with
  | nil => exact ⟨[], [], rfl, fun m => by rw [bind_of_some h]; rfl⟩
  | cons e l ih =>
    cases hw : w.known [] with
    | some b =>
      obtain rfl : b = a := Option.some.inj ((known_of_nil hw _).symm.trans h)
      exact ⟨[], e :: l, rfl, fun m => by rw [bind_of_some hw]; rfl⟩
    | none =>
      obtain ⟨l₁, l₂, rfl, hm⟩ := ih (w := w.after e) h
      refine ⟨e :: l₁, l₂, rfl, fun m => ?_⟩
      rw [← hm m, ← bind_after hw]
      rfl

lemma exists_of_bind {b : β} {l : List ε} (h : (w.bind f).known l = some b) :
    ∃ a, (∃ m, w.known m = some a) ∧ ∃ m, (f a).known m = some b := by
  induction l generalizing w with
  | nil =>
    obtain ⟨a, ha, hb⟩ := Option.bind_eq_some_iff.1 h
    exact ⟨a, ⟨[], ha⟩, [], hb⟩
  | cons e l ih =>
    cases hw : w.known [] with
    | some a =>
      rw [bind_of_some hw] at h
      exact ⟨a, ⟨[], hw⟩, _, h⟩
    | none =>
      obtain ⟨a, ⟨m, hm⟩, hb⟩ := ih (w := w.after e) (by rw [← bind_after hw]; exact h)
      exact ⟨a, ⟨e :: m, hm⟩, hb⟩

end bind

/-! ### Waiting side by side -/

variable {verdict : List (Option α) → Option β}

/-- The verdict at the first point of the history at which there is one. -/
def gatherKnown (verdict : List (Option α) → Option β) : List (Wait ε α) → List ε → Option β
  | ws, [] => verdict (ws.map fun w => w.known [])
  | ws, e :: l => (verdict (ws.map fun w => w.known [])).or
      (gatherKnown verdict (ws.map fun w => w.after e) l)

def gather (verdict : List (Option α) → Option β) (ws : List (Wait ε α)) : Wait ε β where
  known := gatherKnown verdict ws
  stays l e b h := by
    induction l generalizing ws with
    | nil =>
      have hnow : verdict (ws.map fun w => w.known []) = some b := h
      rw [List.nil_append, gatherKnown, hnow, Option.some_or]
    | cons e' l ih =>
      rw [List.cons_append, gatherKnown]
      rw [gatherKnown] at h
      cases hv : verdict (ws.map fun w => w.known []) with
      | some b' =>
        rw [hv, Option.some_or] at h
        rwa [Option.some_or]
      | none =>
        rw [hv, Option.none_or] at h
        rw [Option.none_or]
        exact ih _ h

section gather

variable {ws : List (Wait ε α)}

@[simp] lemma gather_nil : (gather verdict ws).known [] = verdict (ws.map fun w => w.known []) :=
  rfl

lemma gather_after (h : verdict (ws.map fun w => w.known []) = none) (e : ε) :
    (gather verdict ws).after e = gather verdict (ws.map fun w => w.after e) := by
  ext l : 2
  change gatherKnown verdict ws (e :: l) = _
  rw [gatherKnown, h, Option.none_or]
  rfl

lemma exists_of_gather {b : β} {l : List ε} (h : (gather verdict ws).known l = some b) :
    ∃ m, verdict (ws.map fun w => w.known m) = some b := by
  induction l generalizing ws with
  | nil => exact ⟨[], h⟩
  | cons e l ih =>
    cases hv : verdict (ws.map fun w => w.known []) with
    | some b' =>
      have hb : (gather verdict ws).known [] = some b' := hv
      obtain rfl : b' = b := Option.some.inj ((known_of_nil hb _).symm.trans h)
      exact ⟨[], hv⟩
    | none =>
      have hrest : (gather verdict (ws.map fun w => w.after e)).known l = some b := by
        rw [← gather_after hv]
        exact h
      obtain ⟨m, hm⟩ := ih hrest
      exact ⟨e :: m, by rwa [List.map_map] at hm⟩

lemma gather_isSome {l : List ε} (h : (verdict (ws.map fun w => w.known l)).isSome = true) :
    ((gather verdict ws).known l).isSome = true := by
  induction l generalizing ws with
  | nil => exact h
  | cons e l ih =>
    cases hv : verdict (ws.map fun w => w.known []) with
    | some b =>
      have hb : (gather verdict ws).known [] = some b := hv
      rw [known_of_nil hb, Option.isSome_some]
    | none =>
      rw [← after_known, gather_after hv]
      exact ih (by rw [List.map_map]; exact h)

end gather

/-! ### Coming to something in the end -/

/-- However the history goes, it can go on so that the computation comes to something. -/
def Live (w : Wait ε α) : Prop := ∀ l, ∃ m, (w.known (l ++ m)).isSome = true

lemma live_now (a : α) : Live (now a : Wait ε α) := fun _ => ⟨[], rfl⟩

lemma live_upon {p : ε → Bool} {e : ε} (he : p e = true) (a : α) : Live (upon p a) :=
  fun l => ⟨[e], by simp [upon, he]⟩

lemma Live.bind {w : Wait ε α} {f : α → Wait ε β} (hw : w.Live) (hf : ∀ a, (f a).Live) :
    (w.bind f).Live := by
  intro l
  obtain ⟨m, hm⟩ := hw l
  obtain ⟨a, ha⟩ := Option.isSome_iff_exists.1 hm
  obtain ⟨l₁, l₂, hl, hbind⟩ := exists_split ha f
  obtain ⟨m', hm'⟩ := hf a l₂
  refine ⟨m ++ m', ?_⟩
  rwa [← List.append_assoc, hl, List.append_assoc, hbind]

lemma exists_all_known {ws : List (Wait ε α)} (hw : ∀ w ∈ ws, w.Live) (l : List ε) :
    ∃ m, ∀ w ∈ ws, (w.known (l ++ m)).isSome = true := by
  induction ws with
  | nil => exact ⟨[], by simp⟩
  | cons w ws ih =>
    obtain ⟨hhead, htail⟩ := List.forall_mem_cons.1 hw
    obtain ⟨m, hm⟩ := ih htail
    obtain ⟨m', hm'⟩ := hhead (l ++ m)
    rw [List.append_assoc] at hm'
    refine ⟨m ++ m', List.forall_mem_cons.2 ⟨hm', fun v hv => ?_⟩⟩
    obtain ⟨a, ha⟩ := Option.isSome_iff_exists.1 (hm v hv)
    rw [← List.append_assoc, stays_append ha, Option.isSome_some]

lemma live_gather {ws : List (Wait ε α)} (hw : ∀ w ∈ ws, w.Live)
    (hverdict : ∀ ins, (∀ i ∈ ins, i.isSome = true) → (verdict ins).isSome = true) :
    (gather verdict ws).Live := by
  intro l
  obtain ⟨m, hm⟩ := exists_all_known hw l
  refine ⟨m, gather_isSome (hverdict _ fun i hi => ?_)⟩
  obtain ⟨w, hmem, rfl⟩ := List.mem_map.1 hi
  exact hm w hmem

end Wait

end Continuable.Waiting
