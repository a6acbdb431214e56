import Continuable.FrozenHandles

/-!
Which frozen sources keep an expression from being started when it is destroyed.

Every expression evaluates without a failing assertion. Its continuable is frozen exactly when a
frozen source is reached from the root along operations that hand the flag on.
-/

namespace Continuable.Frozen

/-- What an operation does to the flag of an operand. -/
inductive Step
  | kept
  | converted
  | overwritten
  deriving DecidableEq

/-- The expression is a type-erased continuable, so a conversion just moves it. -/
def Expr.isErased : Expr → Bool
  | .source erased _ => erased
  | .finish e => e.isErased
  | .erase _ => true
  | _ => false

/-- There is a frozen source in the expression, at the end of a path of operations. -/
inductive FrozenAt : Expr → List Step → Prop
  | source {erased} : FrozenAt (.source erased true) []
  | link {e p} : FrozenAt e p → FrozenAt (.link e) (.kept :: p)
  | finish {e p} : FrozenAt e p → FrozenAt (.finish e) (.kept :: p)
  | erase {e p} : FrozenAt e p →
    FrozenAt (.erase e) ((if e.isErased then .kept else .converted) :: p)
  | allLeft {l r p} : FrozenAt l p → FrozenAt (.all l r) (.kept :: p)
  | allRight {l r p} : FrozenAt r p → FrozenAt (.all l r) (.kept :: p)
  | anyLeft {l r p} : FrozenAt l p → FrozenAt (.any l r) (.kept :: p)
  | anyRight {l r p} : FrozenAt r p → FrozenAt (.any l r) (.kept :: p)
  | seqLeft {l r p} : FrozenAt l p → FrozenAt (.seq l r) (.overwritten :: p)
  | seqRight {l r p} : FrozenAt r p → FrozenAt (.seq l r) (.kept :: p)
  | whenAll {es e p} : e ∈ es → FrozenAt e p → FrozenAt (.whenAll es) (.kept :: p)
  | whenAny {first rest e p} : e ∈ first :: rest → FrozenAt e p →
    FrozenAt (.whenAny first rest) (.kept :: p)
  | whenSeq {es e p} : e ∈ es → FrozenAt e p → FrozenAt (.whenSeq es) (.kept :: p)

/-- A frozen source is reached along operations that all hand the flag on. -/
def Keeps (e : Expr) : Prop := ∃ p, FrozenAt e p ∧ ∀ s ∈ p, s = .kept

/-! ### When an operation keeps the flag -/

lemma keeps_cons {e e' : Expr} (hsub : ∀ p, FrozenAt e p → FrozenAt e' (.kept :: p))
    (h : Keeps e) : Keeps e' := by
  obtain ⟨p, hp, hk⟩ := h
  refine ⟨.kept :: p, hsub p hp, fun s hs => ?_⟩
  rcases List.mem_cons.1 hs with rfl | hs
  · rfl
  · exact hk s hs

lemma keeps_of_path {e : Expr} {s : Step} {p : List Step} (h : FrozenAt e p)
    (hk : ∀ t ∈ s :: p, t = .kept) : Keeps e :=
  ⟨p, h, fun t ht => hk t (List.mem_cons_of_mem _ ht)⟩

lemma keeps_source (erased frozen : Bool) : Keeps (.source erased frozen) ↔ frozen = true := by
  constructor
  · rintro ⟨p, h, -⟩
    cases h
    rfl
  · rintro rfl
    exact ⟨[], .source, by simp⟩

lemma keeps_link (e : Expr) : Keeps (.link e) ↔ Keeps e := by
  refine ⟨?_, keeps_cons fun _ => .link⟩
  rintro ⟨p, h, hk⟩
  cases h with
  | link h => exact keeps_of_path h hk

lemma keeps_finish (e : Expr) : Keeps (.finish e) ↔ Keeps e := by
  refine ⟨?_, keeps_cons fun _ => .finish⟩
  rintro ⟨p, h, hk⟩
  cases h with
  | finish h => exact keeps_of_path h hk

lemma keeps_erase (e : Expr) : Keeps (.erase e) ↔ e.isErased = true ∧ Keeps e := by
  constructor
  · rintro ⟨p, h, hk⟩
    cases h with
    | erase h =>
      refine ⟨?_, keeps_of_path h hk⟩
      by_contra hne
      have := hk _ List.mem_cons_self
      rw [if_neg hne] at this
      cases this
  · rintro ⟨he, hk⟩
    refine keeps_cons (fun p hp => ?_) hk
    have := FrozenAt.erase hp
    rwa [if_pos he] at this

lemma keeps_all (l r : Expr) : Keeps (.all l r) ↔ Keeps l ∨ Keeps r := by
  constructor
  · rintro ⟨p, h, hk⟩
    cases h with
    | allLeft h => exact Or.inl (keeps_of_path h hk)
    | allRight h => exact Or.inr (keeps_of_path h hk)
  · rintro (h | h)
    · exact keeps_cons (fun _ => .allLeft) h
    · exact keeps_cons (fun _ => .allRight) h

lemma keeps_any (l r : Expr) : Keeps (.any l r) ↔ Keeps l ∨ Keeps r := by
  constructor
  · rintro ⟨p, h, hk⟩
    cases h with
    | anyLeft h => exact Or.inl (keeps_of_path h hk)
    | anyRight h => exact Or.inr (keeps_of_path h hk)
  · rintro (h | h)
    · exact keeps_cons (fun _ => .anyLeft) h
    · exact keeps_cons (fun _ => .anyRight) h

lemma keeps_seq (l r : Expr) : Keeps (.seq l r) ↔ Keeps r := by
  refine ⟨?_, keeps_cons fun _ => .seqRight⟩
  rintro ⟨p, h, hk⟩
  cases h with
  | seqLeft h => cases hk _ List.mem_cons_self
  | seqRight h => exact keeps_of_path h hk

lemma keeps_whenAll (es : List Expr) : Keeps (.whenAll es) ↔ ∃ e ∈ es, Keeps e := by
  constructor
  · rintro ⟨p, h, hk⟩
    cases h with
    | whenAll he h => exact ⟨_, he, keeps_of_path h hk⟩
  · rintro ⟨e, he, h⟩
    exact keeps_cons (fun _ => .whenAll he) h

lemma keeps_whenAny (first : Expr) (rest : List Expr) :
    Keeps (.whenAny first rest) ↔ ∃ e ∈ first :: rest, Keeps e := by
  constructor
  · rintro ⟨p, h, hk⟩
    cases h with
    | whenAny he h => exact ⟨_, he, keeps_of_path h hk⟩
  · rintro ⟨e, he, h⟩
    exact keeps_cons (fun _ => .whenAny he) h

lemma keeps_whenSeq (es : List Expr) : Keeps (.whenSeq es) ↔ ∃ e ∈ es, Keeps e := by
  constructor
  · rintro ⟨p, h, hk⟩
    cases h with
    | whenSeq he h => exact ⟨_, he, keeps_of_path h hk⟩
  · rintro ⟨e, he, h⟩
    exact keeps_cons (fun _ => .whenSeq he) h

/-! ### Evaluation -/

/-- The continuable is what the expression should evaluate to. -/
structure Evaluates (e : Expr) (h : Handle) : Prop where
  ok : h.Ok
  erased : h.erased = e.isErased
  frozen : h.ownership.frozen = true ↔ Keeps e

mutual

theorem eval_spec (e : Expr) : ∃ h, e.eval = some h ∧ Evaluates e h := by
  match e with
  | .source erased frozen =>
    have hok : (Handle.mk .default .signature erased []).Ok := ⟨rfl, rfl, fun _ => rfl⟩
    exact ⟨_, Handle.freeze_eq hok frozen, Handle.ok_withOwnership hok frozen, rfl,
      (keeps_source erased frozen).symm⟩
  | .link e =>
    obtain ⟨h, he, hev⟩ := eval_spec e
    obtain ⟨g, hg, hok, hf, her⟩ := Handle.chainContinuation_spec hev.ok
      (show Handle.destroyAll [] = 0 from rfl)
    exact ⟨g, by rw [Expr.eval, he]; exact hg, hok, her,
      by rw [hf, hev.frozen, keeps_link]⟩
  | .finish e =>
    obtain ⟨h, he, hev⟩ := eval_spec e
    obtain ⟨g, hg, hok, hsame, -, her⟩ := Handle.finish_spec hev.ok
    exact ⟨g, by rw [Expr.eval, he]; exact hg, hok, her.trans hev.erased,
      by rw [hsame.ownership, hev.frozen, keeps_finish]⟩
  | .erase e =>
    obtain ⟨h, he, hev⟩ := eval_spec e
    obtain ⟨g, hg, hok, her, hf⟩ := Handle.erase_spec hev.ok
    exact ⟨g, by rw [Expr.eval, he]; exact hg, hok, her,
      by rw [hf, hev.frozen, hev.erased, keeps_erase]⟩
  | .all l r =>
    obtain ⟨hl, hel, hevl⟩ := eval_spec l
    obtain ⟨hr, her, hevr⟩ := eval_spec r
    obtain ⟨g, hg, hok, hga, hf⟩ := Handle.connect_spec hevl.ok hevr.ok .all
    exact ⟨g, by rw [Expr.eval, hel, her]; exact hg, hok, hga,
      by rw [hf, hevl.frozen, hevr.frozen, keeps_all]⟩
  | .any l r =>
    obtain ⟨hl, hel, hevl⟩ := eval_spec l
    obtain ⟨hr, her, hevr⟩ := eval_spec r
    obtain ⟨g, hg, hok, hga, hf⟩ := Handle.connect_spec hevl.ok hevr.ok .any
    exact ⟨g, by rw [Expr.eval, hel, her]; exact hg, hok, hga,
      by rw [hf, hevl.frozen, hevr.frozen, keeps_any]⟩
  | .seq l r =>
    obtain ⟨hl, hel, hevl⟩ := eval_spec l
    obtain ⟨hr, her, hevr⟩ := eval_spec r
    obtain ⟨g, hg, hok, hga, hf⟩ := Handle.sequentialConnect_spec hevl.ok hevr.ok
    exact ⟨g, by rw [Expr.eval, hel, her]; exact hg, hok, hga,
      by rw [hf, hevr.frozen, keeps_seq]⟩
  | .whenAll es =>
    obtain ⟨hs, hes, hok, hfs⟩ := evalAll_spec es
    obtain ⟨g, hg, hgok, hga, hf⟩ := Handle.applyConnection_spec hs hok
    exact ⟨g, by rw [Expr.eval, hes]; exact hg, hgok, hga, by rw [hf, hfs, keeps_whenAll]⟩
  | .whenAny first rest =>
    obtain ⟨h, he, hev⟩ := eval_spec first
    obtain ⟨hs, hes, hok, hfs⟩ := evalAll_spec rest
    obtain ⟨g, hg, hgok, hga, hf⟩ := Handle.applyConnection_spec (h :: hs) (by
      intro k hk
      rcases List.mem_cons.1 hk with rfl | hk
      · exact hev.ok
      · exact hok k hk)
    refine ⟨g, by rw [Expr.eval, he, hes]; exact hg, hgok, hga, ?_⟩
    rw [hf, keeps_whenAny]
    simp only [List.mem_cons, exists_eq_or_imp, hev.frozen, hfs]
  | .whenSeq es =>
    obtain ⟨hs, hes, hok, hfs⟩ := evalAll_spec es
    obtain ⟨g, hg, hgok, hga, hf⟩ := Handle.applyConnection_spec hs hok
    exact ⟨g, by rw [Expr.eval, hes]; exact hg, hgok, hga, by rw [hf, hfs, keeps_whenSeq]⟩

theorem evalAll_spec (es : List Expr) :
    ∃ hs, evalAll es = some hs ∧ (∀ h ∈ hs, h.Ok) ∧
      ((∃ h ∈ hs, h.ownership.frozen = true) ↔ ∃ e ∈ es, Keeps e) := by
  match es with
  | [] => exact ⟨[], rfl, by simp, by simp⟩
  | e :: rest =>
    obtain ⟨h, he, hev⟩ := eval_spec e
    obtain ⟨hs, hes, hok, hfs⟩ := evalAll_spec rest
    refine ⟨h :: hs, by rw [evalAll, he, hes]; rfl, ?_, ?_⟩
    · intro k hk
      rcases List.mem_cons.1 hk with rfl | hk
      · exact hev.ok
      · exact hok k hk
    · simp only [List.mem_cons, exists_eq_or_imp, hev.frozen, hfs]

end

/-- The continuable is frozen if and only if a source of the expression is, and then destroying
it starts nothing. -/
def RespectsFrozen (e : Expr) (h : Handle) : Prop :=
  (h.ownership.frozen = true ↔ ∃ p, FrozenAt e p) ∧ ((∃ p, FrozenAt e p) → h.destroy = 0)

/-- **When an expression respects its frozen sources**: it evaluates, and does so if and only if
some frozen source, if there is one, is reached without passing a conversion to a type erasure
or the left operand of a sequential connection. -/
theorem respectsFrozen_iff (e : Expr) :
    ∃ h, e.eval = some h ∧
      (RespectsFrozen e h ↔
        ((∃ p, FrozenAt e p) → ∃ p, FrozenAt e p ∧ ∀ s ∈ p, s = .kept)) := by
  obtain ⟨h, he, hev⟩ := eval_spec e
  refine ⟨h, he, ?_⟩
  constructor
  · rintro ⟨hiff, -⟩ hex
    exact hev.frozen.1 (hiff.2 hex)
  · intro hkeeps
    refine ⟨⟨fun hf => ?_, fun hex => hev.frozen.2 (hkeeps hex)⟩, fun hex => ?_⟩
    · obtain ⟨p, hp, -⟩ := hev.frozen.1 hf
      exact ⟨p, hp⟩
    · exact Handle.destroy_of_frozen (hev.frozen.2 (hkeeps hex)) hev.ok.quiet

/-- A frozen continuable that is converted to a type erasure, and one that is the left operand of
a sequential connection, are started when the result is destroyed. -/
theorem erase_not_respectsFrozen :
    (∃ h, (Expr.erase (.source false true)).eval = some h ∧
      ¬ RespectsFrozen (.erase (.source false true)) h ∧ h.destroy = 1) ∧
    ∃ h, (Expr.seq (.source false true) (.source false false)).eval = some h ∧
      ¬ RespectsFrozen (.seq (.source false true) (.source false false)) h ∧ h.destroy = 1 := by
  refine ⟨⟨_, rfl, ?_, rfl⟩, ⟨_, rfl, ?_, rfl⟩⟩
  · rintro ⟨hiff, -⟩
    cases hiff.2 ⟨_, .erase .source⟩
  · rintro ⟨hiff, -⟩
    cases hiff.2 ⟨_, .seqLeft .source⟩

end Continuable.Frozen
