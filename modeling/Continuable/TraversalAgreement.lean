import Continuable.AsyncTraversalSpec
import Continuable.MapPackValues
import Continuable.TraversePack

/-!
The plain and the asynchronous traversal of a pack.

Both come to the leaves in the same order. Where the plain traversal compiles, a visitor of the
asynchronous one is called with the leaves that the plain visitor is called with, however often it
detaches on the way.
-/

namespace Continuable.Packs

open ResumableLoop Traversal

variable {L : Type} {V : L → Type} {accepts : L → Bool} {visit : ∀ l, V l → V l}

mutual

/-- A pack as `traverse_pack_async` goes through it; a `std::array` has iterators. -/
def Pack.async : Pack L V → Traversal.Pack ((l : L) × V l)
  | .leaf l v => .leaf ⟨l, v⟩
  | .tupleLike _ ps => .tuple (asyncAll ps)
  | .array _ ps | .container _ ps => .container (asyncAll ps)

def asyncAll : List (Pack L V) → List (Traversal.Pack ((l : L) × V l))
  | [] => []
  | p :: ps => p.async :: asyncAll ps

end

/-! ### The plain traversal -/

lemma effectiveAnyOf_eq_no_iff {l : List Invocable} :
    effectiveAnyOf l = .no ↔ ∀ i ∈ l, i = .no := by
  induction l with
  | nil => simp [effectiveAnyOf]
  | cons i l ih => cases i <;> simp [effectiveAnyOf, ih]

lemma traversor_eq_no_iff {t : Ty L} : traversor accepts t = .no ↔ touched accepts t = false := by
  induction t with
  | leaf l => cases ha : accepts l <;> simp [traversor, touched, ha]
  | tupleLike b ts ih =>
    have hno : effectiveAnyOf (ts.map (traversor accepts)) = .no ↔
        ∀ t ∈ ts, touched accepts t = false := by
      rw [effectiveAnyOf_eq_no_iff, List.forall_mem_map]
      exact forall₂_congr ih
    rw [touched, touchedAny_eq_any, List.any_eq_false]
    simp only [Bool.not_eq_true, ← hno, traversor, traversorAll_eq_map]
    cases effectiveAnyOf (ts.map (traversor accepts)) with
    | no => simp
    | yes => simp only; split_ifs <;> simp
    | error => simp
  | array t n ih =>
    rw [touched, ← ih, traversor]
    split_ifs with h <;> simp [h]
  | container t ih => exact ih

lemma traverse_snd {p : Pack L V} (hp : p.WellTyped) (h : traverses accepts p.ty = true) :
    (traverse accepts visit p).2 = p.leaves.filter fun x => accepts x.1 := by
  have hall : ∀ ps : List (Pack L V), (∀ p ∈ ps, (traverse accepts visit p).2 =
      p.leaves.filter fun x => accepts x.1) → (traverseAll accepts visit ps).2 =
        (Pack.leavesOf ps).filter fun x => accepts x.1 := by
    intro ps h
    induction ps with
    | nil => rfl
    | cons p ps ih =>
      obtain ⟨hhead, htail⟩ := List.forall_mem_cons.1 h
      rw [traverseAll, Pack.leavesOf, List.filter_append, hhead, ih htail]
  induction p with
  | leaf l v => cases hl : accepts l <;> simp [traverse, Pack.leaves, hl]
  | tupleLike b ps ih =>
    have htyped := hp
    simp only [Pack.WellTyped] at hp
    rw [Pack.ty] at h
    rw [traverse]
    cases heff : effectiveAnyOf (traversorAll accepts (Pack.tys ps)) with
    | no =>
      have hno : traversor accepts (Pack.tupleLike b ps).ty = .no := by
        rw [Pack.ty, traversor]
        simp only [heff]
      rw [filter_leaves_of_untouched htyped (traversor_eq_no_iff.1 hno)]
      rfl
    | error =>
      rw [traverses, heff] at h
      cases h
    | yes =>
      rw [traverses, heff] at h
      simp only [traversesAll_eq_all, Pack.tys_eq_map, List.all_map, List.all_eq_true] at h
      rw [if_pos rfl, Pack.leaves]
      exact hall ps fun p hmem => ih p hmem (hp.2 p hmem) (h p hmem)
  | array t ps =>
    have hno : traversor accepts (Pack.array t ps).ty = .no := by
      rw [Pack.ty, traverses, decide_eq_true_eq] at h
      rw [Pack.ty, traversor, if_pos h]
    rw [filter_leaves_of_untouched hp (traversor_eq_no_iff.1 hno), traverse]
  | container t ps ih =>
    have htyped := hp
    simp only [Pack.WellTyped] at hp
    rw [Pack.ty, traverses] at h
    rw [traverse]
    cases ht : traversor accepts t with
    | no =>
      rw [filter_leaves_of_untouched htyped (traversor_eq_no_iff.1 ht)]
      rfl
    | error =>
      rw [ht] at h
      cases h
    | yes =>
      rw [ht] at h
      rw [if_pos rfl, Pack.leaves]
      refine hall ps fun p hmem => ih p hmem (hp.2 p hmem).2 ?_
      rw [(hp.2 p hmem).1]
      exact h

/-! ### The asynchronous traversal -/

lemma accepted_async (p : Pack L V) :
    p.async.accepted (fun x => accepts x.1) = p.leaves.filter fun x => accepts x.1 := by
  have hall : ∀ ps : List (Pack L V), (∀ p ∈ ps, p.async.accepted (fun x => accepts x.1) =
      p.leaves.filter fun x => accepts x.1) → acceptedLeaves (fun x => accepts x.1) (asyncAll ps) =
        (Pack.leavesOf ps).filter fun x => accepts x.1 := by
    intro ps h
    induction ps with
    | nil => rfl
    | cons p ps ih =>
      obtain ⟨hhead, htail⟩ := List.forall_mem_cons.1 h
      rw [asyncAll, acceptedLeaves, Pack.leavesOf, List.filter_append, hhead, ih htail]
  induction p with
  | leaf l v => cases hl : accepts l <;> simp [Pack.async, Traversal.Pack.accepted, Pack.leaves, hl]
  | tupleLike b ps ih =>
    rw [Pack.async, Traversal.Pack.accepted, Pack.leaves]
    exact hall ps ih
  | array t ps ih =>
    rw [Pack.async, Traversal.Pack.accepted, Pack.leaves]
    exact hall ps ih
  | container t ps ih =>
    rw [Pack.async, Traversal.Pack.accepted, Pack.leaves]
    exact hall ps ih

variable {σ : Type}

lemma run_of_visits {α : Type} {body : Body σ α} (h : ∀ a u, (body.visit a u).1 = true)
    (items : List α) (s : Loop σ α) :
    (Loop.run body items s).log = s.log ++ items.map .visit ++ [.complete] := by
  induction items generalizing s with
  | nil => simp [Loop.run, Loop.emit]
  | cons a items ih => simp [Loop.run, h, ih, Loop.emit, Loop.withUser]

/-- **The asynchronous traversal works in the same way as the plain one.** Whenever it stands still
its visitor was called with the first of the leaves that the plain traversal visits, in the same
order, and with all of them when the traversal is complete. A visitor that never detaches sees all
of them at once. -/
theorem traversePackAsync_agrees {p q : Pack L V} (hp : p.WellTyped)
    {leaves : List ((l : L) × V l)} (h : traversePack accepts visit p = some (q, leaves))
    (body : Body σ ((l : L) × V l)) (u : σ) (wakes fuel : ℕ) :
    let log := observed (traversal ⟨body, fun x => accepts x.1⟩ (leaves.length + fuel)
      [p.async] u wakes).trace
    visited log <+: leaves ∧ (.complete ∈ log → visited log = leaves) ∧
      ((∀ x u, (body.visit x u).1 = true) → log = leaves.map .visit ++ [.complete]) := by
  intro log
  have hleaves : acceptedLeaves (fun x => accepts x.1) [p.async] = leaves := by
    unfold traversePack at h
    split_ifs at h with hcompiles
    have hsnd : (traverse accepts visit p).2 = leaves := congrArg Prod.snd (Option.some.inj h)
    rw [traverse_snd hp hcompiles] at hsnd
    rw [acceptedLeaves, acceptedLeaves, List.append_nil, accepted_async, hsnd]
  have hlog : log = (Loop.after body leaves u wakes).log := by
    have hloop := traversal_loop (v := ⟨body, fun x => accepts x.1⟩) [p.async] u wakes
      (leaves.length + fuel) (by rw [hleaves]; omega)
    rw [hleaves] at hloop
    exact congrArg Loop.log hloop
  rw [hlog]
  refine ⟨?_, fun hcomplete => ?_, fun hvisit => ?_⟩
  · rcases after_idle body leaves u wakes with
      ⟨⟨l, hl, -, hv, -⟩, -⟩ | ⟨a, rest, ⟨⟨l, hv, hi⟩, -⟩, -⟩
    · rw [hl, visited_append, hv]
      exact (List.append_nil leaves).symm ▸ List.prefix_refl leaves
    · exact ⟨rest, by rw [hv, hi, List.append_assoc]; rfl⟩
  · rcases after_idle body leaves u wakes with ⟨⟨l, hl, -, hv, -⟩, -⟩ | ⟨a, rest, ⟨-, -, hc⟩, -⟩
    · rw [hl, visited_append, hv]
      exact List.append_nil leaves
    · exact absurd hcomplete hc
  · have hrun := run_of_visits hvisit leaves ⟨u, [], none⟩
    have hpending : (Loop.run body leaves ⟨u, [], none⟩).pending = none := by
      rcases after_idle body leaves u 0 with ⟨-, hn⟩ | ⟨a, rest, ⟨-, -, hc⟩, -⟩
      · exact hn
      · exact absurd (by rw [Loop.after, Function.iterate_zero, id, hrun]; simp) hc
    rw [Loop.after, wake_of_idle body hpending, hrun]
    rfl

/-- A body that keeps the callable it is handed at an even number. -/
def keepsEven : Body Unit ((_ : Bool) × ℕ) where
  visit := fun x _ => (x.2 % 2 = 1, ())
  detach := fun _ _ => (.kept, ())
  wake := fun _ _ => (true, ())
  resumed := fun _ _ => ()
  complete := fun _ => ()

/-- The leaves of one of the two types are accepted. -/
def nested : Pack Bool fun _ => ℕ :=
  .tupleLike .pair [.container (.leaf true) [.leaf true 1, .leaf true 2],
    .tupleLike .tuple [.leaf true 3, .leaf false 4]]

lemma nested_wellTyped : nested.WellTyped := by
  simp [nested, Pack.WellTyped, Pack.ty, Ty.Allowed, Base.fits]

lemma traversePack_nested : traversePack id (fun _ n => n) nested =
    some (nested, [⟨true, 1⟩, ⟨true, 2⟩, ⟨true, 3⟩]) := rfl

theorem traversePackAsync_agrees_nested :
    let log := observed (traversal ⟨keepsEven, fun x => x.1⟩ (3 + 0) [nested.async] () 1).trace
    visited log <+: [⟨true, 1⟩, ⟨true, 2⟩, ⟨true, 3⟩] ∧
      (.complete ∈ log → visited log = [⟨true, 1⟩, ⟨true, 2⟩, ⟨true, 3⟩]) ∧
        ((∀ x u, (keepsEven.visit x u).1 = true) →
          log = [.visit ⟨true, 1⟩, .visit ⟨true, 2⟩, .visit ⟨true, 3⟩, .complete]) :=
  traversePackAsync_agrees nested_wellTyped traversePack_nested keepsEven () 1 0

end Continuable.Packs
