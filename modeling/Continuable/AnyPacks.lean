import Continuable.AnyConnection
import Continuable.ConnectionPacks
import Continuable.TraversePackCoverage

/-!
The packs that `when_any` works on.

The signature hint of the connection is deduced from the types of the prepared pack, which have
to hold continuables of one signature hint and nothing else. Such types are dispatched as a
whole.
-/

namespace Continuable.Any

open Packs Connection

variable {P : Type} {D : P → Type} {R : List P → Type} [DecidableEq P]

/-- `deduce_same_hints`, which fails if the hints differ or there are none. -/
def deduceSameHints : List (Option (List P)) → Option (List P)
  | [] => none
  | first :: rest => if rest.all (· = first) then first else none

mutual

/-- `result_deducer::deduce`: the signature hint, if no static assertion fails. -/
def deduce : ConnTy P → Option (List P)
  | .leaf (.continuable args) => some args
  | .leaf _ => none
  | .tupleLike _ ts => deduceSameHints (deduceTupleLike ts)
  | .array t _ | .container t => deduce t

def deduceTupleLike : List (ConnTy P) → List (Option (List P))
  | [] => []
  | t :: ts => deduce t :: deduceTupleLike ts

end

@[simp] lemma deduceTupleLike_eq_map (ts : List (ConnTy P)) :
    deduceTupleLike ts = ts.map deduce := by
  induction ts with
  | nil => rfl
  | cons t ts ih => simp [deduceTupleLike, ih]

/-- `when_any` of the arguments: its signature hint, and the continuables that are started, in
order. -/
def connection (args : List (ConnPack D R)) :
    Option (List P × List ((l : LeafTy P) × LeafVal D R l)) := do
  let prepared ← mapPack prepareContinuables [.tupleLike .tuple args]
  let prepared ← prepared.1
  let signature ← deduce prepared.ty
  let dispatched ← traversePack isContinuable (fun _ v => v) prepared
  some (signature, dispatched.2)

lemma deduceSameHints_some {l : List (Option (List P))} {hint : List P}
    (h : deduceSameHints l = some hint) : l ≠ [] ∧ ∀ o ∈ l, o = some hint := by
  match l with
  | [] => cases h
  | first :: rest =>
    simp only [deduceSameHints] at h
    split_ifs at h with hall
    rw [h] at hall ⊢
    simp only [List.all_eq_true, decide_eq_true_eq] at hall
    exact ⟨List.cons_ne_nil _ _, List.forall_mem_cons.2 ⟨rfl, hall⟩⟩

/-- A signature hint is only deduced from types that consist of such continuables. -/
lemma deduce_some {t : ConnTy P} {hint : List P} (h : deduce t = some hint)
    {leafs : LeafTy P → Prop} {arrays : Prop} (ha : t.Allowed leafs arrays) :
    entire isContinuable t = true ∧ t.Allowed (fun l => l = .continuable hint) arrays := by
  induction t using Ty.induct with
  | leaf l =>
    cases l with
    | continuable args =>
      obtain rfl := Option.some.inj h
      simp [entire, isContinuable, Ty.Allowed]
    | plain p | box args => cases h
  | tupleLike b ts ih =>
    simp only [Ty.Allowed] at ha
    simp only [deduce, deduceTupleLike_eq_map] at h
    obtain ⟨hne, hall⟩ := deduceSameHints_some h
    have hts : ts ≠ [] := fun hnil => hne (by rw [hnil, List.map_nil])
    have ih' : ∀ t ∈ ts, entire isContinuable t = true ∧
        t.Allowed (fun l => l = .continuable hint) arrays :=
      fun t ht => ih t ht (hall _ (List.mem_map_of_mem ht)) (ha.2 t ht)
    simp only [entire, entireAll_eq_all, Ty.Allowed, Bool.and_eq_true, Bool.not_eq_true',
      List.isEmpty_eq_false_iff, List.all_eq_true]
    exact ⟨⟨hts, fun t ht => (ih' t ht).1⟩, ha.1, fun t ht => (ih' t ht).2⟩
  | array t n ih =>
    simp only [Ty.Allowed] at ha
    simp only [deduce] at h
    simp only [entire, Ty.Allowed]
    exact ⟨(ih h ha.2).1, ha.1, (ih h ha.2).2⟩
  | container t ih =>
    simp only [Ty.Allowed] at ha
    simp only [deduce] at h
    simp only [entire, Ty.Allowed]
    exact ih h ha

/-- Arguments that `when_any` accepts. -/
structure Arguments (D : P → Type) (R : List P → Type) where
  args : List (Argument D R)
  hint : List P
  deduced : deduce (root args).ty = some hint

/-- The continuables of the arguments in order, prepared. -/
def Arguments.members (a : Arguments D R) : List ((args : List P) × Source (R args)) :=
  (continuables (root a.args)).map fun c => ⟨c.1, c.2.prepare⟩

/-- **What `when_any` dispatches**: every continuable of its arguments, once and in order. They
have the signature hint of the connection. -/
theorem connection_eq (a : Arguments D R) :
    ∃ dispatched, connection (a.args.map Subtype.val) = some (a.hint, dispatched) ∧
      sources dispatched = a.members ∧ ∀ m ∈ a.members, m.1 = a.hint := by
  have ha := root_allowed a.args
  obtain ⟨hentire, hhint⟩ := deduce_some a.deduced ha
  have hleading : leading isContinuable (root a.args).ty = true := leading_of_entire ha hentire
  have hprepare := mapPack_of_renames prepareContinuables_renames (root_wellTyped a.args)
    (by rw [prepareContinuables_accepts, covered_of_leading hleading])
  have hdispatch : traverse isContinuable (fun _ v => v) (prepared a.args) = _ :=
    traverse_of_leading (prepared_wellTyped a.args) (by rw [prepared_ty]; exact ha)
      (by rw [prepared_ty]; exact hleading)
  refine ⟨(prepared a.args).leaves.filter fun x => isContinuable x.1, ?_, ?_, ?_⟩
  · rw [← prepared, root] at hprepare
    simp only [connection, hprepare, prepared_ty, a.deduced, traversePack,
      traverses_eq_leading ha, hleading, hdispatch, if_true, Option.bind_eq_bind,
      Option.bind_some]
  · rw [sources_filter, ← continuables, continuables_prepared]
    rfl
  · intro m hm
    obtain ⟨c, hc, rfl⟩ := List.mem_map.1 hm
    exact LeafTy.continuable.inj
      (Pack.leaves_allowed (root_wellTyped a.args) hhint _ (mem_of_mem_sources hc))

end Continuable.Any
