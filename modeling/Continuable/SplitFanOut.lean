import Continuable.SplitPromise
import Continuable.TraversePackCoverage

/-!
A split promise is not empty if one of its promises is not, and resolving it resolves each of these
once.
-/

namespace Continuable.Split

open Packs Promise

variable {V E : Type}

/-! ### The arguments -/

mutual

lemma call_lvalue_args : ∀ (p : Promise) (args : Option (Signal V E)),
    (call p .lvalue args).2.1 = args
  | .callable _, _ => rfl
  | .erased _ none, _ => rfl
  | .erased _ (some _), _ => rfl
  | .split first ps, args => by
    have hps := callAll_args ps args
    unfold call
    by_cases hf : operatorBool first = true
    · simp only [hf, if_true, hps]
      exact call_lvalue_args first args
    · simp only [hf]
      exact hps

lemma callPack_args : ∀ (p : Promises) (args : Option (Signal V E)), (callPack p args).2.1 = args
  | .leaf _ p, args => by
    unfold callPack
    split
    · exact call_lvalue_args p args
    · rfl
  | .tupleLike _ ps, args => callAll_args ps args
  | .array _ ps, args => callAll_args ps args
  | .container _ ps, args => callAll_args ps args

lemma callAll_args : ∀ (ps : List Promises) (args : Option (Signal V E)),
    (callAll ps args).2.1 = args
  | [], _ => rfl
  | p :: ps, args => by
    simp only [callAll, callPack_args p args]
    exact callAll_args ps args

end

/-! ### The pack -/

/-- The visitor of `split_promise::operator()`. -/
def visit (args : Option (Signal V E)) (p : Promise) : Promise × List (Event V E) :=
  if operatorBool p then
    let r := call p .lvalue args
    (r.1, r.2.2)
  else (p, [])

lemma callAll_of_forall {args : Option (Signal V E)} {f : Promises → Promises}
    {g : Promises → List (Event V E)} {ps : List Promises}
    (h : ∀ p ∈ ps, callPack p args = (f p, args, g p)) :
    callAll ps args = (ps.map f, args, ps.flatMap g) := by
  induction ps with
  | nil => rfl
  | cons p ps ih =>
    unfold callAll
    rw [h p List.mem_cons_self]
    simp only [ih fun q hq => h q (List.mem_cons_of_mem p hq), List.map_cons, List.flatMap_cons]

lemma callPack_eq (p : Promises) (args : Option (Signal V E)) :
    callPack p args = (p.mapLeaves id fun _ q => (visit args q).1, args,
      p.leaves.flatMap fun x => (visit args x.2).2) := by
  induction p using Pack.induct with
  | leaf u p =>
    have hargs := call_lvalue_args p args
    unfold callPack visit
    split
    · simp_all [Pack.mapLeaves, Pack.leaves]
    · simp_all [Pack.mapLeaves, Pack.leaves]
  | tupleLike b ps ih =>
    simp only [callPack, callAll_of_forall ih, Pack.mapLeaves, Pack.leaves, Pack.mapLeavesOf_eq_map,
      Pack.leavesOf_eq_flatMap, List.flatMap_assoc]
  | array t ps ih =>
    simp only [callPack, callAll_of_forall ih, Pack.mapLeaves, Pack.leaves, Pack.mapLeavesOf_eq_map,
      Pack.leavesOf_eq_flatMap, List.flatMap_assoc, Ty.mapLeaves_id]
  | container t ps ih =>
    simp only [callPack, callAll_of_forall ih, Pack.mapLeaves, Pack.leaves, Pack.mapLeavesOf_eq_map,
      Pack.leavesOf_eq_flatMap, List.flatMap_assoc, Ty.mapLeaves_id]

/-- Where it compiles, this is the traversal of the library with the visitor. -/
theorem callPack_eq_traverse {p : Promises} (args : Option (Signal V E)) (hp : p.WellTyped)
    (ha : p.ty.Allowed (fun _ => True) False) (h : traverses (fun _ => true) p.ty = true) :
    callPack p args =
      ((traverse (fun _ => true) (fun _ q => (visit args q).1) p).1, args,
        (traverse (fun _ => true) (fun _ q => (visit args q).1) p).2.flatMap
          fun x => (visit args x.2).2) := by
  have hleading : leading (fun _ => true) p.ty = true := by rw [← traverses_eq_leading ha, h]
  have hvisit : visitAccepted (fun _ : Unit => true) (fun _ (q : Promise) => (visit args q).1) =
      fun _ q => (visit args q).1 := rfl
  rw [traverse_of_leading hp ha hleading, callPack_eq, hvisit, List.filter_true]

lemma boolAll_of_forall {f : Promises → Bool} {ps : List Promises} {isValid : Bool}
    (h : ∀ p ∈ ps, ∀ b, boolPack b p = (b || f p)) :
    boolAll isValid ps = (isValid || ps.any f) := by
  induction ps generalizing isValid with
  | nil => simp [boolAll]
  | cons p ps ih =>
    unfold boolAll
    rw [h p List.mem_cons_self, ih fun q hq => h q (List.mem_cons_of_mem p hq), List.any_cons,
      Bool.or_assoc]

lemma boolPack_eq (p : Promises) (isValid : Bool) :
    boolPack isValid p = (isValid || p.leaves.any fun x => operatorBool x.2) := by
  induction p using Pack.induct generalizing isValid with
  | leaf u p =>
    cases isValid <;> simp [boolPack, Pack.leaves]
  | tupleLike _ ps ih | array _ ps ih | container _ ps ih =>
    simp only [boolPack, boolAll_of_forall ih, Pack.leaves, Pack.leavesOf_eq_flatMap,
      List.any_flatMap]

lemma containedPack_eq (p : Promises) :
    containedPack p = p.leaves.flatMap fun x => contained x.2 := by
  have hall : ∀ ps : List Promises, containedAll ps = ps.flatMap containedPack := fun ps => by
    induction ps with
    | nil => rfl
    | cons p ps ih => rw [containedAll, ih, List.flatMap_cons]
  induction p using Pack.induct with
  | leaf u p => simp [containedPack, Pack.leaves]
  | tupleLike _ ps ih | array _ ps ih | container _ ps ih =>
    rw [containedPack, hall, Pack.leaves, Pack.leavesOf_eq_flatMap, List.flatMap_assoc]
    exact List.flatMap_congr ih

/-! ### The first promise and the pack -/

/-- The promises of the pack. -/
def members (ps : List Promises) : List Promise :=
  (Pack.leavesOf ps).map fun x => x.2

variable {first : Promise} {ps : List Promises}

lemma operatorBool_split : operatorBool (.split first ps) =
    (operatorBool first || (members ps).any operatorBool) := by
  have h := boolPack_eq (.tupleLike .tuple ps) (operatorBool first)
  simpa [operatorBool, operatorBoolOr, members, Pack.leaves, boolPack, List.any_map,
    Function.comp_def] using h

lemma contained_split : contained (.split first ps) =
    contained first ++ (members ps).flatMap contained := by
  have h := containedPack_eq (.tupleLike .tuple ps)
  rw [containedPack] at h
  rw [contained, h, members, List.flatMap_map]
  rfl

/-- The promises of the pack copy the arguments before the first promise takes them. -/
lemma call_split (pass : Pass) (args : Option (Signal V E)) :
    (call (.split first ps) pass args).2.2 = ((members ps).flatMap fun p => (visit args p).2) ++
      if operatorBool first then (call first pass args).2.2 else [] := by
  have hargs : (callAll ps args).2.1 = args := callAll_args ps args
  have hevents : (callAll ps args).2.2 = (members ps).flatMap fun p => (visit args p).2 := by
    have h := congrArg (fun r => r.2.2) (callPack_eq (.tupleLike .tuple ps) args)
    rw [members, List.flatMap_map]
    exact h
  rw [call]
  by_cases hf : operatorBool first = true
  · simp only [hf, if_true, hargs, hevents]
  · simp only [hf, hevents]
    simp

/-! ### What is resolved -/

/-- The promise is not empty if something in it is not, and then everything in it that is not empty
is called with the arguments. -/
structure FansOut (V E : Type) (p : Promise) : Prop where
  nonempty : operatorBool p = true ↔ contained p ≠ []
  resolves : ∀ pass (signal : Signal V E), operatorBool p = true →
    (call p pass (some signal)).2.2.Perm ((contained p).map fun id => .called id (some signal))

lemma FansOut.visit {p : Promise} (h : FansOut V E p) (signal : Signal V E) :
    (visit (some signal) p).2.Perm ((contained p).map fun id => .called id (some signal)) := by
  unfold Split.visit
  by_cases hp : operatorBool p = true
  · simpa only [hp, if_true] using h.resolves .lvalue signal hp
  · have hnil : contained p = [] := not_not.1 (mt h.nonempty.2 hp)
    simp [hp, hnil]

lemma fansOut_split (hfirst : FansOut V E first) (hps : ∀ p ∈ members ps, FansOut V E p) :
    FansOut V E (.split first ps) := by
  constructor
  · rw [operatorBool_split, contained_split, Bool.or_eq_true, hfirst.nonempty, List.any_eq_true]
    simp only [ne_eq, List.append_eq_nil_iff, List.flatMap_eq_nil_iff, not_and_or]
    refine or_congr Iff.rfl ⟨fun ⟨p, hp, hbool⟩ hnil => ?_, fun hne => ?_⟩
    · exact (hps p hp).nonempty.1 hbool (hnil p hp)
    · push Not at hne
      obtain ⟨p, hp, hne⟩ := hne
      exact ⟨p, hp, (hps p hp).nonempty.2 hne⟩
  · intro pass signal _
    have hmembers : ((members ps).flatMap fun p => (visit (some signal) p).2).Perm
        (((members ps).flatMap contained).map fun id => .called id (some signal)) := by
      rw [List.map_flatMap]
      exact List.Perm.flatMap_left _ fun p hp => (hps p hp).visit signal
    have hcall : (if operatorBool first then (call first pass (some signal)).2.2 else []).Perm
        ((contained first).map fun id => .called id (some signal)) := by
      split_ifs with hf
      · exact hfirst.resolves pass signal hf
      · have hnil : contained first = [] := not_not.1 (mt hfirst.nonempty.2 hf)
        rw [hnil]
        exact .refl _
    rw [call_split, contained_split]
    calc ((members ps).flatMap fun p => (visit (some signal) p).2) ++
          (if operatorBool first then (call first pass (some signal)).2.2 else [])
      List.Perm _ ((((members ps).flatMap contained).map fun id => .called id (some signal)) ++
          (contained first).map fun id => .called id (some signal)) := hmembers.append hcall
      List.Perm _ (((contained first).map fun id => .called id (some signal)) ++
          ((members ps).flatMap contained).map fun id => .called id (some signal)) :=
        List.perm_append_comm
      _ = (contained first ++ (members ps).flatMap contained).map
          fun id => .called id (some signal) := List.map_append.symm

lemma Obtained.fansOut {p : Promise} (h : Obtained p) : FansOut V E p := by
  induction h with
  | callable id =>
    exact ⟨by simp [operatorBool, operatorBoolOr, contained], fun _ _ _ => .refl _⟩
  | empty id =>
    exact ⟨by simp [operatorBool, operatorBoolOr, contained], fun _ _ hp => by cases hp⟩
  | store id h ih =>
    unfold Promise.store
    split_ifs with hp
    · refine ⟨by simp [operatorBool, operatorBoolOr, contained], fun pass signal _ => ?_⟩
      exact (ih.resolves .rvalue signal hp).cons _
    · exact ⟨by simp [operatorBool, operatorBoolOr, contained], fun _ _ hc => by cases hc⟩
  | split h hps ih ihps =>
    refine fansOut_split ih fun p hp => ?_
    obtain ⟨x, hx, rfl⟩ := List.mem_map.1 hp
    rw [Pack.leavesOf_eq_flatMap] at hx
    obtain ⟨q, hq, hx⟩ := List.mem_flatMap.1 hx
    exact ihps q hq x hx

/-- A promise that was obtained by splits is not empty if and only if something in it is not;
storing it keeps what it contains; and each way to resolve it calls everything in it that is not
empty exactly once, with the same arguments, and nothing that is empty. -/
theorem split_behaves {p : Promise} (h : Obtained p) :
    (operatorBool p = true ↔ contained p ≠ []) ∧
      (∀ id, ∀ x ∈ contained p, x ∈ contained (p.store id)) ∧
      (operatorBool p = true →
        (∀ args : List V, (p.setValue args : List (Event V E)).Perm
          ((contained p).map fun id => .called id (some (.value args)))) ∧
        (∀ exception : Option E, (p.setException exception : List (Event V E)).Perm
          ((contained p).map fun id => .called id (some (.exception exception)))) ∧
        (p.setCanceled : List (Event V E)).Perm
          ((contained p).map fun id => .called id (some (.exception none)))) := by
  have hp : FansOut V E p := h.fansOut
  refine ⟨hp.nonempty, fun id x hx => ?_, fun hbool => ⟨fun args => ?_, fun exception => ?_, ?_⟩⟩
  · have hbool : operatorBool p = true := hp.nonempty.2 (List.ne_nil_of_mem hx)
    simp [store, hbool, contained, hx]
  · exact hp.resolves .rvalue (.value args) hbool
  · exact hp.resolves .rvalue (.exception exception) hbool
  · exact hp.resolves .rvalue (.exception none) hbool

/-- An empty promise is split with a container of two promises and with a plain callable. -/
theorem split_behaves_container :
    ((Promise.split (.erased 0 none) [
        .container (.leaf ())
          [.leaf () (.erased 1 (some (.callable 2))), .leaf () (.erased 3 none)],
        .leaf () (.callable 4)]).setValue [7] : List (Event ℕ ℕ)).Perm
      [.called 1 (some (.value [7])), .called 2 (some (.value [7])),
        .called 4 (some (.value [7]))] := by
  refine ((split_behaves (.split (.empty 0) fun p hp x hx => ?_)).2.2 (by decide)).1 [7]
  simp only [List.mem_cons, List.not_mem_nil, or_false] at hp
  rcases hp with rfl | rfl
  · simp only [Pack.leaves, Pack.leavesOf, List.append_nil, List.cons_append, List.nil_append,
      List.mem_cons, List.not_mem_nil, or_false] at hx
    rcases hx with rfl | rfl
    · exact .store 1 (.callable 2)
    · exact .empty 3
  · simp only [Pack.leaves, List.mem_singleton] at hx
    subst hx
    exact .callable 4

end Continuable.Split
