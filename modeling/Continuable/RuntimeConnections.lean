import Continuable.RuntimeLaws

/-!
Connections in event loops.

A connection of one strategy may be nested in another one of the same strategy, or its members may
stand in its place: the downstream callback is used for the same at the same event.
-/

namespace Continuable.Runtime

open ChainDestruction (Use)
open Operators (Strategy)
open Waiting (Wait)
open Waiting.Wait (now gather)

variable {V E : Type}

lemma meanings_eq (members : List (Continuation V E)) :
    meanings members = members.map Continuation.meaning := by
  induction members with
  | nil => rfl
  | cons c members ih => rw [meanings, ih, List.map_cons]

/-! ### Verdicts of connections in connections -/

section verdicts

variable {s : Strategy}

lemma collected_append (us ws : List (Use V E)) :
    collected (us ++ ws) = (collected us).bind fun vs => (collected ws).map (vs ++ ·) := by
  induction us with
  | nil => simp [collected]
  | cons u us ih =>
    rcases u with (vs | e) | _
    · simp only [List.cons_append, collected, ih]
      cases collected us <;> cases collected ws <;> simp
    · rfl
    · rfl

lemma decisive_conclude (us : List (Use V E)) : decisive s (conclude s us) = false := by
  cases s with
  | any => rfl
  | all => rw [conclude]; cases collected us <;> rfl

lemma conclude_all_congr {us ws : List (Use V E)} (h : collected us = collected ws) :
    conclude .all us = conclude .all ws := by
  rw [conclude, conclude, h]

lemma conclude_nested (us ms ws : List (Use V E)) :
    conclude s (us ++ conclude s ms :: ws) = conclude s (us ++ ms ++ ws) := by
  cases s with
  | any => rfl
  | all =>
    have hcollected : collected (conclude .all ms :: ws) = collected (ms ++ ws) := by
      rw [collected_append, conclude]
      cases collected ms <;> rfl
    refine conclude_all_congr ?_
    rw [List.append_assoc, collected_append us, collected_append us, hcollected]

lemma verdict_of_find {ins : List (Option (Use V E))} {x : Use V E}
    (h : (ins.filterMap id).find? (decisive s) = some x) (d : Bool) : verdict s d ins = some x := by
  rw [verdict, h, Option.some_or]

/-- **A connection in a connection** amounts to its members. -/
lemma verdict_nested (P M Q : List (Option (Use V E))) :
    verdict s true (P ++ verdict s true M :: Q) = verdict s true (P ++ M ++ Q) := by
  cases hfind : (M.filterMap id).find? (decisive s) with
  | some x =>
    have hx : decisive s x = true := List.find?_some hfind
    rw [verdict_of_find hfind]
    simp only [verdict, List.filterMap_append, filterMap_some_cons, List.find?_append,
      List.find?_cons, hx, hfind]
    cases (P.filterMap id).find? (decisive s) <;> simp
  | none =>
    by_cases hall : M.all Option.isSome = true
    · have hverdict : verdict s true M = some (conclude s (M.filterMap id)) := by
        rw [verdict, hfind, hall]
        rfl
      rw [hverdict]
      simp only [verdict, List.filterMap_append, filterMap_some_cons, List.find?_append,
        List.find?_cons, decisive_conclude, hfind, conclude_nested, List.all_append, List.all_cons,
        hall, Option.isSome_some, Bool.true_and, Option.or_none, Bool.and_true]
    · have hverdict : verdict s true M = none := by
        rw [verdict, hfind, Bool.true_and, if_neg hall]
        rfl
      have hnone : (none :: Q).filterMap id = Q.filterMap id := rfl
      rw [hverdict]
      simp only [verdict, List.filterMap_append, hnone, List.find?_append, hfind, List.all_append,
        List.all_cons, Option.isSome_none, eq_false_of_ne_true hall, Bool.false_and, Bool.and_false,
        Option.or_none, Bool.false_eq_true, if_false]

lemma verdict_single (o : Option (Use V E)) : verdict s true [o] = o := by
  rcases s with _ | _ <;> rcases o with _ | (vs | e) | _ <;>
    simp [verdict, decisive, conclude, collected]

end verdicts

/-! ### Connections in connections -/

section gather

variable {s : Strategy} {us ws vs : List (Meaning V E)}

lemma gather_after_of_undecided
    (h : ((ws.map fun w => w.known []).filterMap id).find? (decisive s) = none) (n : ℕ) :
    (gather (verdict s true) ws).after n = gather (verdict s true) (ws.map fun w => w.after n) := by
  cases hv : verdict s true (ws.map fun w => w.known []) with
  | none => exact Wait.gather_after hv n
  | some x =>
    -- all members are in, and stay what they are
    have hall : (ws.map fun w => w.known []).all Option.isSome = true := by
      rw [verdict, h, Option.none_or] at hv
      split_ifs at hv with hall
      exact hall
    have hstays : ws.map (fun w => w.after n) = ws := by
      rw [List.map_congr_left (g := id) fun w hw => ?_, List.map_id]
      have hw' := List.all_eq_true.1 hall _ (List.mem_map_of_mem (f := fun w => w.known []) hw)
      obtain ⟨a, ha⟩ := Option.isSome_iff_exists.1 hw'
      rw [Wait.eq_now ha]
      rfl
    have hnow : gather (verdict s true) ws = now x := Wait.eq_now hv
    rw [hstays, hnow, Wait.now_after]

lemma gather_nested :
    gather (verdict s true) (us ++ gather (verdict s true) ws :: vs) =
      gather (verdict s true) (us ++ ws ++ vs) := by
  refine Wait.eq_of_bisim (R := fun v v' => ∃ us ws vs : List (Meaning V E),
    v = gather (verdict s true) (us ++ gather (verdict s true) ws :: vs) ∧
      v' = gather (verdict s true) (us ++ ws ++ vs)) ?_ ⟨us, ws, vs, rfl, rfl⟩
  rintro _ _ ⟨us, ws, vs, rfl, rfl⟩
  have hknown : verdict s true
      ((us ++ gather (verdict s true) ws :: vs).map fun w => w.known []) =
        verdict s true ((us ++ ws ++ vs).map fun w => w.known []) := by
    simp only [List.map_append, List.map_cons, Wait.gather_nil, verdict_nested]
  refine ⟨hknown, fun hnone n => ?_⟩
  rw [Wait.gather_nil] at hnone
  have hundecided : ((ws.map fun w => w.known []).filterMap id).find? (decisive s) = none := by
    rw [hknown] at hnone
    have hfind := (Option.or_eq_none_iff.1 hnone).1
    simp only [List.map_append, List.filterMap_append, List.find?_append,
      Option.or_eq_none_iff] at hfind
    exact hfind.1.2
  refine ⟨us.map fun w => w.after n, ws.map fun w => w.after n, vs.map fun w => w.after n, ?_, ?_⟩
  · rw [Wait.gather_after hnone, List.map_append, List.map_cons,
      gather_after_of_undecided hundecided]
  · rw [hknown] at hnone
    rw [Wait.gather_after hnone, List.map_append, List.map_append]

lemma gather_single (w : Meaning V E) : gather (verdict s true) [w] = w := by
  refine Wait.eq_of_bisim (R := fun v v' => v = gather (verdict s true) [v']) ?_ rfl
  rintro _ v rfl
  have hknown : verdict s true ([v].map fun w => w.known []) = v.known [] := verdict_single _
  refine ⟨hknown, fun hnone n => ?_⟩
  rw [Wait.gather_nil] at hnone
  exact Wait.gather_after hnone n

end gather

/-- **Connections can be flattened.** A connection among the members of a connection of the same
strategy stands for its own members, and a connection of one member for that member. -/
theorem connected_behaves (s : Strategy) :
    (∀ pre members post : List (Continuation V E),
      Equivalent (.connected s (pre ++ .connected s members :: post))
        (.connected s (pre ++ members ++ post))) ∧
    ∀ c : Continuation V E, Equivalent (.connected s [c]) c := by
  refine ⟨fun pre members post => ?_, fun c => ?_⟩
  · rw [equivalent_iff]
    simp only [Continuation.meaning, meanings_eq, List.map_append, List.map_cons, gather_nested]
  · rw [equivalent_iff]
    exact gather_single c.meaning

end Continuable.Runtime
