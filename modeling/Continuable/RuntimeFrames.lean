import Continuable.RuntimeMeaning
import Continuable.WaitingLoops

/-!
Frames that start continuables one after the other.

Such a frame is kept by the handler that it attaches to the continuable that it has started. When
the handler is used, the frame starts the next continuable or uses its own callback, which is
destroyed with the frame otherwise. Its callback is used for what the continuables come to one after
the other, whenever they do.
-/

namespace Continuable.Runtime

open ChainDestruction (Use)
open Waiting (Wait)
open Waiting.Wait (now never)

variable {S V E : Type}

/-- What a frame does next. It is leaked when nobody can have it go on or destroy it. -/
inductive Move (S V E : Type)
  | start (state : S) (continuation : Continuation V E)
  | stop (use : Use V E)
  | leak

/-- The code of a frame: what it does next, and what it makes of the use of its handler. -/
structure Driver (S V E : Type) where
  advance : S → Move S V E
  resume : S → Use V E → S ⊕ Use V E

/-- A frame, with the continuables that it has started so far, the newest first. -/
structure Frame (S V E : Type) where
  fuel : ℕ
  state : S
  callback : List (Use V E)
  started : List (Node V E)

namespace Frame

def stop (s : Frame S V E) (u : Use V E) : Frame S V E := { s with callback := s.callback ++ [u] }

/-- The handler is used. -/
def resume (d : Driver S V E) (go : Frame S V E → Frame S V E) (s : Frame S V E) (u : Use V E) :
    Frame S V E :=
  match d.resume s.state u with
  | .inl state => go { s with state := state }
  | .inr u => s.stop u

/-- The frame starts at most `fuel` continuables; each may use the handler right away. -/
def advance (d : Driver S V E) : ℕ → Frame S V E → Frame S V E
  | 0, s => s
  | fuel + 1, s =>
    match d.advance s.state with
    | .stop u => s.stop u
    | .leak => s
    | .start state c =>
      let node := source c c.start
      node.uses.foldl (resume d (advance d fuel))
        { s with fuel := fuel, state := state, started := node :: s.started }

/-- An event comes to the continuables that were started. -/
def event (d : Driver S V E) (s : Frame S V E) (n : ℕ) : Frame S V E :=
  let started := s.started.map (Node.resolve n)
  (Node.newUses s.started started).flatten.foldl (resume d (advance d s.fuel))
    { s with started := started }

end Frame

namespace Driver

variable (d : Driver S V E)

/-- A frame is made, and sees events. -/
def run (fuel : ℕ) (state : S) (events : List ℕ) : Frame S V E :=
  Schedule.run (Frame.event d) (Frame.advance d fuel ⟨fuel, state, [], []⟩) events

/-- What comes of one continuable. -/
def body (state : S) : Wait ℕ (S ⊕ Use V E) :=
  match d.advance state with
  | .stop u => now (.inr u)
  | .leak => never
  | .start state c => c.meaning.bind fun u => now (d.resume state u)

/-- What a frame does behind a continuable. -/
def goOn (fuel : ℕ) (state : S) (u : Use V E) : Meaning V E :=
  Sum.elim (Wait.iterate d.body fuel) now (d.resume state u)

/-- What comes of a move. -/
def moved (fuel : ℕ) : Move S V E → Meaning V E
  | .stop u => now u
  | .leak => never
  | .start state c => c.meaning.bind (d.goOn fuel state)

noncomputable def meaning (state : S) : Meaning V E := Wait.loop d.body state

lemma body_bind (state : S) (k : S ⊕ Use V E → Meaning V E) :
    (d.body state).bind k =
      match d.advance state with
      | .stop u => k (.inr u)
      | .leak => never
      | .start state c => c.meaning.bind fun u => k (d.resume state u) := by
  rw [body]
  cases d.advance state with
  | stop u => exact Wait.now_bind _ _
  | leak => exact Wait.never_bind k
  | start state c => simp only [Wait.bind_assoc, Wait.now_bind]

lemma iterate_succ (fuel : ℕ) (state : S) :
    Wait.iterate d.body (fuel + 1) state = d.moved fuel (d.advance state) := by
  rw [Wait.iterate, body_bind]
  cases d.advance state with
  | stop u => rfl
  | leak => rfl
  | start state c => rfl

end Driver

/-! ### What is left of a frame -/

section frames

variable {d : Driver S V E} {s : Frame S V E}

/-- Continuables that have used the handler. -/
def Through (nodes : List (Node V E)) : Prop := ∀ m ∈ nodes, m.Valid ∧ m.uses ≠ []

/-- A frame does what a meaning says: it waits for a continuable, or does not go on, or its callback
was used. -/
inductive Frame.Means (d : Driver S V E) (s : Frame S V E) : Meaning V E → Prop
  | waiting {node : Node V E} {rest : List (Node V E)} (started : s.started = node :: rest)
      (valid : node.Valid) (unused : node.uses = []) (through : Through rest)
      (callback : s.callback = []) : Means d s (node.meaning.bind (d.goOn s.fuel s.state))
  | exhausted (through : Through s.started) (callback : s.callback = []) : Means d s never
  | used (u : Use V E) (through : Through s.started) (callback : s.callback = [u]) :
      Means d s (now u)

namespace Frame

lemma Means.callback_eq {w : Meaning V E} (h : Means d s w) :
    s.callback = (w.known []).toList := by
  cases h with
  | waiting _ valid unused _ callback =>
    have hnone := Node.known_nil valid
    rw [unused] at hnone
    rw [callback, Wait.bind_known_nil hnone]
    rfl
  | exhausted _ callback => exact callback
  | used u _ callback => exact callback

lemma stop_means (hcallback : s.callback = []) (hthrough : Through s.started) (u : Use V E) :
    Means d (s.stop u) (now u) :=
  .used u hthrough (by rw [stop, hcallback, List.nil_append])

section resume

variable {fuel : ℕ} (hgo : ∀ s : Frame S V E, s.callback = [] → Through s.started →
  Means d (advance d fuel s) (Wait.iterate d.body fuel s.state))

include hgo

lemma resume_means (hcallback : s.callback = []) (hthrough : Through s.started) (u : Use V E) :
    Means d (resume d (advance d fuel) s u) (d.goOn fuel s.state u) := by
  rw [resume, Driver.goOn]
  cases d.resume s.state u with
  | inl state => exact hgo { s with state := state } hcallback hthrough
  | inr u => exact stop_means hcallback hthrough u

/-- The continuable that was started may have used the handler. -/
lemma node_means {node : Node V E} {rest : List (Node V E)} {w : Meaning V E}
    (hnode : Represents node w) (hstarted : s.started = node :: rest) (hthrough : Through rest)
    (hfuel : s.fuel = fuel) (hcallback : s.callback = []) :
    Means d (node.uses.foldl (resume d (advance d fuel)) s) (w.bind (d.goOn fuel s.state)) := by
  have hknown := hnode.known_nil
  have huses := node.uses_eq hnode.valid
  cases hu : node.uses.head? with
  | none =>
    have hunused : node.uses = [] := by rw [huses, hu]; rfl
    rw [hunused, ← hnode.meaning, ← hfuel]
    exact .waiting hstarted hnode.valid hunused hthrough hcallback
  | some u =>
    have hused : node.uses = [u] := by rw [huses, hu]; rfl
    have hall : Through s.started := by
      rw [hstarted]
      exact List.forall_mem_cons.2 ⟨⟨hnode.valid, by rw [hused]; exact List.cons_ne_nil u []⟩,
        hthrough⟩
    rw [hu] at hknown
    rw [hused, Wait.bind_of_some hknown]
    exact resume_means hgo hcallback hall u

end resume

/-- **The frame goes on.** -/
lemma advance_means (fuel : ℕ) (hcallback : s.callback = []) (hthrough : Through s.started) :
    Means d (advance d fuel s) (Wait.iterate d.body fuel s.state) := by
  induction fuel generalizing s with
  | zero => exact .exhausted hthrough hcallback
  | succ fuel ih =>
    rw [advance, Driver.iterate_succ]
    cases d.advance s.state with
    | stop u => exact stop_means hcallback hthrough u
    | leak => exact .exhausted hthrough hcallback
    | start state c =>
      exact node_means (s := { s with
        fuel := fuel
        state := state
        started := source c c.start :: s.started }) (fun s => ih)
        (source_represents c.start_represents) rfl hthrough rfl hcallback

lemma newUses_of_through (n : ℕ) {nodes : List (Node V E)} (h : Through nodes) :
    (Node.newUses nodes (nodes.map (Node.resolve n))).flatten = [] ∧
      Through (nodes.map (Node.resolve n)) := by
  induction nodes with
  | nil => exact ⟨rfl, h⟩
  | cons m rest ih =>
    obtain ⟨⟨hvalid, hused⟩, hrest⟩ := List.forall_mem_cons.1 h
    obtain ⟨hnew, hthrough⟩ := ih hrest
    have hresolve := m.resolve_represents n hvalid
    have hstays := hresolve.known_nil
    have hknown := m.known_nil hvalid
    obtain ⟨u, hu⟩ : ∃ u, m.uses.head? = some u :=
      Option.isSome_iff_exists.1 (by simpa [List.isSome_head?] using hused)
    rw [hu] at hknown
    rw [Wait.eq_now hknown] at hstays
    have huses : (m.resolve n).uses = [u] := by
      rw [(m.resolve n).uses_eq hresolve.valid, ← hstays]
      rfl
    have hone : m.uses = [u] := by rw [m.uses_eq hvalid, hu]; rfl
    have hhead : (m.resolve n).uses ≠ [] := by rw [huses]; exact List.cons_ne_nil u []
    refine ⟨?_, List.forall_mem_cons.2 ⟨⟨hresolve.valid, hhead⟩, hthrough⟩⟩
    change ((m.resolve n).uses.drop m.uses.length ++ _ : List (Use V E)) = []
    rw [huses, hone]
    exact hnew

/-- **An event leaves of a frame what is left of its meaning.** -/
lemma event_means (n : ℕ) {w : Meaning V E} (h : Means d s w) :
    Means d (s.event d n) (w.after n) := by
  have hgo : ∀ s' : Frame S V E, s'.callback = [] → Through s'.started →
      Means d (advance d s.fuel s') (Wait.iterate d.body s.fuel s'.state) :=
    fun s' => advance_means s.fuel
  unfold event
  simp only
  cases h with
  | @waiting node rest started valid unused through callback =>
    have hnone := node.known_nil valid
    rw [unused] at hnone
    obtain ⟨hnew, hthrough⟩ := newUses_of_through n through
    have hfed : (Node.newUses (node :: rest) ((node :: rest).map (Node.resolve n))).flatten =
        (node.resolve n).uses := by
      change ((node.resolve n).uses.drop node.uses.length ++ _ : List (Use V E)) = _
      rw [unused]
      exact (congrArg _ hnew).trans (List.append_nil _)
    rw [Wait.bind_after hnone, started, hfed]
    exact node_means (s := { s with started := (node :: rest).map (Node.resolve n) }) hgo
      (node.resolve_represents n valid) rfl hthrough rfl callback
  | exhausted through callback =>
    obtain ⟨hnew, hthrough⟩ := newUses_of_through n through
    rw [hnew]
    exact .exhausted hthrough callback
  | used u through callback =>
    obtain ⟨hnew, hthrough⟩ := newUses_of_through n through
    rw [hnew]
    exact .used u hthrough callback

end Frame

/-- **The callback of a frame** is used for what the continuables come to, up to as many as may be
started. -/
theorem callback_eq (d : Driver S V E) (fuel : ℕ) (state : S) (events : List ℕ) :
    (d.run fuel state events).callback =
      ((Wait.iterate d.body fuel state).known events).toList := by
  have hrun : ∀ (s : Frame S V E) (w : Meaning V E), Frame.Means d s w →
      (Schedule.run (Frame.event d) s events).callback = (w.known events).toList := by
    intro s w h
    induction events generalizing s w with
    | nil => exact h.callback_eq
    | cons n events ih => exact ih _ _ (Frame.event_means n h)
  exact hrun _ _ (Frame.advance_means fuel rfl fun m hm => by cases hm)

lemma exists_callback_eq (d : Driver S V E) (state : S) (events : List ℕ) :
    ∃ enough, ∀ fuel ≥ enough,
      (d.run fuel state events).callback = ((d.meaning state).known events).toList := by
  obtain ⟨enough, henough⟩ := Wait.exists_iterate d.body state events
  exact ⟨enough, fun fuel hfuel => by rw [callback_eq, henough fuel hfuel, Driver.meaning]⟩

lemma Driver.meaning_eq (d : Driver S V E) (state : S) :
    d.meaning state =
      match d.advance state with
      | .stop u => now u
      | .leak => never
      | .start state c => c.meaning.bind fun u =>
        match d.resume state u with
        | .inl state => d.meaning state
        | .inr u => now u := by
  rw [meaning, Wait.loop_eq, body_bind]
  cases d.advance state with
  | stop u => rfl
  | leak => rfl
  | start state c =>
    refine congrArg c.meaning.bind (funext fun u => ?_)
    cases d.resume state u with
    | inl state => rfl
    | inr u => rfl

end frames

end Continuable.Runtime
