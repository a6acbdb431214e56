import Continuable.SeqSettling

/-!
The calls of the callback of a sequential connection.

Whatever the continuables of a sequence are, its callback is called at most once: the handlers of a
lazy one either resume the traversal or call the callback, and the traversal completes once.
-/

namespace Continuable.Seq

open ResumableLoop

def Event.called? : Event V E → Option (Signal V E)
  | .called signal => some signal
  | _ => none

def called (log : List (Event V E)) : List (Signal V E) := log.filterMap Event.called?

lemma called_append (l m : List (Event V E)) : called (l ++ m) = called l ++ called m :=
  List.filterMap_append

section settled

variable {garbage : ℕ → List V} {head : List (Slot V E)}

lemma called_emit (d : Data V E) (e : Event V E) :
    called (d.emit e).log = called d.log ++ (e.called?).toList := by
  rw [Data.emit, called_append]
  cases e <;> rfl

@[simp] lemma called_assign (d : Data V E) (i : ℕ) (vs : List V) :
    called (d.assign i vs).log = called d.log :=
  (called_emit d (.assigned i vs)).trans (List.append_nil _)

lemma called_visitBox (s : Slot V E) (d : Data V E) :
    called (visitBox garbage s d).2.log = called d.log := by
  obtain ⟨i, v | ⟨n, r | ⟨t, o⟩, hfits⟩⟩ := s
  · rfl
  · cases r with
    | value vs => simp [visitBox, unpackInto, called_emit, Event.called?]
    | exception e =>
      simp only [visitBox, unpackInto]
      split_ifs <;> simp [called_emit, Event.called?]
  · rfl

lemma called_resolveBox (s : Slot V E) (d : Data V E) (o : Outcome V E) :
    ∃ signal : Option (Signal V E),
      called (resolveBox s d o).2.log = called d.log ++ signal.toList ∧
        ((resolveBox s d o).1 = true → signal = none) := by
  rcases o with _ | ⟨vs | e⟩
  · exact ⟨none, (List.append_nil _).symm, fun _ => rfl⟩
  · exact ⟨none, by simp [resolveBox], fun _ => rfl⟩
  · exact ⟨some (.exception e), called_emit d _, fun h => by cases h⟩

lemma called_settled (slots : List (Slot V E)) (d : Data V E) :
    ∃ signal : Option (Signal V E),
      called ((sequentialDispatchVisitor garbage head).settled slots d).log =
        called d.log ++ signal.toList := by
  induction slots generalizing d with
  | nil => exact ⟨some _, called_emit d _⟩
  | cons s rest ih =>
    obtain ⟨i, v | ⟨n, r | ⟨t, o⟩, hfits⟩⟩ := s
    · exact ih d
    · obtain ⟨signal, hsignal⟩ := ih (visitBox garbage ⟨i, .continuable ⟨n, .ready r, hfits⟩⟩ d).2
      rw [called_visitBox] at hsignal
      exact ⟨signal, hsignal⟩
    · set slot : Slot V E := ⟨i, .continuable ⟨n, .lazy t o, hfits⟩⟩ with hslot
      have hstarted : called (d.emit (.started i)).log = called d.log :=
        (called_emit d _).trans (List.append_nil _)
      obtain ⟨signal, hsignal, hnone⟩ := called_resolveBox slot (d.emit (.started i)) o
      have hsettled : (sequentialDispatchVisitor garbage head).settled (slot :: rest) d =
          if (resolveBox slot (d.emit (.started i)) o).1 = true then
            (sequentialDispatchVisitor garbage head).settled rest
              (resolveBox slot (d.emit (.started i)) o).2
          else (resolveBox slot (d.emit (.started i)) o).2 := by
        rcases o with _ | ⟨vs | e⟩ <;> cases t <;> rfl
      rw [hsettled]
      split_ifs with hresumed
      · obtain ⟨last, hlast⟩ := ih (resolveBox slot (d.emit (.started i)) o).2
        rw [hsignal, hnone hresumed, hstarted] at hlast
        exact ⟨last, by simpa using hlast⟩
      · rw [hstarted] at hsignal
        exact ⟨signal, hsignal⟩

end settled

lemma called_whenSeq (garbage : ℕ → List V) (args : List (Arg V E)) (wakes : ℕ)
    (h : (whenSeq garbage args wakes).pending = none) :
    ∃ signal : Option (Signal V E),
      called (whenSeq garbage args wakes).user.log = signal.toList := by
  obtain ⟨-, hfinal, -⟩ := whenSeq_settlesTo garbage args wakes
  rw [hfinal h]
  exact called_settled _ _

end Continuable.Seq
