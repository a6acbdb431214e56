import Continuable.ResumableLoop

/-!
A loop whose body writes its answers down.

Writing them down changes nothing, and the log of the loop says what the answers say. So what a
loop does can be stated by the answers of its body.
-/

namespace Continuable.ResumableLoop

variable {σ α : Type} (body : Body σ α)

/-- What a body answers. -/
inductive Answer (α : Type)
  | visit (a : α) (continues : Bool)
  | detach (a : α) (resumption : Resumption)
  | wake (a : α) (resumes : Bool)
  deriving DecidableEq

/-- The items that the body was asked to visit. -/
def asked (l : List (Answer α)) : List α :=
  l.filterMap fun | .visit a _ => some a | _ => none

/-- The items at which the body did not continue. -/
def declined (l : List (Answer α)) : List α :=
  l.filterMap fun | .visit a false => some a | _ => none

/-- The items whose callable the body called, within the call that handed it over or later. -/
def called (l : List (Answer α)) : List α :=
  l.filterMap fun | .detach a .immediately => some a | .wake a true => some a | _ => none

/-- The body, with its answers written down. -/
def Body.recorded : Body (σ × List (Answer α)) α where
  visit a u := ((body.visit a u.1).1, (body.visit a u.1).2, u.2 ++ [.visit a (body.visit a u.1).1])
  detach a u :=
    ((body.detach a u.1).1, (body.detach a u.1).2, u.2 ++ [.detach a (body.detach a u.1).1])
  wake a u := ((body.wake a u.1).1, (body.wake a u.1).2, u.2 ++ [.wake a (body.wake a u.1).1])
  resumed a u := (body.resumed a u.1, u.2)
  complete u := (body.complete u.1, u.2)

namespace Loop

/-- The loop without the answers. -/
def forget (s : Loop (σ × List (Answer α)) α) : Loop σ α := ⟨s.user.1, s.log, s.pending⟩

/-- The log says what the answers say. -/
structure Told (s : Loop (σ × List (Answer α)) α) : Prop where
  asked : visited s.log = asked s.user.2
  declined : detached s.log = declined s.user.2
  called : resumed s.log = called s.user.2

section turns

variable {a : α} (rest : List α) {t : Loop σ α}

/-- The item was handed out. -/
def handed (a : α) (t : Loop σ α) : Loop σ α :=
  (((t.emit (.visit a)).withUser (body.visit a t.user).2).emit (.detach a)).withUser
    (body.detach a (body.visit a t.user).2).2

/-- The callable of the item is called. -/
def resumeWith (a : α) (t : Loop σ α) : Loop σ α :=
  (run body rest (t.emit (.resume a))).withUser
    (body.resumed a (run body rest (t.emit (.resume a))).user)

lemma run_of_continues (hv : (body.visit a t.user).1 = true) :
    run body (a :: rest) t =
      run body rest ((t.emit (.visit a)).withUser (body.visit a t.user).2) := by
  rw [run]
  exact if_pos hv

/-- The body makes something of the callable of the item. -/
def answered (r : Resumption) (a : α) (t : Loop σ α) : Loop σ α :=
  match r with
  | .immediately => resumeWith body rest a t
  | .kept => { t with pending := some (a, rest) }
  | .dropped => t

lemma run_of_declines (hv : (body.visit a t.user).1 = false) :
    run body (a :: rest) t =
      answered body rest (body.detach a (body.visit a t.user).2).1 a (handed body a t) := by
  rw [run]
  exact if_neg (Bool.eq_false_iff.1 hv)

/-- The body decided on the callable that it kept. -/
def decided (a : α) (t : Loop σ α) : Loop σ α :=
  { t.withUser (body.wake a t.user).2 with pending := none }

lemma wake_of_pending (hp : t.pending = some (a, rest)) :
    wake body t = if (body.wake a t.user).1 then resumeWith body rest a (decided body a t)
      else decided body a t := by
  rw [wake, hp]
  rfl

end turns

/-- Writing the answers down changes nothing. -/
lemma run_forget (items : List α) (s : Loop (σ × List (Answer α)) α) :
    (run body.recorded items s).forget = run body items s.forget := by
  induction items generalizing s with
  | nil => rfl
  | cons a rest ih =>
    cases hv : (body.visit a s.user.1).1 with
    | true =>
      rw [run_of_continues body.recorded rest hv, run_of_continues body rest hv, ih]
      rfl
    | false =>
      rw [run_of_declines body.recorded rest hv, run_of_declines body rest hv]
      change (answered body.recorded rest (body.detach a (body.visit a s.user.1).2).1 a _).forget =
        answered body rest (body.detach a (body.visit a s.user.1).2).1 a _
      cases (body.detach a (body.visit a s.user.1).2).1 with
      | immediately =>
        have hgo := ih ((handed body.recorded a s).emit (.resume a))
        rw [answered, answered, resumeWith, resumeWith,
          show (handed body a s.forget).emit (.resume a) =
            ((handed body.recorded a s).emit (.resume a)).forget from rfl, ← hgo]
        rfl
      | kept => rfl
      | dropped => rfl

lemma resumeWith_forget (rest : List α) (a : α) (s : Loop (σ × List (Answer α)) α) :
    (resumeWith body.recorded rest a s).forget = resumeWith body rest a s.forget := by
  rw [resumeWith, resumeWith, show s.forget.emit (.resume a) = (s.emit (.resume a)).forget from rfl,
    ← run_forget]
  rfl

lemma wake_forget (s : Loop (σ × List (Answer α)) α) :
    (wake body.recorded s).forget = wake body s.forget := by
  rcases hp : s.pending with _ | ⟨a, rest⟩
  · have hp' : s.forget.pending = none := hp
    simp only [wake, hp, hp']
  · have hp' : s.forget.pending = some (a, rest) := hp
    rw [wake_of_pending body.recorded rest hp, wake_of_pending body rest hp',
      apply_ite forget, resumeWith_forget]
    rfl

lemma after_forget (items : List α) (u : σ) (wakes : ℕ) :
    (after body.recorded items (u, []) wakes).forget = after body items u wakes := by
  unfold after
  induction wakes with
  | zero => exact run_forget body items _
  | succ n ih => rw [Function.iterate_succ_apply', Function.iterate_succ_apply', wake_forget, ih]

lemma Told.append {s s' : Loop (σ × List (Answer α)) α} (h : s.Told) {l : List (Event α)}
    {m : List (Answer α)} (hlog : s'.log = s.log ++ l) (huser : s'.user.2 = s.user.2 ++ m)
    (hasked : visited l = ResumableLoop.asked m)
    (hdeclined : detached l = ResumableLoop.declined m)
    (hcalled : resumed l = ResumableLoop.called m) : s'.Told := by
  refine ⟨?_, ?_, ?_⟩
  · rw [hlog, huser, visited_append, ResumableLoop.asked, List.filterMap_append, h.asked, hasked]
    rfl
  · rw [hlog, huser, detached_append, ResumableLoop.declined, List.filterMap_append, h.declined,
      hdeclined]
    rfl
  · rw [hlog, huser, resumed_append, ResumableLoop.called, List.filterMap_append, h.called, hcalled]
    rfl

lemma run_told (items : List α) (s : Loop (σ × List (Answer α)) α) (h : s.Told) :
    (run body.recorded items s).Told := by
  induction items generalizing s with
  | nil => exact h.append (l := [.complete]) (m := []) rfl (List.append_nil _).symm rfl rfl rfl
  | cons a rest ih =>
    cases hv : (body.visit a s.user.1).1 with
    | true =>
      rw [run_of_continues body.recorded rest hv]
      refine ih _ (h.append (l := [.visit a]) (m := [.visit a true]) rfl ?_ rfl rfl rfl)
      rw [← hv]
      rfl
    | false =>
      rw [run_of_declines body.recorded rest hv]
      change (answered body.recorded rest (body.detach a (body.visit a s.user.1).2).1 a _).Told
      have huser : (handed body.recorded a s).user.2 = s.user.2 ++
          [.visit a false, .detach a (body.detach a (body.visit a s.user.1).2).1] := by
        rw [← hv]
        exact List.append_assoc ..
      have hlog : (handed body.recorded a s).log = s.log ++ [.visit a, .detach a] :=
        List.append_assoc ..
      generalize (body.detach a (body.visit a s.user.1).2).1 = r at huser ⊢
      cases r with
      | immediately =>
        have hgo := ih ((handed body.recorded a s).emit (.resume a))
          (h.append (l := [.visit a, .detach a, .resume a]) (by simp [emit, hlog])
            huser rfl rfl rfl)
        exact ⟨hgo.asked, hgo.declined, hgo.called⟩
      | kept => exact h.append hlog huser rfl rfl rfl
      | dropped => exact h.append hlog huser rfl rfl rfl

lemma wake_told {s : Loop (σ × List (Answer α)) α} (h : s.Told) :
    (wake body.recorded s).Told := by
  rcases hp : s.pending with _ | ⟨a, rest⟩
  · simp only [wake, hp]
    exact h
  · rw [wake_of_pending body.recorded rest hp]
    have huser : (decided body.recorded a s).user.2 =
      s.user.2 ++ [.wake a (body.recorded.wake a s.user).1] := rfl
    cases hw : (body.recorded.wake a s.user).1 with
    | true =>
      rw [hw] at huser
      have hgo := run_told body rest ((decided body.recorded a s).emit (.resume a))
        (h.append (l := [.resume a]) rfl huser rfl rfl rfl)
      exact ⟨hgo.asked, hgo.declined, hgo.called⟩
    | false =>
      rw [hw] at huser
      exact h.append (l := []) (List.append_nil _).symm huser rfl rfl rfl

/-- **The log says what the answers say**, in every run. -/
theorem after_told (items : List α) (u : σ) (wakes : ℕ) :
    (after body.recorded items (u, []) wakes).Told := by
  unfold after
  induction wakes with
  | zero => exact run_told body items _ ⟨rfl, rfl, rfl⟩
  | succ n ih =>
    rw [Function.iterate_succ_apply']
    exact wake_told body ih

end Loop

end Continuable.ResumableLoop
