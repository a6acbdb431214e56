import Continuable.Awaitable

/-!
The exchange of the two sides of an awaitable.

Whatever order the steps of the sides come in, an awaitable is in one of five stages: it is
created, the coroutine is about to suspend, the sides race, it is decided who continues the
coroutine, or the coroutine went on.
-/

namespace Continuable.Await

variable {V E : Type}

/-- What `await_resume` makes of the arguments of the callback. -/
def resumedWith : Signal V (Thrown E) → Resumed V E
  | .value vs => .values vs
  | .exception (some x) => .throws x
  | .exception none => .throws .awaitCanceled

lemma awaitResume_makeResult (signal : Signal V (Thrown E)) :
    awaitResume (makeResult signal) = some (resumedWith signal) := by
  rcases signal with vs | _ | x <;> rfl

namespace Awaitable

/-- The callback is on its way to the exchange. -/
inductive Working (a : Awaitable V E) : Prop
  | waiting (hresolver : a.resolver = .waiting) (hresult : a.result = .empty)
      (hcalls : calls a.log = []) (hstored : storedSignals a.log = [])
  | called (signal : Signal V (Thrown E))
      (hresolver : a.resolver = .check signal ∨ a.resolver = .store signal)
      (hresult : a.result = .empty) (hcalls : calls a.log = [signal])
      (hstored : storedSignals a.log = [])
  | stored (signal : Signal V (Thrown E)) (hresolver : a.resolver = .exchange)
      (hresult : a.result = makeResult signal) (hcalls : calls a.log = [signal])
      (hstored : storedSignals a.log = [signal])

/-- The coroutine has left `await_suspend`, or only returns from it. -/
def Left (a : Awaitable V E) : Prop := a.awaiter = .returning true ∨ a.awaiter = .done

inductive Stage (source : Option (Signal V (Thrown E))) (a : Awaitable V E) : Prop
  | created (ha : a.awaiter = .ready) (hresolver : a.resolver = .idle) (hstate : a.state = .pending)
      (hresult : a.result = (construct source).result) (hcalls : calls a.log = [])
      (hstored : storedSignals a.log = source.toList) (hhanded : handovers a.log = [])
      (hres : resumptions a.log = [])
  | suspending (hsource : source = none) (ha : a.awaiter = .suspend)
      (hresolver : a.resolver = .idle)
      (hstate : a.state = .pending) (hresult : a.result = .empty) (hcalls : calls a.log = [])
      (hstored : storedSignals a.log = []) (hhanded : handovers a.log = [])
      (hres : resumptions a.log = [])
  | racing (hsource : source = none) (hworking : a.Working)
      (hside : (a.awaiter = .exchange ∧ a.state = .pending ∧ handovers a.log = []) ∨
        (a.Left ∧ a.state = .suspended ∧ handovers a.log = [.awaiter]))
      (hres : resumptions a.log = [])
  | decided (hsource : source = none) (signal : Signal V (Thrown E))
      (hresult : a.result = makeResult signal) (hcalls : calls a.log = [signal])
      (hstored : storedSignals a.log = [signal])
      (hside : (a.resolver = .done ∧ handovers a.log = [.resolver] ∧
          (a.awaiter = .exchange ∧ a.state = .resolved ∨ a.awaiter = .returning false)) ∨
        (a.resolver = .resume ∧ handovers a.log = [.awaiter] ∧ a.Left))
      (hres : resumptions a.log = [])
  | continued (signal : Signal V (Thrown E)) (way : Way) (ha : a.Left)
      (hresolver : a.resolver = .idle ∨ a.resolver = .done)
      (hstored : storedSignals a.log = [signal])
      (hway : Continued source signal a.log way)
      (hres : resumptions a.log = [(way, resumedWith signal)])

structure Inv (source : Option (Signal V (Thrown E))) (a : Awaitable V E) : Prop where
  stage : Stage source a
  ordered : a.log.Pairwise Ordered
  sound : .violated ∉ a.log

lemma construct_inv (source : Option (Signal V (Thrown E))) : Inv source (construct source) := by
  cases source with
  | none => exact ⟨.created rfl rfl rfl rfl rfl rfl rfl rfl, .nil, by simp [construct]⟩
  | some signal =>
    exact ⟨.created rfl rfl rfl rfl rfl rfl rfl rfl, List.pairwise_singleton _ _,
      by simp [construct]⟩

lemma Inv.length_resumptions {source : Option (Signal V (Thrown E))} {a : Awaitable V E}
    (h : Inv source a) : (resumptions a.log).length ≤ 1 := by
  cases h.stage with
  | created _ _ _ _ _ _ _ hres => simp [hres]
  | suspending _ _ _ _ _ _ _ _ hres => simp [hres]
  | racing _ _ _ hres => simp [hres]
  | decided _ _ _ _ _ _ hres => simp [hres]
  | continued _ _ _ _ _ _ hres => simp [hres]

lemma Stage.of_resumption {source : Option (Signal V (Thrown E))} {a : Awaitable V E}
    (h : Stage source a) {way : Way} {r : Resumed V E} (hmem : (way, r) ∈ resumptions a.log) :
    ∃ signal, storedSignals a.log = [signal] ∧ r = resumedWith signal ∧
      Continued source signal a.log way := by
  cases h with
  | created _ _ _ _ _ _ _ hres => simp [hres] at hmem
  | suspending _ _ _ _ _ _ _ _ hres => simp [hres] at hmem
  | racing _ _ _ hres => simp [hres] at hmem
  | decided _ _ _ _ _ _ hres => simp [hres] at hmem
  | continued signal way' _ _ hstored hway hres =>
    rw [hres, List.mem_singleton] at hmem
    cases hmem
    exact ⟨signal, hstored, rfl, hway⟩

lemma ordered_append {a : Awaitable V E} (h : a.log.Pairwise Ordered)
    (hres : resumptions a.log = [])
    {l : List (Event V E)} (hl : l.Pairwise Ordered)
    (htouched : ∀ side, .touched side ∈ l → side ∉ handovers a.log) :
    (a.log ++ l).Pairwise Ordered := by
  refine List.pairwise_append.2 ⟨h, hl, fun x hx y hy => ?_⟩
  cases x with
  | touched side => cases y <;> trivial
  | called signal => cases y <;> trivial
  | stored signal => cases y <;> trivial
  | violated => cases y <;> trivial
  | handed side =>
    have hmem : side ∈ handovers a.log := List.mem_filterMap.2 ⟨_, hx, rfl⟩
    cases y with
    | touched side' =>
      rintro rfl
      exact htouched side hy hmem
    | handed side' => trivial
    | called signal => trivial
    | stored signal => trivial
    | resumed way r => trivial
    | violated => trivial
  | resumed way r =>
    have hmem : (way, r) ∈ resumptions a.log := List.mem_filterMap.2 ⟨_, hx, rfl⟩
    rw [hres] at hmem
    cases hmem

/-- What a step does: it keeps the invariant, and when the coroutine goes on this is noted. -/
structure Steps (source : Option (Signal V (Thrown E))) (a : Awaitable V E)
    (x : Awaitable V E × Option (Resumed V E)) : Prop where
  inv : Inv source x.1
  resumed : (resumptions x.1.log).map Prod.snd = (resumptions a.log).map Prod.snd ++ x.2.toList

lemma steps_self {source : Option (Signal V (Thrown E))} {a : Awaitable V E} (h : Inv source a) :
    Steps source a (a, none) :=
  ⟨h, by simp⟩

lemma record_steps {source : Option (Signal V (Thrown E))} {a b : Awaitable V E}
    {l : List (Event V E)} (h : Inv source a) (hlog : b.log = a.log)
    (hres : resumptions a.log = []) (hl : l.Pairwise Ordered)
    (htouched : ∀ side, .touched side ∈ l → side ∉ handovers a.log) (hsound : .violated ∉ l)
    (hnew : resumptions l = []) (hstage : Stage source (b.record l)) :
    Steps source a (b.record l, none) := by
  have hrecord : (b.record l).log = a.log ++ l := by rw [record, hlog]
  refine ⟨⟨hstage, ?_, ?_⟩, ?_⟩
  · rw [hrecord]
    exact ordered_append h.ordered hres hl htouched
  · rw [hrecord, List.mem_append, not_or]
    exact ⟨h.sound, hsound⟩
  · rw [hrecord, resumptions_append, hres, hnew]
    rfl

lemma side_of_continued {source : Option (Signal V (Thrown E))} {signal : Signal V (Thrown E)}
    {log : List (Event V E)} {way : Way} (h : Continued source signal log way) :
    way.side ∉ handovers log := by
  cases way with
  | ready => rw [h.2]; simp
  | returned => rw [h.2.2]; simp [Way.side]
  | handle => rw [h.2.2]; simp [Way.side]

lemma continued_append {source : Option (Signal V (Thrown E))} {signal : Signal V (Thrown E)}
    {log l : List (Event V E)} {way : Way} (h : Continued source signal log way)
    (hcalls : calls l = []) (hhanded : handovers l = []) :
    Continued source signal (log ++ l) way := by
  cases way <;> simpa only [Continued, calls_append, handovers_append, hcalls, hhanded,
    List.append_nil] using h

lemma resume_steps {source : Option (Signal V (Thrown E))} {signal : Signal V (Thrown E)}
    {a b : Awaitable V E} {l : List (Event V E)} {way : Way} (h : Inv source a)
    (hlog : b.log = a.log ++ l) (hl : l = [] ∨ l = [.touched way.side])
    (hresult : b.result = makeResult signal) (hstored : storedSignals a.log = [signal])
    (hres : resumptions a.log = []) (hway : Continued source signal a.log way) (hleft : b.Left)
    (hresolver : b.resolver = .idle ∨ b.resolver = .done) : Steps source a (b.resume way) := by
  have hresume : b.resume way =
      (b.record [.touched way.side, .resumed way (resumedWith signal)],
        some (resumedWith signal)) := by
    rw [resume, hresult, awaitResume_makeResult]
  have hrecord : (b.record [.touched way.side, .resumed way (resumedWith signal)]).log =
      a.log ++ (l ++ [.touched way.side, .resumed way (resumedWith signal)]) := by
    rw [record, hlog, List.append_assoc]
  have hstay : Continued source signal
      (a.log ++ (l ++ [.touched way.side, .resumed way (resumedWith signal)])) way :=
    continued_append hway (by rcases hl with rfl | rfl <;> rfl)
      (by rcases hl with rfl | rfl <;> rfl)
  have htouched : ∀ side, .touched side ∈
      l ++ [.touched way.side, .resumed way (resumedWith signal)] → side ∉ handovers a.log := by
    intro side hside
    have hsame : side = way.side := by
      rcases hl with rfl | rfl <;> simpa using hside
    rw [hsame]
    exact side_of_continued hway
  rw [hresume]
  refine ⟨⟨.continued signal way hleft hresolver ?_ ?_ ?_, ?_, ?_⟩, ?_⟩
  · rw [hrecord, storedSignals_append, hstored]
    rcases hl with rfl | rfl <;> rfl
  · rw [hrecord]
    exact hstay
  · rw [hrecord, resumptions_append, hres]
    rcases hl with rfl | rfl <;> rfl
  · rw [hrecord]
    refine ordered_append h.ordered hres ?_ htouched
    rcases hl with rfl | rfl <;> simp [Ordered]
  · rw [hrecord, List.mem_append, not_or]
    refine ⟨h.sound, ?_⟩
    rcases hl with rfl | rfl <;> simp
  · rw [hrecord, resumptions_append, hres]
    rcases hl with rfl | rfl <;> rfl

section steps

variable {source : Option (Signal V (Thrown E))} {a : Awaitable V E}

variable {l m : List (Event V E)}

lemma calls_of {c : List (Signal V (Thrown E))} (h : calls l = c) : calls (l ++ m) = c ++ calls m :=
  by rw [calls_append, h]

lemma storedSignals_of {c : List (Signal V (Thrown E))} (h : storedSignals l = c) :
    storedSignals (l ++ m) = c ++ storedSignals m := by
  rw [storedSignals_append, h]

lemma handovers_of {c : List Side} (h : handovers l = c) :
    handovers (l ++ m) = c ++ handovers m := by
  rw [handovers_append, h]

lemma resumptions_of {c : List (Way × Resumed V E)} (h : resumptions l = c) :
    resumptions (l ++ m) = c ++ resumptions m := by
  rw [resumptions_append, h]

theorem call_steps (h : Inv source a) (signal : Signal V (Thrown E)) :
    Steps source a (a.call signal) := by
  unfold call
  cases hresolver : a.resolver with
  | waiting =>
    cases h.stage with
    | created _ hr => simp [hresolver] at hr
    | suspending _ _ hr => simp [hresolver] at hr
    | decided _ _ _ _ _ hside => simp [hresolver] at hside
    | continued _ _ _ hr => simp [hresolver] at hr
    | racing hsource hworking hside hres =>
      cases hworking with
      | called _ hr => simp [hresolver] at hr
      | stored _ hr => simp [hresolver] at hr
      | waiting _ hresult hcalls hstored =>
        refine record_steps h rfl hres (List.pairwise_singleton _ _) (by simp) (by simp) rfl ?_
        refine .racing hsource (.called signal (.inl rfl) hresult (calls_of hcalls)
          (storedSignals_of hstored)) ?_ (resumptions_of hres)
        exact hside.imp (fun ⟨ha, hstate, hh⟩ => ⟨ha, hstate, handovers_of hh⟩)
          fun ⟨ha, hstate, hh⟩ => ⟨ha, hstate, handovers_of hh⟩
  | idle => exact steps_self h
  | check signal => exact steps_self h
  | store signal => exact steps_self h
  | exchange => exact steps_self h
  | resume => exact steps_self h
  | done => exact steps_self h

theorem resolverStep_steps (h : Inv source a) : Steps source a a.resolverStep := by
  unfold resolverStep
  cases hresolver : a.resolver with
  | idle => exact steps_self h
  | waiting => exact steps_self h
  | done => exact steps_self h
  | check signal =>
    cases h.stage with
    | created _ hr => simp [hresolver] at hr
    | suspending _ _ hr => simp [hresolver] at hr
    | decided _ _ _ _ _ hside => simp [hresolver] at hside
    | continued _ _ _ hr => simp [hresolver] at hr
    | racing hsource hworking hside hres =>
      have hnot : .resolver ∉ handovers a.log := by
        rcases hside with ⟨-, -, hh⟩ | ⟨-, -, hh⟩ <;> simp [hh]
      cases hworking with
      | waiting hr => simp [hresolver] at hr
      | stored _ hr => simp [hresolver] at hr
      | called s hr hresult hcalls hstored =>
        obtain rfl : signal = s := by simpa [hresolver] using hr
        have hassert : assertEmpty a.result = [] := by rw [hresult]; rfl
        rw [hassert]
        refine record_steps h rfl hres (List.pairwise_singleton _ _) (by simpa using hnot)
          (by simp) rfl ?_
        refine .racing hsource (.called signal (.inr rfl) hresult (calls_of hcalls)
          (storedSignals_of hstored)) ?_ (resumptions_of hres)
        exact hside.imp (fun ⟨ha, hstate, hh⟩ => ⟨ha, hstate, handovers_of hh⟩)
          fun ⟨ha, hstate, hh⟩ => ⟨ha, hstate, handovers_of hh⟩
  | store signal =>
    cases h.stage with
    | created _ hr => simp [hresolver] at hr
    | suspending _ _ hr => simp [hresolver] at hr
    | decided _ _ _ _ _ hside => simp [hresolver] at hside
    | continued _ _ _ hr => simp [hresolver] at hr
    | racing hsource hworking hside hres =>
      have hnot : .resolver ∉ handovers a.log := by
        rcases hside with ⟨-, -, hh⟩ | ⟨-, -, hh⟩ <;> simp [hh]
      cases hworking with
      | waiting hr => simp [hresolver] at hr
      | stored _ hr => simp [hresolver] at hr
      | called s hr hresult hcalls hstored =>
        obtain rfl : signal = s := by simpa [hresolver] using hr
        refine record_steps h rfl hres (by simp [Ordered]) (by simpa using hnot) (by simp) rfl ?_
        refine .racing hsource (.stored signal rfl rfl (calls_of hcalls)
          (storedSignals_of hstored)) ?_ (resumptions_of hres)
        exact hside.imp (fun ⟨ha, hstate, hh⟩ => ⟨ha, hstate, handovers_of hh⟩)
          fun ⟨ha, hstate, hh⟩ => ⟨ha, hstate, handovers_of hh⟩
  | exchange =>
    cases h.stage with
    | created _ hr => simp [hresolver] at hr
    | suspending _ _ hr => simp [hresolver] at hr
    | decided _ _ _ _ _ hside => simp [hresolver] at hside
    | continued _ _ _ hr => simp [hresolver] at hr
    | racing hsource hworking hside hres =>
      have hnot : .resolver ∉ handovers a.log := by
        rcases hside with ⟨-, -, hh⟩ | ⟨-, -, hh⟩ <;> simp [hh]
      cases hworking with
      | waiting hr => simp [hresolver] at hr
      | called _ hr => simp [hresolver] at hr
      | stored signal _ hresult hcalls hstored =>
        rcases hside with ⟨ha, hstate, hh⟩ | ⟨ha, hstate, hh⟩
        · -- the coroutine has not suspended yet
          rw [if_neg (by simp [hstate])]
          refine record_steps h rfl hres (by simp [Ordered]) (by simpa using hnot) (by simp) rfl ?_
          exact .decided hsource signal hresult (calls_of hcalls) (storedSignals_of hstored)
            (.inl ⟨rfl, handovers_of hh, .inl ⟨ha, rfl⟩⟩) (resumptions_of hres)
        · rw [if_pos hstate]
          refine record_steps h rfl hres (List.pairwise_singleton _ _) (by simpa using hnot)
            (by simp) rfl ?_
          exact .decided hsource signal hresult (calls_of hcalls) (storedSignals_of hstored)
            (.inr ⟨rfl, handovers_of hh, ha⟩) (resumptions_of hres)
  | resume =>
    cases h.stage with
    | created _ hr => simp [hresolver] at hr
    | suspending _ _ hr => simp [hresolver] at hr
    | continued _ _ _ hr => simp [hresolver] at hr
    | racing _ hworking =>
      cases hworking with
      | waiting hr => simp [hresolver] at hr
      | called _ hr => simp [hresolver] at hr
      | stored _ hr => simp [hresolver] at hr
    | decided hsource signal hresult hcalls hstored hside hres =>
      rcases hside with ⟨hr, -⟩ | ⟨-, hh, hleft⟩
      · simp [hresolver] at hr
      · exact resume_steps h (List.append_nil _).symm (.inl rfl) hresult hstored hres
          ⟨hsource, hcalls, hh⟩ hleft (.inr rfl)

theorem awaiterStep_steps (h : Inv source a) : Steps source a a.awaiterStep := by
  unfold awaiterStep
  cases ha : a.awaiter with
  | done => exact steps_self h
  | ready =>
    cases h.stage with
    | suspending _ hr => simp [ha] at hr
    | racing _ _ hside => simp [ha, Left] at hside
    | decided _ _ _ _ _ hside => simp [ha, Left] at hside
    | continued _ _ hleft => simp [ha, Left] at hleft
    | created _ hresolver hstate hresult hcalls hstored hhanded hres =>
      have hnot : .awaiter ∉ handovers a.log := by simp [hhanded]
      cases source with
      | none =>
        have hempty : a.result = .empty := hresult
        rw [hempty]
        refine record_steps h rfl hres (List.pairwise_singleton _ _) (by simpa using hnot)
          (by simp) rfl ?_
        exact .suspending rfl rfl hresolver hstate rfl (calls_of hcalls)
          (storedSignals_of hstored) (handovers_of hhanded) (resumptions_of hres)
      | some signal =>
        have hsome : a.result = makeResult signal := hresult
        have hcontinued : Continued (some signal) signal a.log .ready := ⟨rfl, hhanded⟩
        have hresume : Steps (some signal) a
            (({ a with awaiter := .done }.record [.touched .awaiter]).resume .ready) :=
          resume_steps h rfl (.inr rfl) hsome hstored hres hcontinued (.inr rfl) (.inl hresolver)
        rw [hsome] at *
        cases signal <;> exact hresume
  | suspend =>
    cases h.stage with
    | created hr => simp [ha] at hr
    | racing _ _ hside => simp [ha, Left] at hside
    | decided _ _ _ _ _ hside => simp [ha, Left] at hside
    | continued _ _ hleft => simp [ha, Left] at hleft
    | suspending hsource _ _ hstate hresult hcalls hstored hhanded hres =>
      have hassert : assertEmpty a.result = [] := by rw [hresult]; rfl
      have hnot : .awaiter ∉ handovers a.log := by simp [hhanded]
      rw [hassert]
      refine record_steps h rfl hres (List.pairwise_singleton _ _) (by simpa using hnot)
        (by simp) rfl ?_
      exact .racing hsource (.waiting rfl hresult (calls_of hcalls) (storedSignals_of hstored))
        (.inl ⟨rfl, hstate, handovers_of hhanded⟩) (resumptions_of hres)
  | exchange =>
    cases h.stage with
    | created hr => simp [ha] at hr
    | suspending _ hr => simp [ha] at hr
    | continued _ _ hleft => simp [ha, Left] at hleft
    | racing hsource hworking hside hres =>
      rcases hside with ⟨-, hstate, hhanded⟩ | ⟨hleft, -⟩
      · have hnot : .awaiter ∉ handovers a.log := by simp [hhanded]
        rw [if_neg (by simp [hstate])]
        refine record_steps h rfl hres (by simp [Ordered]) (by simpa using hnot) (by simp) rfl ?_
        refine .racing hsource ?_ (.inr ⟨.inl rfl, rfl, handovers_of hhanded⟩) (resumptions_of hres)
        cases hworking with
        | waiting hr hresult hcalls hstored =>
          exact .waiting hr hresult (calls_of hcalls) (storedSignals_of hstored)
        | called signal hr hresult hcalls hstored =>
          exact .called signal hr hresult (calls_of hcalls) (storedSignals_of hstored)
        | stored signal hr hresult hcalls hstored =>
          exact .stored signal hr hresult (calls_of hcalls) (storedSignals_of hstored)
      · simp [ha, Left] at hleft
    | decided hsource signal hresult hcalls hstored hside hres =>
      rcases hside with ⟨hr, hhanded, ⟨-, hstate⟩ | hret⟩ | ⟨-, -, hleft⟩
      · -- the callback was called already
        rw [if_pos hstate]
        refine record_steps h rfl hres (List.pairwise_singleton _ _) (by simp [hhanded])
          (by simp) rfl ?_
        exact .decided hsource signal hresult (calls_of hcalls) (storedSignals_of hstored)
          (.inl ⟨hr, handovers_of hhanded, .inr rfl⟩) (resumptions_of hres)
      · simp [ha] at hret
      · simp [ha, Left] at hleft
  | returning suspended =>
    cases h.stage with
    | created hr => simp [ha] at hr
    | suspending _ hr => simp [ha] at hr
    | racing hsource hworking hside hres =>
      rcases hside with ⟨hr, -⟩ | ⟨hleft, hstate, hhanded⟩
      · simp [ha] at hr
      · obtain rfl : suspended = true := by simpa [ha, Left] using hleft
        refine ⟨⟨.racing hsource ?_ (.inr ⟨.inr rfl, hstate, hhanded⟩) hres, h.ordered, h.sound⟩,
          by simp⟩
        cases hworking with
        | waiting hr hresult hcalls hstored => exact .waiting hr hresult hcalls hstored
        | called signal hr hresult hcalls hstored => exact .called signal hr hresult hcalls hstored
        | stored signal hr hresult hcalls hstored => exact .stored signal hr hresult hcalls hstored
    | decided hsource signal hresult hcalls hstored hside hres =>
      rcases hside with ⟨hr, hhanded, ⟨hex, -⟩ | hret⟩ | ⟨hr, hhanded, hleft⟩
      · simp [ha] at hex
      · obtain rfl : suspended = false := by simpa [ha] using hret
        exact resume_steps h (List.append_nil _).symm (.inl rfl) hresult hstored hres
          ⟨hsource, hcalls, hhanded⟩ (.inr rfl) (.inr hr)
      · obtain rfl : suspended = true := by simpa [ha, Left] using hleft
        exact ⟨⟨.decided hsource signal hresult hcalls hstored (.inr ⟨hr, hhanded, .inr rfl⟩) hres,
          h.ordered, h.sound⟩, by simp⟩
    | continued signal way hleft hr hstored hway hres =>
      obtain rfl : suspended = true := by simpa [ha, Left] using hleft
      exact ⟨⟨.continued signal way (.inr rfl) hr hstored hway hres, h.ordered, h.sound⟩, by simp⟩

/-! ### No side is left behind -/

lemma awaiter_of_step (h : a.awaiterStep = (a, none)) : a.awaiter = .done := by
  have hawaiter : a.awaiterStep.1.awaiter = a.awaiter := by rw [h]
  have hresume : ∀ (b : Awaitable V E) way, (b.resume way).1.awaiter = b.awaiter := by
    intro b way
    unfold resume
    split <;> rfl
  cases ha : a.awaiter with
  | done => rfl
  | ready =>
    rw [ha] at hawaiter
    unfold awaiterStep at hawaiter
    simp only [ha] at hawaiter
    cases hresult : a.result with
    | empty => simp [hresult, record] at hawaiter
    | value vs => simp [hresult, hresume, record] at hawaiter
    | exception e => simp [hresult, hresume, record] at hawaiter
  | suspend => simp [awaiterStep, ha, record] at hawaiter
  | exchange =>
    unfold awaiterStep at hawaiter
    simp only [ha] at hawaiter
    split_ifs at hawaiter <;> cases hawaiter
  | returning suspended =>
    cases suspended <;> simp [awaiterStep, ha, hresume] at hawaiter

lemma resolver_of_step (h : a.resolverStep = (a, none)) :
    a.resolver = .idle ∨ a.resolver = .waiting ∨ a.resolver = .done := by
  have hresolver : a.resolverStep.1.resolver = a.resolver := by rw [h]
  cases hr : a.resolver with
  | idle => exact .inl rfl
  | waiting => exact .inr (.inl rfl)
  | done => exact .inr (.inr rfl)
  | check signal => simp [resolverStep, hr, record] at hresolver
  | store signal => simp [resolverStep, hr, record] at hresolver
  | exchange =>
    unfold resolverStep at hresolver
    simp only [hr] at hresolver
    split_ifs at hresolver <;> cases hresolver
  | resume =>
    have hresume : ({ a with resolver := .done }.resume .handle).1.resolver = .done := by
      unfold resume
      split <;> rfl
    simp [resolverStep, hr, hresume] at hresolver

/-- When nothing is left to do, the coroutine was continued. -/
theorem resumptions_of_settled (h : Inv source a) (hawaiter : a.awaiterStep = (a, none))
    (hresolver : a.resolverStep = (a, none)) (hcall : ∀ signal, a.call signal = (a, none)) :
    resumptions a.log ≠ [] := by
  have ha := awaiter_of_step hawaiter
  have hr := resolver_of_step hresolver
  cases h.stage with
  | created hready => simp [ha] at hready
  | suspending _ hsuspend => simp [ha] at hsuspend
  | racing _ hworking =>
    cases hworking with
    | waiting hwaiting =>
      have hcalled : (a.call (.exception none)).1.resolver = a.resolver := by rw [hcall]
      simp [call, hwaiting, record] at hcalled
    | called _ hcalled => rcases hcalled with hcalled | hcalled <;> simp [hcalled] at hr
    | stored _ hstored => simp [hstored] at hr
  | decided _ _ _ _ _ hside =>
    rcases hside with ⟨-, -, ⟨hex, -⟩ | hret⟩ | ⟨hresume, -⟩
    · simp [ha] at hex
    · simp [ha] at hret
    · simp [hresume] at hr
  | continued _ _ _ _ _ _ hres => simp [hres]

end steps

end Awaitable

end Continuable.Await
