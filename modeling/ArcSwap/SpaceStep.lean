import ArcSwap.Run

namespace ArcSwap
set_option autoImplicit true

variable {Thr Sto : Type}

/-- The activations that are not in the middle of an exchange of envelopes. -/
def Frame.Plain : Frame Thr Sto → Prop
  | .load _ _ _ (.envelope _ _ _ _) | .load _ _ _ (.offer _ _ _) => False
  | .payAll _ _ (.help _ _ (.write _ _ _ _ _)) => False
  | .payAll _ _ (.help _ _ (.exchange _ _ _ _ _)) => False
  | .payAll _ _ (.help _ _ (.offer _)) => False
  | _ => True

/-- The memory that the exchanges of envelopes are about. -/
structure SameSpace (m m' : Shared Thr Sto) : Prop where
  control : m'.control = m.control
  spaceOffer : m'.spaceOffer = m.spaceOffer
  handover : m'.handover = m.handover
  offered : m'.offered = m.offered
  published : m'.published = m.published
  sent : m'.sent = m.sent
  received : m'.received = m.received

theorem SameSpace.refl (m : Shared Thr Sto) : SameSpace m m :=
  ⟨rfl, rfl, rfl, rfl, rfl, rfl, rfl⟩

theorem helpNext_plain (n : Thr) (todo : List Thr) (v ptr : Nat) (S : Sto) :
    ((helpNext n todo v).elim .panic (Frame.payAll ptr S)).Plain := by
  simp only [helpNext]
  split
  · split <;> trivial
  · trivial
  · trivial
  · trivial

variable [DecidableEq Thr]

/-- The steps that matter to the exchanges of envelopes, and the others. -/
inductive SpaceStep (t : Thr) (m : Shared Thr Sto) :
    Frame Thr Sto → Shared Thr Sto → List (Frame Thr Sto) → Prop
  | other (hq : SameSpace m m') (hf : f.Plain) (hp : ∀ g ∈ pre.head?, g.Plain) (hn : pre ≠ []) :
    SpaceStep t m f m' pre
  | publish : SpaceStep t m (.load S since full (.setControl g b))
      { m.setControl t g with
        published := Function.update m.published t g
        publishedAt := Function.update m.publishedAt t (m.stamp S)
        clock := m.clock + 1 }
      [.load S since full (if b then .reserve g else .candidate g)]
  | withdraw : SpaceStep t m (.load S since full (.setIdle g c))
      { m.setControl t idle with offered := Function.update m.offered t none }
      [.load S since full (if m.control t = g then .inc c
        else .envelope g c (clearTag (m.control t)) ((m.offered t).getD 0))]
  | receive : SpaceStep t m (.load S since full (.envelope g c space p))
      { m with received := ⟨t, g, m.handover space⟩ :: m.received }
      [.load S since full (.offer c (m.handover space) space)]
  | keep : SpaceStep t m (.load S since full (.offer c r space))
      { m with spaceOffer := Function.update m.spaceOffer t space }
      [.load S since full (.repayUnused c r)]
  | mySpace : SpaceStep t m (.payAll ptr S (.help n todo (.mySpace v since r their))) m
      [.payAll ptr S (.help n todo (.write v since r their (m.spaceOffer t)))]
  | write : SpaceStep t m (.payAll ptr S (.help n todo (.write v since r their mine)))
      { m with handover := Function.update m.handover mine r }
      [if tagOf mine = 0 then .payAll ptr S (.help n todo (.exchange v since r their mine))
        else .panic]
  | exchange (hc : m.control n = v) :
    SpaceStep t m (.payAll ptr S (.help n todo (.exchange v since r their mine)))
      { m.setControl n (mine ||| replacementTag) with
        offered := Function.update m.offered n (some r)
        sent := ⟨n, v, r⟩ :: m.sent }
      [.payAll ptr S (.help n todo (.offer their))]
  | miss (hc : m.control n ≠ v) :
    SpaceStep t m (.payAll ptr S (.help n todo (.exchange v since r their mine))) m
      [.payAll ptr S (.help n todo (.drop (m.control n) r))]
  | give : SpaceStep t m (.payAll ptr S (.help n todo (.offer their)))
      { m with spaceOffer := Function.update m.spaceOffer t their } [.payAll ptr S (.slot n todo 0)]

variable {m m' : Shared Thr Sto} {pre rest : List (Frame Thr Sto)}

section
omit [DecidableEq Thr]

theorem SameSpace.inc (m : Shared Thr Sto) (a : Nat) : SameSpace m (m.inc a) := by
  rw [Shared.inc]
  split
  · exact .refl m
  · exact { SameSpace.refl m with }

theorem SameSpace.dec (m : Shared Thr Sto) (a : Nat) : SameSpace m (m.dec a) := by
  rw [Shared.dec]
  split
  · exact .refl m
  · exact { SameSpace.refl m with }

end

theorem SpaceStep.goto {f f' : Frame Thr Sto} (hq : SameSpace m m') (hf : f.Plain) (hp : f'.Plain) :
    SpaceStep t m f m' [f'] :=
  .other hq hf (by simpa using hp) (by simp)

theorem SpaceStep.call {f f' g : Frame Thr Sto} (hq : SameSpace m m') (hf : f.Plain)
    (hp : g.Plain) : SpaceStep t m f m' [g, f'] :=
  .other hq hf (by simpa using hp) (by simp)

theorem SpaceStep.release {f : Frame Thr Sto} (f' : Frame Thr Sto) (hf : f.Plain) (hp : f'.Plain)
    (hs : release m a f' = (m', pre)) : SpaceStep t m f m' pre := by
  obtain ⟨rfl, rfl⟩ := Prod.mk.inj hs
  split
  · exact .call (.dec m a) hf trivial
  · exact .goto (.dec m a) hf hp

theorem loadStep_space (cfg : Config Thr Sto) (t : Thr)
    (hs : loadStep cfg t m S (.load S since full) pc = some (m', pre)) :
    SpaceStep t m (.load S since full pc) m' pre := by
  cases pc with
  | enter =>
    simp only [loadStep] at hs
    split at hs <;> cases hs
    split <;> exact .goto (.refl m) trivial trivial
  | first | candidate =>
    simp only [loadStep, Option.map_eq_some_iff] at hs
    obtain ⟨p, _, he⟩ := hs
    cases he
    split <;> exact .goto (.refl m) trivial trivial
  | scan p e i =>
    cases hs
    refine .goto (.refl m) trivial ?_
    split
    · trivial
    · split <;> trivial
  | confirm p e d =>
    simp only [loadStep, Option.map_eq_some_iff] at hs
    obtain ⟨p, _, he⟩ := hs
    cases he
    split <;> exact .goto (.refl m) trivial trivial
  | take p e d =>
    cases hs
    exact .goto { SameSpace.refl m with } trivial trivial
  | repay | pay | repayUnused =>
    simp only [loadStep] at hs
    split at hs <;> cases hs <;> exact .goto { SameSpace.refl m with } trivial trivial
  | setAddr =>
    simp only [loadStep] at hs
    split at hs <;> cases hs <;> exact .goto { SameSpace.refl m with } trivial trivial
  | setControl g discard =>
    cases hs
    exact .publish
  | cooldown g =>
    cases hs
    split <;> exact .goto { SameSpace.refl m with } trivial trivial
  | reserve | release | setSlot =>
    cases hs
    exact .goto { SameSpace.refl m with } trivial trivial
  | setIdle g c =>
    cases hs
    exact .withdraw
  | inc c =>
    cases hs
    exact .goto (.inc m c) trivial trivial
  | dec c =>
    simp only [loadStep, Option.some.injEq] at hs
    exact .release (.load S since full (.done ⟨none, c⟩)) trivial trivial hs
  | envelope g c space p =>
    cases hs
    exact .receive
  | offer c r space =>
    cases hs
    exact .keep
  | decUnused c r =>
    simp only [loadStep, Option.some.injEq] at hs
    exact .release (.load S since full (.done ⟨none, r⟩)) trivial trivial hs
  | done => cases hs

variable [DecidableEq Sto]

theorem helpStep_space
    (hs : helpStep t m S (.payAll ptr S) n todo h = some (m', pre)) :
    SpaceStep t m (.payAll ptr S (.help n todo h)) m' pre := by
  cases h with
  | load =>
    cases hs
    refine .goto (.refl m) trivial ?_
    split
    · exact helpNext_plain ..
    · trivial
  | addr v =>
    simp only [helpStep] at hs
    split at hs <;> cases hs
    · exact .call { SameSpace.refl m with } trivial trivial
    · exact .goto (.refl m) trivial trivial
  | recheck v =>
    cases hs
    refine .goto (.refl m) trivial ?_
    split
    · trivial
    · exact helpNext_plain ..
  | await v since => cases hs
  | theirSpace v since r =>
    cases hs
    exact .goto (.refl m) trivial trivial
  | mySpace v since r their =>
    cases hs
    exact .mySpace
  | write v since r their mine =>
    cases hs
    exact .write
  | exchange v since r their mine =>
    simp only [helpStep] at hs
    split at hs <;> cases hs
    · exact .exchange (by assumption)
    · exact .miss (by assumption)
  | offer their =>
    cases hs
    exact .give
  | drop v r =>
    simp only [helpStep, Option.some.injEq] at hs
    exact .release _ trivial (helpNext_plain n todo v ptr S) hs

theorem payStep_space (hs : payStep t m ptr S (.payAll ptr S) pc = some (m', pre)) :
    SpaceStep t m (.payAll ptr S pc) m' pre := by
  have slots : ∀ n todo j, Frame.Plain (.payAll ptr S (nextSlot n todo j) : Frame Thr Sto) := by
    intro n todo j
    rw [nextSlot]
    split <;> trivial
  cases pc with
  | start =>
    simp only [payStep] at hs
    split at hs <;> cases hs
    exact .goto (.inc m ptr) trivial trivial
  | head =>
    cases hs
    exact .goto (.refl m) trivial trivial
  | next todo =>
    cases todo <;> cases hs <;> exact .goto { SameSpace.refl m with } trivial trivial
  | help n todo h => exact helpStep_space hs
  | slot n todo j =>
    simp only [payStep] at hs
    split at hs <;> cases hs
    · exact .goto { SameSpace.refl m with } trivial trivial
    · exact .goto (.refl m) trivial (slots n todo j)
  | inc n todo j =>
    cases hs
    exact .goto (.inc m ptr) trivial (slots n todo j)
  | release n todo =>
    cases hs
    exact .goto { SameSpace.refl m with } trivial trivial
  | dec =>
    simp only [payStep, Option.some.injEq] at hs
    exact .release (.payAll ptr S .done) trivial trivial hs
  | done => cases hs

theorem Frame.step_space {f : Frame Thr Sto} (hs : f.step cfg t m sp = some (m', pre)) :
    SpaceStep t m f m' pre := by
  cases f with
  | user => cases hs
  | panic => cases hs
  | load S since full pc =>
    rcases Frame.step_load hs with ⟨g, rfl, rfl, rfl, rfl⟩ | hs
    · exact .goto (.refl _) trivial trivial
    · exact loadStep_space cfg t hs
  | intoInner src g pc =>
    cases pc with
    | start =>
      simp only [Frame.step, innerStep] at hs
      split at hs <;> cases hs
      · exact .goto (.refl m) trivial trivial
      · exact .goto (.inc m g.ptr) trivial trivial
    | pay d =>
      simp only [Frame.step, innerStep] at hs
      split at hs <;> cases hs <;> exact .goto { SameSpace.refl m with } trivial trivial
    | dec =>
      simp only [Frame.step, innerStep, Option.some.injEq] at hs
      exact .release (.intoInner src g .done) trivial trivial hs
    | done => cases hs
  | guardDrop g pc =>
    cases pc with
    | start =>
      simp only [Frame.step, dropStep] at hs
      split at hs
      · cases hs
        exact .goto (.refl m) trivial trivial
      · split at hs <;> cases hs <;> exact .goto { SameSpace.refl m with } trivial trivial
    | dec =>
      simp only [Frame.step, dropStep, Option.some.injEq] at hs
      exact .release (.guardDrop g .done) trivial trivial hs
    | done => cases hs
  | payAll ptr S pc => exact payStep_space hs
  | swap op S new pc =>
    cases pc with
    | start =>
      simp only [Frame.step, swapStep, Option.map_eq_some_iff] at hs
      obtain ⟨old, _, he⟩ := hs
      cases he
      exact .call { SameSpace.refl m with } trivial trivial
    | await => cases hs
    | done => cases hs
  | discard pc =>
    cases pc with
    | await => cases hs
    | dec a =>
      simp only [Frame.step, discardStep, Option.some.injEq] at hs
      exact .release (.discard .done) trivial trivial hs
    | done => cases hs
  | cas op S current new dst pc =>
    cases pc with
    | retry =>
      cases hs
      exact .call { SameSpace.refl m with } trivial trivial
    | exchange old =>
      simp only [Frame.step, casStep, Option.map_eq_some_iff] at hs
      obtain ⟨ptr, _, he⟩ := hs
      split at he <;> cases he
      · exact .call { SameSpace.refl m with } trivial trivial
      · exact .call (.refl m) trivial trivial
    | dec old u =>
      simp only [Frame.step, casStep, Option.some.injEq] at hs
      exact .release (.cas op S current new dst (.done old (some u))) trivial trivial hs
    | dropNew old =>
      simp only [Frame.step, casStep, Option.some.injEq] at hs
      exact .release (.cas op S current new dst (.done old none)) trivial trivial hs
    | _ => cases hs
  | rcu op S pc =>
    cases pc with
    | compare cur prev arg res =>
      simp only [Frame.step, rcuStep] at hs
      split at hs <;> cases hs <;> exact .call (.refl m) trivial trivial
    | release cur ret arg res =>
      cases hs
      exact .call (.refl m) trivial trivial
    | _ => cases hs

end ArcSwap
