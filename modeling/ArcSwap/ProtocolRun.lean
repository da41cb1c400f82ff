import ArcSwap.LoadProtocol
import ArcSwap.PayProtocol
import ArcSwap.CallStack

namespace ArcSwap
set_option autoImplicit true

variable {Thr Sto : Type} {m m' : Shared Thr Sto} {st st' pre rest : List (Frame Thr Sto)}

theorem Frame.Parked.top {f : Frame Thr Sto} (hp : f.Parked)
    (hi : Idle m t ∧ HelpingHolds m t debtNone) : NodeTop m t (f :: rest) := by
  cases f with
  | load S since full pc =>
    cases pc with
    | done g => exact hi
    | _ => exact hp.elim
  | panic => exact hp.elim
  | _ => exact hi

theorem NodeOk.calm_of_result {f : Frame Thr Sto} (hn : NodeOk w m t (f :: rest))
    (hr : f.result = some v) : Idle m t ∧ HelpingHolds m t debtNone := by
  have ht := hn.top
  cases f with
  | load S since full pc =>
    cases pc with
    | done g => exact ht
    | _ => cases full <;> cases hr
  | panic => cases hr
  | _ => exact ht

theorem atUser_cases (h : atUser st = true) :
    st = [] ∨ (∃ rest, st = .user :: rest) ∨
      ∃ op S cur arg rest, st = .rcu op S (.closure cur arg) :: rest := by
  match st, h with
  | [], _ => exact .inl rfl
  | .user :: rest, _ => exact .inr (.inl ⟨rest, rfl⟩)
  | .rcu op S (.closure cur arg) :: rest, _ => exact .inr (.inr ⟨op, S, cur, arg, rest, rfl⟩)

theorem NodeOk.calm_of_user (hn : NodeOk w m t st) (h : atUser st = true) :
    (Idle m t ∧ HelpingHolds m t debtNone) ∧ ∀ f ∈ st, f.Parked := by
  have ht := hn.top
  have hp := hn.parked
  rcases atUser_cases h with rfl | ⟨rest, rfl⟩ | ⟨op, S, cur, arg, rest, rfl⟩
  · exact ⟨ht, by simp⟩
  · exact ⟨ht, List.forall_mem_cons.2 ⟨trivial, hp⟩⟩
  · exact ⟨ht, List.forall_mem_cons.2 ⟨trivial, hp⟩⟩

/-- What another step of `t` has to keep. -/
structure RunOk (w : Nat) (t : Thr) (m m' : Shared Thr Sto) (st' : List (Frame Thr Sto)) : Prop where
  others : ∀ n, n ≠ t → Undisturbed n m m'
  keeps : Keeps m m'
  node : NodeOk w m' t st'
  help : ∀ f ∈ st', f.HelpInv m'

theorem StepOk.run (h : StepOk w t m m' pre rest) (hh : ∀ f ∈ rest, f.HelpInv m) :
    RunOk w t m m' (pre ++ rest) where
  others := h.others
  keeps := h.keeps
  node := h.node
  help f hf := by
    rcases List.mem_append.1 hf with hf | hf
    · exact h.help f hf
    · exact h.keeps.help (hh f hf)

theorem RunOk.quiet (hn : NodeOk w m t st) (hq : Quiet m m')
    (hi : Idle m t ∧ HelpingHolds m t debtNone) (hp : ∀ f ∈ st'.tail, f.Parked)
    (he : ∀ f ∈ st', f.Entered → Owns m t)
    (hh : ∀ f ∈ st', f.HelpInv m ∨ f.HelpInv m')
    (ht : Idle m t ∧ HelpingHolds m t debtNone → NodeTop m t st') : RunOk w t m m' st' where
  others n _ := hq.undisturbed n
  keeps := hq.keeps
  node := by
    refine { hn.undisturbed (hq.undisturbed t) with parked := hp, entered := ?_, top := ?_ }
    · intro f hf hf'
      rw [(hq.undisturbed t).owns]
      exact he f hf hf'
    · exact (hq.undisturbed t).top _ (ht hi)
  help f hf := (hh f hf).elim hq.keeps.help id

theorem Frame.resume_ok {g g' : Frame Thr Sto} (h : g.resume m v = some g') :
    g'.Parked ∧ (g'.Entered → g.Entered) := by
  unfold Frame.resume at h
  split at h <;> first
    | cases h
      exact ⟨trivial, id⟩
    | cases h

theorem Frame.result_load {f : Frame Thr Sto} (hc : f.callee = .load S since true)
    (hv : f.result = some (.handle a)) : f.call m = some (.load S since (m.stamp S) (m.objAt a)) := by
  cases f with
  | load S' since' full pc =>
    cases hc
    cases pc <;> cases hv
  | intoInner src g pc =>
    cases src with
    | none => cases hc
    | some x =>
      cases hc
      cases pc <;> cases hv
      rfl
  | _ => cases hc

/-- A helper goes on with the pointer that its load returned. -/
theorem Called.helpInv [DecidableEq Thr] [DecidableEq Sto] {f g g' : Frame Thr Sto}
    (hc : Called f g) (hv : f.result = some v) (hg : g.resume m v = some g')
    (hi : g.HelpInv m) : g'.HelpInv (m.recordFor g f) := by
  have ha := hc.resolve_left (Frame.result_ne_panic hv)
  unfold Frame.resume at hg
  split at hg <;> cases hg <;> first
    | trivial
    | skip
  · rename_i S n todo w since a
    refine ⟨hi.1, hi.2, m.stamp S, m.epoch a, ?_⟩
    show _ ∈ (m.record f).calls
    rw [Shared.record, Frame.result_load ha hv]
    exact List.mem_cons_self ..

theorem Quiet.record [DecidableEq Thr] [DecidableEq Sto] (m : Shared Thr Sto) (f : Frame Thr Sto) :
    Quiet m (m.record f) :=
  { Quiet.refl m with calls := fun _ hc => List.mem_append_right _ hc }

theorem Quiet.recordFor [DecidableEq Thr] [DecidableEq Sto] (m : Shared Thr Sto)
    (g f : Frame Thr Sto) : Quiet m (m.recordFor g f) := by
  unfold Shared.recordFor
  split
  · exact .refl m
  · exact .record m f

theorem Quiet.give [DecidableEq Thr] [DecidableEq Sto] (h : Quiet m m') (v : Ret Thr) :
    Quiet m (m'.give v) := by
  cases v with
  | guard g => exact { h with }
  | handle a => exact { h with }
  | unit => exact h

theorem Quiet.takeHandle (h : m.takeHandle a = some m') : Quiet m m' := by
  rw [Shared.takeHandle] at h
  split at h
  · cases h
    exact .refl m
  · split at h
    · cases h
    · cases h
      exact { Quiet.refl m with }

theorem Quiet.allocate (h : m.allocate a = some m') : Quiet m m' := by
  rw [Shared.allocate] at h
  split at h
  · cases h
  · cases h
    exact { Quiet.refl m with }

theorem Quiet.trans {m'' : Shared Thr Sto} (h : Quiet m m') (h' : Quiet m' m'') : Quiet m m'' where
  control := h'.control.trans h.control
  offered := h'.offered.trans h.offered
  activeAddr := h'.activeAddr.trans h.activeAddr
  generation := h'.generation.trans h.generation
  published := h'.published.trans h.published
  publishedAt := h'.publishedAt.trans h.publishedAt
  spaceOffer := h'.spaceOffer.trans h.spaceOffer
  handover := h'.handover.trans h.handover
  sent := h'.sent.trans h.sent
  received := h'.received.trans h.received
  localNode := h'.localNode.trans h.localNode
  listHead := h'.listHead.trans h.listHead
  clock := Nat.le_trans h.clock h'.clock
  calls c hc := h'.calls c (h.calls c hc)
  log S := Nat.le_trans (h.log S) (h'.log S)
  debt d := by
    rcases h'.debt d with he | he
    · rw [he]
      exact h.debt d
    · exact .inr he

theorem Frame.Entry.fresh {f : Frame Thr Sto} (h : f.Entry m₁ m₂) :
    ¬ f.Entered ∧ f.HelpInv m ∧
      (Idle m t ∧ HelpingHolds m t debtNone → ∀ rest, NodeTop m t (f :: rest)) := by
  unfold Frame.Entry at h
  split at h <;> first
    | exact ⟨id, trivial, fun h _ => h⟩
    | exact h.elim

theorem Frame.Outer.fresh {g : Frame Thr Sto} (h : g.Outer m₁ m₂) :
    ¬ g.Entered ∧ g.HelpInv m ∧ g.Parked := by
  unfold Frame.Outer at h
  split at h <;> first
    | exact ⟨id, trivial, trivial⟩
    | exact h.elim

theorem NodeOk.calm_of_unlisted (hn : NodeOk w m t st) (ht : t ∉ m.listHead) :
    (Idle m t ∧ HelpingHolds m t debtNone) ∧ ∀ m' : Shared Thr Sto,
      Idle m' t ∧ HelpingHolds m' t debtNone → NodeTop m' t st := by
  have hno : ¬ Owns m t := fun h => ht (hn.listed.1 h)
  have htop := hn.top
  cases st with
  | nil => exact ⟨htop, fun _ hi => hi⟩
  | cons f rest =>
    cases f with
    | load S since full pc =>
      cases pc with
      | enter => exact ⟨htop, fun _ hi => hi⟩
      | _ => exact absurd (hn.owns_of_load (by simp)) hno
    | panic =>
      obtain ⟨S, ho⟩ := htop
      exact absurd (.inr ho.2.1) hno
    | _ => exact ⟨htop, fun _ hi => hi⟩

theorem Protocol.initial (cfg : Config Thr Sto) : Protocol cfg.width (State.initial cfg) where
  node t := by
    refine ⟨?_, ?_, ?_, ?_, ⟨rfl, Nat.two_pow_pos _⟩, cfg.aligned t, ⟨rfl, rfl, ?_⟩, .inl rfl⟩
    · simp [State.initial]
    · simp [State.initial]
    · simp [State.initial, Owns]
    · exact fun _ _ => rfl
    · exact ⟨by simp [State.initial], Nat.zero_le _⟩
  help t f hf := by cases hf

variable [DecidableEq Thr]

theorem Quiet.takeGuard (h : m.takeGuard g = some m') : Quiet m m' := by
  rw [Shared.takeGuard] at h
  split at h
  · cases h
  · cases h
    exact { Quiet.refl m with }

theorem claimStep_ok (hn : NodeOk w m t st) (hh : ∀ f ∈ st, f.HelpInv m)
    (hs : claimStep t m = some m') : RunOk w t m m' st := by
  rw [claimStep] at hs
  split at hs
  · cases hs
  · rename_i ht
    cases hs
    have hk : Keeps m { m with
        listHead := t :: m.listHead
        inUse := Function.update m.inUse t nodeUsed
        localNode := Function.update m.localNode t true } :=
      ⟨fun hs => hs.congr rfl, fun _ _ _ hc => ⟨hc, rfl, rfl, rfl⟩, fun _ hc => hc⟩
    refine ⟨?_, hk, ?_, fun f hf => hk.help (hh f hf)⟩
    · intro n hne
      refine ⟨.inl ⟨rfl, rfl⟩, fun _ => .inl rfl, rfl, rfl, rfl, rfl, rfl,
        Function.update_of_ne hne .., ?_, Nat.le_refl _, fun _ => Nat.le_refl _⟩
      simp [hne]
    · obtain ⟨hi, htop⟩ := hn.calm_of_unlisted ht
      refine { hn with entered := ?_, listed := ?_, unused := ?_, top := htop _ ?_ }
      · intro f _ _
        exact .inl (Function.update_self ..)
      · simp [Owns]
      · intro hl
        simp at hl
      · exact ⟨⟨hi.1.1, hi.1.2, hi.1.3⟩, hi.2⟩

variable [DecidableEq Sto]

theorem retStep_ok (hn : NodeOk w m t st) (hst : Stacked st) (hh : ∀ f ∈ st, f.HelpInv m)
    (hs : retStep m st = some (m', st')) : RunOk w t m m' st' := by
  obtain ⟨f, v, rest, rfl, hv, ⟨rfl, rfl, _⟩ | ⟨g, g', rest', rfl, hg, rfl, rfl⟩⟩ :=
    retStep_cases hs
  · have hp := hn.parked
    apply RunOk.quiet hn ((Quiet.record m f).give v) (hn.calm_of_result hv)
    · exact fun f hf => hp f (List.mem_of_mem_tail hf)
    · exact fun f hf => hn.entered f (List.mem_cons_of_mem _ hf)
    · exact fun f hf => .inl (hh f (List.mem_cons_of_mem _ hf))
    · intro hi
      cases st' with
      | nil => exact hi
      | cons g rest => exact (hp g (List.mem_cons_self ..)).top hi
  · obtain ⟨hp, he⟩ := Frame.resume_ok hg
    have hi := (List.isChain_cons_cons.1 hst.called).1.helpInv hv hg (hh g (by simp))
    apply RunOk.quiet hn (Quiet.recordFor m g f) (hn.calm_of_result hv)
    · exact fun f hf => hn.parked f (List.mem_cons_of_mem _ hf)
    · rw [List.forall_mem_cons]
      refine ⟨fun h => hn.entered g (by simp) (he h), ?_⟩
      exact fun f hf => hn.entered f (by simp [hf])
    · rw [List.forall_mem_cons]
      exact ⟨.inr hi, fun f hf => .inl (hh f (by simp [hf]))⟩
    · exact hp.top

theorem userStep_cases (hs : userStep m free st act = some (m', st')) :
    Quiet m m' ∧ UserMove m m' st st' := by
  have begins : ∀ {m₁ : Shared Thr Sto} {a : Nat}, m.takeHandle a = some m₁ →
      m.Begins m₁.newOp m.nextOp := by
    intro m₁ a h
    rw [takeHandle_eq h]
    exact ⟨rfl, rfl⟩
  cases act with
  | alloc a =>
    simp only [userStep, Option.map_eq_some_iff] at hs
    obtain ⟨m₁, h₁, he⟩ := hs
    cases he
    exact ⟨{ Quiet.allocate h₁ with }, .stay⟩
  | clone a =>
    simp only [userStep] at hs
    split at hs <;> cases hs
    exact ⟨{ Quiet.inc m a with }, .stay⟩
  | cloneGuard g =>
    simp only [userStep] at hs
    split at hs <;> cases hs
    exact ⟨{ Quiet.inc m g.ptr with }, .stay⟩
  | cloneCur =>
    simp only [userStep] at hs
    split at hs <;> cases hs
    exact ⟨{ Quiet.inc m _ with }, .stay⟩
  | dropHandle a =>
    simp only [userStep, Option.map_eq_some_iff] at hs
    obtain ⟨m₁, h₁, he⟩ := hs
    cases he
    exact ⟨.takeHandle h₁, .enter trivial⟩
  | create S a =>
    simp only [userStep] at hs
    split at hs
    · simp only [Option.map_eq_some_iff] at hs
      obtain ⟨m₁, h₁, he⟩ := hs
      cases he
      exact ⟨{ (Quiet.takeHandle h₁).trans (.setStorage m₁ m.nextOp S _) with }, .stay⟩
    · cases hs
  | load S | loadFull S =>
    simp only [userStep, Option.map_eq_some_iff] at hs
    obtain ⟨p, h₁, he⟩ := hs
    cases he
    exact ⟨.tick m, .enter rfl⟩
  | swap S new =>
    simp only [userStep, Option.bind_eq_some_iff, Option.map_eq_some_iff] at hs
    obtain ⟨p, _, m₁, h₁, he⟩ := hs
    cases he
    exact ⟨{ Quiet.takeHandle h₁ with }, .enter (begins h₁)⟩
  | cas S current new =>
    simp only [userStep, Option.bind_eq_some_iff, Option.map_eq_some_iff] at hs
    obtain ⟨p, _, m₁, h₁, he⟩ := hs
    cases he
    exact ⟨{ Quiet.takeHandle h₁ with }, .enter ⟨begins h₁, rfl⟩⟩
  | store S new =>
    simp only [userStep, Option.bind_eq_some_iff, Option.map_eq_some_iff] at hs
    obtain ⟨p, _, m₁, h₁, he⟩ := hs
    cases he
    exact ⟨{ Quiet.takeHandle h₁ with }, .call (begins h₁) trivial (.inl rfl)⟩
  | rcu S =>
    simp only [userStep, Option.map_eq_some_iff] at hs
    obtain ⟨p, h₁, he⟩ := hs
    cases he
    exact ⟨{ Quiet.tick m with }, .call rfl ⟨rfl, rfl⟩ (.inr ⟨_, _, rfl⟩)⟩
  | intoInner S =>
    simp only [userStep] at hs
    split at hs
    · simp only [Option.map_eq_some_iff] at hs
      obtain ⟨p, h₁, he⟩ := hs
      cases he
      exact ⟨{ Quiet.setStorage m m.nextOp S none with }, .enter trivial⟩
    · cases hs
  | dropStorage S =>
    simp only [userStep] at hs
    split at hs
    · simp only [Option.map_eq_some_iff] at hs
      obtain ⟨p, h₁, he⟩ := hs
      cases he
      exact ⟨{ Quiet.setStorage m m.nextOp S none with }, .call trivial trivial (.inl rfl)⟩
    · cases hs
  | guardDrop g =>
    simp only [userStep, Option.map_eq_some_iff] at hs
    obtain ⟨m₁, h₁, he⟩ := hs
    cases he
    exact ⟨.takeGuard h₁, .enter trivial⟩
  | guardIntoInner g =>
    simp only [userStep, Option.map_eq_some_iff] at hs
    obtain ⟨m₁, h₁, he⟩ := hs
    cases he
    exact ⟨.takeGuard h₁, .enter rfl⟩
  | guardFromInner a =>
    simp only [userStep, Option.map_eq_some_iff] at hs
    obtain ⟨m₁, h₁, he⟩ := hs
    cases he
    exact ⟨{ Quiet.takeHandle h₁ with }, .stay⟩
  | closureRet new =>
    simp only [userStep, closureStep] at hs
    split at hs
    · simp only [Option.map_eq_some_iff] at hs
      obtain ⟨m₁, h₁, he⟩ := hs
      cases he
      exact ⟨.takeHandle h₁, .closure rfl⟩
    · cases hs
  | userRet =>
    simp only [userStep] at hs
    split at hs <;> cases hs
    exact ⟨.refl m, .ret⟩
  | run => cases hs
  | ret => cases hs
  | claim => cases hs

theorem userStep_ok (hn : NodeOk w m t st) (hu : atUser st = true) (hh : ∀ f ∈ st, f.HelpInv m)
    (hs : userStep m free st act = some (m', st')) : RunOk w t m m' st' := by
  obtain ⟨hq, hm⟩ := userStep_cases hs
  obtain ⟨hc, hp⟩ := hn.calm_of_user hu
  cases hm with
  | stay => exact .quiet hn hq hc hn.parked hn.entered (fun f hf => .inl (hh f hf)) (fun _ => hn.top)
  | @enter f _ hf =>
    have hf := hf.fresh (m := m) (t := t)
    apply RunOk.quiet hn hq hc
    · exact hp
    · exact List.forall_mem_cons.2 ⟨fun h => (hf.1 h).elim, hn.entered⟩
    · exact List.forall_mem_cons.2 ⟨.inl hf.2.1, fun f hf => .inl (hh f hf)⟩
    · exact fun hi => hf.2.2 hi _
  | @call f g _ hf hg =>
    have hf := hf.fresh (m := m) (t := t)
    have hg := hg.fresh (m := m)
    apply RunOk.quiet hn hq hc
    · exact List.forall_mem_cons.2 ⟨hg.2.2, hp⟩
    · exact List.forall_mem_cons.2 ⟨fun h => (hf.1 h).elim,
        List.forall_mem_cons.2 ⟨fun h => (hg.1 h).elim, hn.entered⟩⟩
    · exact List.forall_mem_cons.2 ⟨.inl hf.2.1,
        List.forall_mem_cons.2 ⟨.inl hg.2.1, fun f hf => .inl (hh f hf)⟩⟩
    · exact fun hi => hf.2.2 hi _
  | closure =>
    apply RunOk.quiet hn hq hc
    · exact List.forall_mem_cons.2 ⟨trivial, hn.parked⟩
    · intro f hf
      rcases List.mem_cons.1 hf with rfl | hf
      · exact False.elim
      · rcases List.mem_cons.1 hf with rfl | hf
        · exact False.elim
        · exact hn.entered f (List.mem_cons_of_mem _ hf)
    · rw [List.forall_mem_cons, List.forall_mem_cons]
      exact ⟨.inl trivial, .inl trivial, fun f hf => .inl (hh f (List.mem_cons_of_mem _ hf))⟩
    · exact id
  | ret =>
    apply RunOk.quiet hn hq hc
    · exact fun f hf => hn.parked f (List.mem_of_mem_tail hf)
    · exact fun f hf => hn.entered f (List.mem_cons_of_mem _ hf)
    · exact fun f hf => .inl (hh f (List.mem_cons_of_mem _ hf))
    · intro hi
      have hp := hn.parked
      cases st' with
      | nil => exact hi
      | cons g rest => exact (hp g (List.mem_cons_self ..)).top hi

theorem Frame.step_ok {f : Frame Thr Sto} (hn : NodeOk cfg.width m t (f :: rest))
    (hw : ∀ n, Watched m n) (hh : f.HelpInv m) (hs : f.step cfg t m sp = some (m', pre)) :
    StepOk cfg.width t m m' pre rest := by
  cases f with
  | user => cases hs
  | panic => cases hs
  | load S since full pc =>
    rcases Frame.step_load hs with ⟨g, rfl, rfl, rfl, rfl⟩ | hs
    · exact .move hn (.refl _) hn.top False.elim trivial
    · exact loadStep_ok cfg hn hs
  | intoInner src g pc => exact innerStep_ok hn hs
  | guardDrop g pc => exact dropStep_ok hn hs
  | payAll ptr S pc => exact payStep_ok hn hw hh hs
  | swap op S new pc => exact swapStep_ok hn hs
  | discard pc => exact discardStep_ok hn hs
  | cas op S current new dst pc => exact casStep_ok hn hs
  | rcu op S pc => exact rcuStep_ok hn hs

variable {σ σ' : State Thr Sto} [Fintype Thr]

theorem threadStep_ok (hP : Protocol cfg.width σ) (hst : Stacked (σ.stack t))
    (hs : threadStep cfg t σ.mem σ.free (σ.stack t) act = some (m', st')) :
    RunOk cfg.width t σ.mem m' st' := by
  have hn := hP.node t
  have hh := hP.help t
  rcases threadStep_cases hs with ⟨sp, f, rest, pre, rfl, he, hf, rfl⟩ | ⟨rfl, hr⟩ |
    ⟨rfl, hc, rfl⟩ | ⟨hu, hr⟩
  · rw [he] at hn hh
    refine (Frame.step_ok hn (fun n => (hP.node n).watched) (hh f (by simp)) hf).run ?_
    exact fun g hg => hh g (by simp [hg])
  · exact retStep_ok hn hst hh hr
  · exact claimStep_ok hn hh hc
  · exact userStep_ok hn hu hh hr

theorem Protocol.step (hP : Protocol cfg.width σ) (hst : ∀ t, Stacked (σ.stack t))
    (hs : State.step cfg l σ = some σ') : Protocol cfg.width σ' := by
  obtain ⟨m', st', ht, rfl⟩ := State.step_cases hs
  have hr := threadStep_ok hP (hst _) ht
  refine ⟨?_, ?_⟩
  · intro n
    by_cases hn : n = l.1
    · subst hn
      simpa using hr.node
    · simpa [hn] using (hP.node n).undisturbed (hr.others n hn)
  · intro n
    by_cases hn : n = l.1
    · subst hn
      simpa using hr.help
    · simpa [hn] using fun f hf => hr.keeps.help (hP.help n f hf)

theorem Protocol.reach (h : (machine cfg).Reach ok σ) : Protocol cfg.width σ :=
  h.invariant_of (fun _ hr => Stacked.reach hr) (fun _ hi => hi ▸ .initial cfg)
    (fun _ _ _ hst hP _ hs => hP.step hst hs)

theorem State.step_ok (hr : (machine cfg).Reach ok σ) (hs : State.step cfg l σ = some σ') :
    RunOk cfg.width l.1 σ.mem σ'.mem (σ'.stack l.1) := by
  obtain ⟨m', st', ht, rfl⟩ := State.step_cases hs
  simp only [Function.update_self]
  exact threadStep_ok (Protocol.reach hr) (Stacked.reach hr l.1) ht

theorem State.step_keeps (hr : (machine cfg).Reach ok σ) (hs : State.step cfg l σ = some σ') :
    Keeps σ.mem σ'.mem :=
  (State.step_ok hr hs).keeps

end ArcSwap
