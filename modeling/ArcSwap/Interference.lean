import ArcSwap.Protocol

namespace ArcSwap
set_option autoImplicit true

variable {Thr Sto : Type}

/-- A step of another thread, seen from the node of `t`: a debt may be paid, and a transaction may
be given a replacement. -/
structure Undisturbed (t : Thr) (m m' : Shared Thr Sto) : Prop where
  control : m'.control t = m.control t ∧ m'.offered t = m.offered t ∨
    m.control t % 4 = 2 ∧ m'.control t % 4 = 1 ∧ (m'.offered t).isSome
  debt : ∀ j, m'.debt (t, j) = m.debt (t, j) ∨ m'.debt (t, j) = debtNone
  activeAddr : m'.activeAddr t = m.activeAddr t
  generation : m'.generation t = m.generation t
  published : m'.published t = m.published t
  publishedAt : m'.publishedAt t = m.publishedAt t
  spaceOffer : m'.spaceOffer t = m.spaceOffer t
  localNode : m'.localNode t = m.localNode t
  listed : t ∈ m'.listHead ↔ t ∈ m.listHead
  clock : m.clock ≤ m'.clock
  log : ∀ S, (m.log S).length ≤ (m'.log S).length

theorem Undisturbed.owns (h : Undisturbed t m m') : Owns m' t ↔ Owns m t := by
  rw [Owns, Owns, h.localNode, h.published]

theorem Undisturbed.fresh (h : Undisturbed t m m') (hf : Fresh m t) : Fresh m' t := by
  rw [Fresh, h.published, h.generation]
  exact hf

/-- Where no transaction is in progress, none is given a replacement. -/
theorem Undisturbed.calm (h : Undisturbed t m m') (hi : m.control t = idle ∧ m.offered t = none) :
    m'.control t = idle ∧ m'.offered t = none := by
  obtain ⟨hc, ho⟩ := hi
  rcases h.control with ⟨hc', ho'⟩ | ⟨h2, _⟩
  · exact ⟨hc'.trans hc, ho'.trans ho⟩
  · rw [hc] at h2
    cases h2

theorem Undisturbed.idle (h : Undisturbed t m m') (hi : Idle m t) : Idle m' t := by
  obtain ⟨hc, ho⟩ := h.calm ⟨hi.control, hi.offered⟩
  exact ⟨hc, ho, h.fresh hi.fresh⟩

theorem Undisturbed.opened (h : Undisturbed t m m') (ho : Open m t S g) : Open m' t S g := by
  obtain ⟨ha, hp, hg, hc, ht, hv⟩ := ho
  refine ⟨h.activeAddr.trans ha, h.published.trans hp, hg, ?_, ?_, ?_⟩
  · rcases h.control with ⟨hc', ho'⟩ | ⟨_, hc', ho'⟩
    · rw [hc', ho']
      exact hc
    · exact .inr ⟨hc', ho'⟩
  · rw [h.publishedAt]
    exact Nat.lt_of_lt_of_le ht h.clock
  · rw [h.publishedAt]
    exact Nat.le_trans hv (h.log S)

theorem Undisturbed.holds (h : Undisturbed t m m') (hh : HelpingHolds m t c) :
    HelpingHolds m' t c := by
  rcases h.debt 8 with he | he
  · rw [HelpingHolds, helpingSlot, he]
    exact hh
  · exact .inl he

theorem Undisturbed.slot (h : Undisturbed t m m') (hd : d.1 = t)
    (hh : m.debt d = debtNone ∨ m.debt d = p) : m'.debt d = debtNone ∨ m'.debt d = p := by
  obtain ⟨n, j⟩ := d
  subst hd
  rcases h.debt j with he | he
  · rw [he]
    exact hh
  · exact .inl he

theorem Undisturbed.pc (h : Undisturbed t m m') (pc : LoadPc Thr) (hn : pc.NodeInv m t S) :
    pc.NodeInv m' t S := by
  cases pc with
  | take p e d =>
    obtain ⟨hi, hh, hd, hj, hs⟩ := hn
    have hs' := h.slot hd (.inl hs) (p := debtNone)
    exact ⟨h.idle hi, h.holds hh, hd, hj, hs'.elim id id⟩
  | confirm p e d =>
    obtain ⟨hi, hh, hd, hj, hs⟩ := hn
    exact ⟨h.idle hi, h.holds hh, hd, hj, h.slot hd hs⟩
  | repay p e d =>
    obtain ⟨hi, hh, hd, hj, hs⟩ := hn
    exact ⟨h.idle hi, h.holds hh, hd, hj, h.slot hd hs⟩
  | setControl g discard =>
    obtain ⟨hi, hh, ha, hp, hlt, hg, hd⟩ := hn
    exact ⟨h.calm hi, h.holds hh, h.activeAddr.trans ha, h.published ▸ hp, h.published ▸ hlt,
      h.generation ▸ hg, hd⟩
  | reserve => exact ⟨h.opened hn.1, h.holds hn.2.1, hn.2.2⟩
  | cooldown => exact ⟨h.opened hn.1, h.holds hn.2.1, hn.2.2⟩
  | release => exact ⟨h.opened hn.1, h.holds hn.2.1, hn.2.2⟩
  | envelope => exact ⟨h.idle hn.1, h.holds hn.2.1, hn.2.2⟩
  | offer => exact ⟨h.idle hn.1, h.holds hn.2.1, hn.2.2⟩
  | candidate =>
    refine ⟨h.opened hn.1, h.holds hn.2.1, ?_⟩
    rw [h.localNode]
    exact fun hl => h.fresh (hn.2.2 hl)
  | setSlot => exact ⟨h.opened hn.1, h.holds hn.2.1, h.fresh hn.2.2⟩
  | setIdle => exact ⟨h.opened hn.1, h.holds hn.2.1, h.fresh hn.2.2⟩
  | _ => exact ⟨h.idle hn.1, h.holds hn.2⟩

theorem Undisturbed.top (h : Undisturbed t m m') (st : List (Frame Thr Sto))
    (hn : NodeTop m t st) : NodeTop m' t st := by
  cases st with
  | nil => exact ⟨h.idle hn.1, h.holds hn.2⟩
  | cons f st =>
    cases f with
    | load S since full pc => exact h.pc pc hn
    | panic =>
      obtain ⟨S, ho⟩ := hn
      exact ⟨S, h.opened ho⟩
    | _ => exact ⟨h.idle hn.1, h.holds hn.2⟩

theorem NodeOk.undisturbed (hn : NodeOk w m t st) (h : Undisturbed t m m') : NodeOk w m' t st where
  parked := hn.parked
  entered f hf he := h.owns.2 (hn.entered f hf he)
  listed := by rw [h.owns, h.listed, hn.listed]
  unused := by
    intro hl j
    rw [h.listed] at hl
    rcases h.debt j with he | he
    · rw [he, hn.unused hl j]
    · exact he
  generation := by
    rw [h.generation]
    exact hn.generation
  space := by rw [h.spaceOffer, hn.space]
  top := h.top st hn.top

/-- No thread moves on to a transaction whose generation has been seen before. -/
structure Keeps (m m' : Shared Thr Sto) : Prop where
  seen : ∀ {n v}, Seen m n v → Seen m' n v
  control : ∀ n v, Seen m n v → m'.control n = v → m.control n = v ∧
    m'.activeAddr n = m.activeAddr n ∧ m'.publishedAt n = m.publishedAt n ∧
    m'.spaceOffer n = m.spaceOffer n
  calls : ∀ c ∈ m.calls, c ∈ m'.calls

theorem Keeps.observed (h : Keeps m m') (hs : Observed m n v) : Observed m' n v := by
  rcases hs with hs | hs | hs
  · exact .inl hs
  · exact .inr (.inl hs)
  · exact .inr (.inr (h.seen hs))

theorem Keeps.helpable (h : Keeps m m') (hs : Seen m n v) (hh : Helpable m n S v since) :
    Helpable m' n S v since := by
  intro hc
  obtain ⟨hv, ha, ht, _⟩ := h.control n v hs hc
  rw [ha, ht]
  exact hh hv

theorem Keeps.engaged (h : Keeps m m') (he : Engaged m n S v since r) :
    Engaged m' n S v since r := by
  obtain ⟨till, e, hl⟩ := he.loaded
  exact ⟨h.seen he.seen, h.helpable he.seen he.helpable, till, e, h.calls _ hl⟩

theorem Keeps.theirs (h : Keeps m m') (hs : Seen m n v) (ht : Theirs m n v their) :
    Theirs m' n v their := by
  refine ⟨?_, ht.2⟩
  intro hc
  obtain ⟨hv, _, _, he⟩ := h.control n v hs hc
  rw [he]
  exact ht.1 hv

theorem Keeps.helpPc (h : Keeps m m') (pc : HelpPc) (hi : pc.Inv m n S) : pc.Inv m' n S := by
  cases pc with
  | load => trivial
  | offer => exact hi
  | addr v => exact h.seen hi
  | recheck v =>
    refine ⟨h.seen hi.1, ?_⟩
    intro hc
    obtain ⟨hv, ha, _⟩ := h.control n v hi.1 hc
    rw [ha]
    exact hi.2 hv
  | await v since => exact ⟨h.seen hi.1, h.helpable hi.1 hi.2⟩
  | theirSpace v since r => exact h.engaged hi
  | mySpace v since r their => exact ⟨h.engaged hi.1, h.theirs hi.1.seen hi.2⟩
  | write v since r their mine =>
    exact ⟨h.engaged hi.1, h.theirs hi.1.seen hi.2.1, hi.2.2⟩
  | exchange v since r their mine =>
    exact ⟨h.engaged hi.1, h.theirs hi.1.seen hi.2.1, hi.2.2⟩
  | drop v r => exact h.observed hi

theorem Keeps.help (h : Keeps m m') {f : Frame Thr Sto} (hf : f.HelpInv m) : f.HelpInv m' := by
  cases f with
  | payAll ptr S pc =>
    cases pc with
    | help n todo hp => exact h.helpPc hp hf
    | _ => trivial
  | _ => trivial

/-- A step that leaves the transactions alone: at most it pays debts and changes counts,
storages and user data. -/
structure Quiet (m m' : Shared Thr Sto) : Prop where
  control : m'.control = m.control
  offered : m'.offered = m.offered
  activeAddr : m'.activeAddr = m.activeAddr
  generation : m'.generation = m.generation
  published : m'.published = m.published
  publishedAt : m'.publishedAt = m.publishedAt
  spaceOffer : m'.spaceOffer = m.spaceOffer
  handover : m'.handover = m.handover
  sent : m'.sent = m.sent
  received : m'.received = m.received
  localNode : m'.localNode = m.localNode
  listHead : m'.listHead = m.listHead
  clock : m.clock ≤ m'.clock
  log : ∀ S, (m.log S).length ≤ (m'.log S).length
  calls : ∀ c ∈ m.calls, c ∈ m'.calls
  debt : ∀ d, m'.debt d = m.debt d ∨ m'.debt d = debtNone

theorem Quiet.refl (m : Shared Thr Sto) : Quiet m m :=
  ⟨rfl, rfl, rfl, rfl, rfl, rfl, rfl, rfl, rfl, rfl, rfl, rfl, Nat.le_refl _,
    fun _ => Nat.le_refl _, fun _ hc => hc, fun _ => .inl rfl⟩

theorem Quiet.undisturbed (h : Quiet m m') (t : Thr) : Undisturbed t m m' where
  control := .inl ⟨congrFun h.control t, congrFun h.offered t⟩
  debt j := h.debt (t, j)
  activeAddr := congrFun h.activeAddr t
  generation := congrFun h.generation t
  published := congrFun h.published t
  publishedAt := congrFun h.publishedAt t
  spaceOffer := congrFun h.spaceOffer t
  localNode := congrFun h.localNode t
  listed := by rw [h.listHead]
  clock := h.clock
  log := h.log

theorem Seen.congr (hs : Seen m n v) (hp : m'.published n = m.published n) : Seen m' n v :=
  ⟨hs.1, hp ▸ hs.2⟩

theorem Quiet.keeps (h : Quiet m m') : Keeps m m' where
  seen hs := hs.congr (congrFun h.published _)
  control n v _ hc := by
    rw [h.control] at hc
    rw [h.activeAddr, h.publishedAt, h.spaceOffer]
    exact ⟨hc, rfl, rfl, rfl⟩
  calls := h.calls

/-- A step that changes only the node of `t` itself. -/
structure Own (t : Thr) (m m' : Shared Thr Sto) : Prop where
  control : ∀ n, n ≠ t → m'.control n = m.control n
  offered : ∀ n, n ≠ t → m'.offered n = m.offered n
  debt : ∀ n j, n ≠ t → m'.debt (n, j) = m.debt (n, j)
  activeAddr : ∀ n, n ≠ t → m'.activeAddr n = m.activeAddr n
  generation : ∀ n, n ≠ t → m'.generation n = m.generation n
  published : ∀ n, n ≠ t → m'.published n = m.published n
  publishedAt : ∀ n, n ≠ t → m'.publishedAt n = m.publishedAt n
  spaceOffer : ∀ n, n ≠ t → m'.spaceOffer n = m.spaceOffer n
  localNode : ∀ n, n ≠ t → m'.localNode n = m.localNode n
  listHead : m'.listHead = m.listHead
  clock : m.clock ≤ m'.clock
  log : m'.log = m.log
  calls : m'.calls = m.calls

theorem Own.undisturbed (h : Own t m m') (n : Thr) (hne : n ≠ t) : Undisturbed n m m' where
  control := .inl ⟨h.control n hne, h.offered n hne⟩
  debt j := .inl (h.debt n j hne)
  activeAddr := h.activeAddr n hne
  generation := h.generation n hne
  published := h.published n hne
  publishedAt := h.publishedAt n hne
  spaceOffer := h.spaceOffer n hne
  localNode := h.localNode n hne
  listed := by rw [h.listHead]
  clock := h.clock
  log S := by rw [h.log]

theorem Own.keeps (h : Own t m m') (hp : ∀ {v}, Seen m t v → Seen m' t v)
    (hc : ∀ v, Seen m t v → m'.control t = v → m.control t = v ∧
      m'.activeAddr t = m.activeAddr t ∧ m'.publishedAt t = m.publishedAt t ∧
      m'.spaceOffer t = m.spaceOffer t) : Keeps m m' where
  seen {n v} hs := by
    by_cases hn : n = t
    · subst hn
      exact hp hs
    · exact hs.congr (h.published n hn)
  control n v hv hv' := by
    by_cases hn : n = t
    · subst hn
      exact hc v hv hv'
    · rw [h.control n hn] at hv'
      exact ⟨hv', h.activeAddr n hn, h.publishedAt n hn, h.spaceOffer n hn⟩
  calls c hc := by rwa [h.calls]

theorem Seen.ne_idle (hs : Seen m n v) (hc : w = idle) (he : w = v) : False := by
  rw [hc] at he
  subst he
  cases hs.1

theorem Quiet.inc (m : Shared Thr Sto) (a : Nat) : Quiet m (m.inc a) := by
  rw [Shared.inc]
  split
  · exact .refl m
  · exact { Quiet.refl m with }

theorem Quiet.dec (m : Shared Thr Sto) (a : Nat) : Quiet m (m.dec a) := by
  rw [Shared.dec]
  split
  · exact .refl m
  · exact { Quiet.refl m with }

theorem Quiet.tick (m : Shared Thr Sto) : Quiet m m.tick :=
  { Quiet.refl m with clock := Nat.le_succ _ }

theorem Quiet.setStorage [DecidableEq Sto] (m : Shared Thr Sto) (op : Nat) (S : Sto)
    (new : Option Nat) : Quiet m (m.setStorage op S new) where
  __ := Quiet.refl m
  log S' := by
    rw [Shared.setStorage]
    by_cases h : S' = S
    · subst h
      simp
    · simp [h]

/-- What a step of the innermost activation of `t` keeps. -/
structure StepOk (w : Nat) (t : Thr) (m m' : Shared Thr Sto) (pre rest : List (Frame Thr Sto)) :
    Prop where
  others : ∀ n, n ≠ t → Undisturbed n m m'
  keeps : Keeps m m'
  node : NodeOk w m' t (pre ++ rest)
  help : ∀ f ∈ pre, f.HelpInv m'

theorem NodeOk.replace (hn : NodeOk w m t (f :: rest)) (hq : Undisturbed t m m')
    (htop : NodeTop m' t (pre ++ rest)) (hp : ∀ f' ∈ (pre ++ rest).tail, f'.Parked)
    (he : ∀ f' ∈ pre, f'.Entered → Owns m t) : NodeOk w m' t (pre ++ rest) := by
  have h := hn.undisturbed hq
  refine { h with parked := hp, entered := ?_, top := htop }
  intro f' hf' he'
  rw [hq.owns]
  rcases List.mem_append.1 hf' with hf' | hf'
  · exact he f' hf' he'
  · exact hn.entered f' (List.mem_cons_of_mem _ hf') he'

theorem StepOk.goto (hn : NodeOk w m t (f :: rest)) (hq : Quiet m m')
    (htop : NodeTop m' t (f' :: rest)) (he : f'.Entered → Owns m t)
    (hh : f'.HelpInv m') : StepOk w t m m' [f'] rest where
  others n _ := hq.undisturbed n
  keeps := hq.keeps
  node := by
    apply hn.replace (hq.undisturbed t) htop hn.parked
    intro g hg
    rw [List.mem_singleton.1 hg]
    exact he
  help g hg := by
    rw [List.mem_singleton.1 hg]
    exact hh

theorem StepOk.call (hn : NodeOk w m t (f :: rest)) (hq : Quiet m m')
    (htop : NodeTop m' t (g :: f' :: rest)) (hp : f'.Parked)
    (he : f'.Entered ∨ g.Entered → Owns m t)
    (hh : f'.HelpInv m') (hg : g.HelpInv m') : StepOk w t m m' [g, f'] rest where
  others n _ := hq.undisturbed n
  keeps := hq.keeps
  node := by
    apply hn.replace (hq.undisturbed t) htop
    · intro f'' hf''
      rcases List.mem_cons.1 hf'' with rfl | hf''
      · exact hp
      · exact hn.parked f'' hf''
    · intro f'' hf'' he'
      rcases List.mem_cons.1 hf'' with rfl | hf''
      · exact he (.inr he')
      · rw [List.mem_singleton.1 hf''] at he'
        exact he (.inl he')
  help f'' hf'' := by
    rcases List.mem_cons.1 hf'' with rfl | hf''
    · exact hg
    · rw [List.mem_singleton.1 hf'']
      exact hh

theorem StepOk.release (f' : Frame Thr Sto) (hn : NodeOk w m t (f :: rest)) (hi : Idle m t)
    (hd : HelpingHolds m t debtNone) (htop : NodeTop m t (f' :: rest)) (hp : f'.Parked)
    (he : f'.Entered → Owns m t) (hh : f'.HelpInv m)
    (hs : release m a f' = (m', pre)) : StepOk w t m m' pre rest := by
  have hq := Quiet.dec m a
  obtain ⟨rfl, rfl⟩ := Prod.mk.inj hs
  split
  · apply StepOk.call (g := .user) hn hq ⟨(hq.undisturbed t).idle hi, (hq.undisturbed t).holds hd⟩ hp ?_
      (hq.keeps.help hh) trivial
    rintro (h | h)
    · exact he h
    · cases h
  · exact StepOk.goto hn hq ((hq.undisturbed t).top _ htop) he (hq.keeps.help hh)

theorem StepOk.own {f' : Frame Thr Sto} (hn : NodeOk w m t (f :: rest)) (h : Own t m m')
    (hl : Owns m t) (hl' : Owns m' t) (hk : Keeps m m') (hg : m'.generation t % 4 = 0 ∧ m'.generation t < 2 ^ w)
    (hs : m'.spaceOffer t % 4 = 0) (htop : NodeTop m' t (f' :: rest)) (hh : f'.HelpInv m') :
    StepOk w t m m' [f'] rest where
  others := h.undisturbed
  keeps := hk
  node := by
    have ht : t ∈ m'.listHead := by
      rw [h.listHead]
      exact hn.listed.1 hl
    exact ⟨hn.parked, fun _ _ _ => hl', ⟨fun _ => ht, fun _ => hl'⟩, fun hf => absurd ht hf, hg, hs,
      htop⟩
  help g hg := by
    rw [List.mem_singleton.1 hg]
    exact hh

variable [DecidableEq Thr]

theorem Quiet.pay (m : Shared Thr Sto) (d : Debt Thr) : Quiet m (m.setDebt d debtNone) where
  __ := Quiet.refl m
  debt d' := by
    rw [Shared.setDebt]
    by_cases h : d' = d
    · subst h
      exact .inr (Function.update_self ..)
    · exact .inl (Function.update_of_ne h ..)

theorem Quiet.writers (m : Shared Thr Sto) (n : Thr) (k : Nat) :
    Quiet m { m with activeWriters := Function.update m.activeWriters n k } :=
  { Quiet.refl m with }

end ArcSwap
