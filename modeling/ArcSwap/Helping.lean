import ArcSwap.Envelopes
import ArcSwap.Schedule

namespace ArcSwap
set_option autoImplicit true

variable {Thr Sto : Type} {m m' : Shared Thr Sto}

/-- The transaction a load has in progress. -/
def LoadPc.transaction : LoadPc Thr → Option Nat
  | .candidate g | .setSlot g _ | .setIdle g _ => some g
  | _ => none

theorem NodeOk.transaction (hn : NodeOk w m t st) (ho : Open m t S g) (hp : m.published t ≠ 2) :
    ∃ since full pc rest, st = .load S since full pc :: rest ∧ pc.transaction = some g := by
  have hctl : m.control t ≠ idle := by
    intro hc
    obtain ⟨_, _, hg, h | h, _⟩ := ho
    · rw [← h.1, hc] at hg
      cases hg
    · rw [hc] at h
      cases h.1
  have ht := hn.top
  cases st with
  | nil => exact absurd ht.1.control hctl
  | cons f rest =>
    cases f with
    | load S' since full pc =>
      have found : ∀ {g'}, Open m t S' g' → S' = S ∧ g' = g := by
        intro g' ho'
        exact ⟨Option.some.inj (ho'.1.symm.trans ho.1), ho'.2.1.symm.trans ho.2.1⟩
      cases pc with
      | candidate g' =>
        obtain ⟨rfl, rfl⟩ := found ht.1
        exact ⟨_, _, _, _, rfl, rfl⟩
      | setSlot g' c =>
        obtain ⟨rfl, rfl⟩ := found ht.1
        exact ⟨_, _, _, _, rfl, rfl⟩
      | setIdle g' c =>
        obtain ⟨rfl, rfl⟩ := found ht.1
        exact ⟨_, _, _, _, rfl, rfl⟩
      | setControl => exact absurd ht.1.1 hctl
      | reserve => exact absurd (ht.2.2 ▸ ht.1.2.1) hp
      | cooldown => exact absurd (ht.2.2 ▸ ht.1.2.1) hp
      | release => exact absurd (ht.2.2 ▸ ht.1.2.1) hp
      | _ => exact absurd ht.1.control hctl
    | panic =>
      obtain ⟨S', ho'⟩ := ht
      exact absurd ho'.2.1 hp
    | _ => exact absurd ht.1.control hctl

/-- The last read of a control before a writer leaves `help` without having helped. -/
def HelpPc.Leaves (n : Thr) (todo : List Thr) : HelpPc → PayPc Thr → Prop
  | .load, pc | .recheck _, pc => pc = .slot n todo 0
  | .exchange _ _ _ _ _, pc => ∃ v r, pc = .help n todo (.drop v r) ∧ tagOf v ≠ genTag
  | _, _ => False

variable [DecidableEq Thr]

theorem SpaceStep.published {f : Frame Thr Sto} (hs : SpaceStep t m f m' pre) :
    m'.published = m.published ∨ ∃ S since full g b, f = .load S since full (.setControl g b) ∧
      m'.published = Function.update m.published t g := by
  cases hs with
  | other hq => exact .inl hq.published
  | publish => exact .inr ⟨_, _, _, _, _, rfl, rfl⟩
  | _ => exact .inl rfl

variable [DecidableEq Sto]

theorem HelpPc.Leaves.control {h : HelpPc} {pc : PayPc Thr} (hl : h.Leaves n todo pc)
    (hi : h.Inv m n S)
    (hs : helpStep t m S (.payAll ptr S) n todo h = some (m', [.payAll ptr S pc])) :
    m.control n % 4 = 2 → m.activeAddr n ≠ some S := by
  intro hc
  cases h with
  | load =>
    cases hl
    simp only [helpStep, Option.some.injEq, Prod.mk.injEq, List.cons.injEq, and_true] at hs
    obtain ⟨_, hs⟩ := hs
    split at hs
    · cases hn : helpNext n todo (m.control n) with
      | none =>
        rw [hn] at hs
        cases hs
      | some pc =>
        rw [hn] at hs
        cases hs
        exact absurd hc (helpNext_slot hn)
    · cases hs
  | recheck v =>
    cases hl
    simp only [helpStep, Option.some.injEq, Prod.mk.injEq, List.cons.injEq, and_true] at hs
    obtain ⟨_, hs⟩ := hs
    split at hs
    · rename_i he
      exact hi.2 he
    · cases hn : helpNext n todo (m.control n) with
      | none =>
        rw [hn] at hs
        cases hs
      | some pc =>
        rw [hn] at hs
        cases hs
        exact absurd hc (helpNext_slot hn)
  | exchange v since r their mine =>
    obtain ⟨v', r', rfl, hv⟩ := hl
    simp only [helpStep] at hs
    split at hs
    · cases hs
    · cases hs
      rw [tagOf_eq] at hv
      exact absurd hc hv
  | _ => exact hl.elim

variable {cfg : Config Thr Sto} {σ σ' σ'' : State Thr Sto}

/-- The steps that publish no generation of a counter that has wrapped. -/
def NoWrap (l : Thr × Action Thr Sto) (σ : State Thr Sto) : Prop :=
  ∀ S since full g rest, σ.stack l.1 ≠ .load S since full (.setControl g true) :: rest

def noWrap (l : Thr × Action Thr Sto) (σ : State Thr Sto) : Bool :=
  match σ.stack l.1 with
  | .load _ _ _ (.setControl _ discard) :: _ => !discard
  | _ => true

variable [Fintype Thr]

instance (l : Thr × Action Thr Sto) (σ : State Thr Sto) : Decidable (NoWrap l σ) :=
  decidable_of_iff (noWrap l σ = true) (by
    rw [noWrap, NoWrap]
    split
    · rename_i S since full g discard rest hst
      rw [hst]
      cases discard
      · exact ⟨fun _ _ _ _ _ _ he => (by cases he), fun _ => rfl⟩
      · exact ⟨fun h => (by cases h), fun h => absurd rfl (h S since full g rest)⟩
    · rename_i hst
      exact ⟨fun _ _ _ _ _ _ he => (hst _ _ _ _ _ _ he).elim, fun _ => rfl⟩)

theorem published_ne_two (hr : (machine cfg).Reach NoWrap σ) (t : Thr) :
    σ.mem.published t ≠ 2 := by
  refine hr.invariant_of (P := fun σ => ∀ t, σ.mem.published t ≠ 2)
    (fun _ hr => Protocol.reach hr) ?_ ?_ t
  · rintro _ rfl
    exact fun _ => by simp [State.initial]
  · intro l σ σ' hP hp ha hs t
    obtain ⟨m', st', ht, rfl⟩ := State.step_cases hs
    rcases threadStep_space (hP.node l.1) ht with ⟨f, rest, pre, hst, hf, rfl⟩ | ⟨hm, _⟩
    · rcases hf.published with he | ⟨S, since, full, g, b, rfl, he⟩
      · rw [he]
        exact hp t
      · have hb : b = false := by
          cases b with
          | false => rfl
          | true => exact absurd hst (ha S since full g rest)
        have htop := (hP.node l.1).top
        rw [hst] at htop
        obtain ⟨_, _, _, _, _, _, hd⟩ := htop
        rw [he]
        by_cases hn : t = l.1
        · subst hn
          rw [Function.update_self]
          rintro rfl
          rw [hb] at hd
          cases hd
        · rw [Function.update_of_ne hn]
          exact hp t
    · rw [hm.published]
      exact hp t

/-- A generation that a node has left or been helped with never comes back. -/
theorem control_ne_of_seen (hr : (machine cfg).Reach ok σ)
    (hrun : (machine cfg).Run ok σ σ') (hs : Seen σ.mem n g)
    (hc : σ.mem.control n ≠ g) : σ'.mem.control n ≠ g := by
  refine (hrun.keeps (P := fun s => Seen s.mem n g ∧ s.mem.control n ≠ g) hr ⟨hs, hc⟩ ?_).2
  intro l σ₁ σ₂ hr₁ hp _ hs
  have hk := State.step_keeps hr₁ hs
  exact ⟨hk.seen hp.1, fun h => hp.2 (hk.control n g hp.1 h).1⟩

/-- A helper that succeeds helps the transaction it has observed, with a pointer loaded from the
storage of that transaction after its generation was published. -/
theorem help_succeeds (hr : (machine cfg).Reach NoWrap σ)
    (hst : σ.stack t = .payAll ptr S (.help n todo (.exchange v since r their mine)) :: rest)
    (hc : σ.mem.control n = v) :
    (∃ since' full pc rest', σ.stack n = .load S since' full pc :: rest' ∧
        pc.transaction = some v) ∧
      σ.mem.published n = v ∧ σ.mem.activeAddr n = some S ∧
      (∃ till e, .load S since till (r, e) ∈ σ.mem.calls) ∧ (σ.mem.publishedAt n).time < since.time := by
  have hP := Protocol.reach hr
  obtain ⟨⟨hseen, hhelp, hloaded⟩, _⟩ :=
    show HelpPc.Inv σ.mem n S (.exchange v since r their mine) from
      hP.help t (.payAll ptr S (.help n todo (.exchange v since r their mine))) (by simp [hst])
  obtain ⟨ha, htime, _⟩ := hhelp hc
  obtain ⟨S', ho⟩ := (hP.node n).watched.opened (hc ▸ hseen.1)
  obtain rfl := Option.some.inj (ha.symm.trans ho.1)
  rw [hc] at ho
  exact ⟨(hP.node n).transaction ho (published_ne_two hr n), ho.2.1, ha, hloaded, htime⟩

/-- A writer that leaves without having helped leaves no transaction on its storage behind that
goes on to confirm its candidate unhelped. -/
theorem help_leaves (hr : (machine cfg).Reach ok σ)
    (hst : σ.stack t = .payAll ptr S (.help n todo h) :: rest)
    (hs : (machine cfg).step (t, .run sp) σ = some σ')
    (hst' : σ'.stack t = .payAll ptr S pc :: rest) (hl : h.Leaves n todo pc)
    (ho : Open σ.mem n S g) (hok : ok (t, .run sp) σ) (hrun : (machine cfg).Run ok σ' σ'') :
    σ.mem.control n ≠ g ∧ σ''.mem.control n ≠ g := by
  have hi : h.Inv σ.mem n S :=
    (Protocol.reach hr).help t (.payAll ptr S (.help n todo h)) (by simp [hst])
  have hk := State.step_keeps hr hs
  have hne : σ.mem.control n ≠ g := by
    rintro rfl
    obtain ⟨m', st', ht, rfl⟩ := State.step_cases hs
    simp only [threadStep, hst, Option.map_eq_some_iff] at ht
    obtain ⟨⟨m₁, pre⟩, hf, he⟩ := ht
    cases he
    simp only [Function.update_self] at hst'
    obtain rfl : pre = [.payAll ptr S pc] :=
      List.append_cancel_right (hst'.trans (List.singleton_append).symm)
    exact hl.control hi hf ho.2.2.1 ho.1
  refine ⟨hne, control_ne_of_seen (hr.step hok hs) hrun (hk.seen ho.seen) ?_⟩
  exact fun h => hne (hk.control n g ho.seen h).1

/-- A helper that succeeds has found the reader in the transaction it has observed, on the storage
of the helper, and brings a pointer loaded from it since that transaction was published. A writer
that leaves without having helped leaves no transaction on its storage behind that is still to be
confirmed unhelped. -/
theorem help_serves_transaction (hr : (machine cfg).Reach NoWrap σ)
    (hst : σ.stack t = .payAll ptr S (.help n todo h) :: rest)
    (hs : (machine cfg).step (t, .run sp) σ = some σ') :
    (∀ v since r their mine, h = .exchange v since r their mine → σ.mem.control n = v →
      (∃ since' full pc rest', σ.stack n = .load S since' full pc :: rest' ∧
        pc.transaction = some v) ∧
      σ.mem.published n = v ∧ σ.mem.activeAddr n = some S ∧
      (∃ till e, .load S since till (r, e) ∈ σ.mem.calls) ∧ (σ.mem.publishedAt n).time < since.time) ∧
    ∀ pc, σ'.stack t = .payAll ptr S pc :: rest → h.Leaves n todo pc → ∀ g, Open σ.mem n S g →
      σ.mem.control n ≠ g ∧ ∀ σ'', (machine cfg).Run NoWrap σ' σ'' → σ''.mem.control n ≠ g := by
  refine ⟨?_, ?_⟩
  · rintro v since r their mine rfl hc
    exact help_succeeds hr hst hc
  · intro pc hst' hl g ho
    have hok : NoWrap (t, .run sp) σ := by
      intro S' since full g' rest' he
      rw [hst] at he
      cases he
    have leaves : ∀ σ'', (machine cfg).Run NoWrap σ' σ'' →
        σ.mem.control n ≠ g ∧ σ''.mem.control n ≠ g :=
      fun _ => help_leaves hr hst hs hst' hl ho hok
    exact ⟨(leaves σ' .refl).1, fun σ'' hrun => (leaves σ'' hrun).2⟩

/-- A thread is about to exchange the control of another node that is still in the transaction. -/
def exchanging (σ : State Thr Sto) (t : Thr) (S : Sto) (n : Thr) : Bool :=
  match σ.stack t with
  | .payAll _ S' (.help n' _ (.exchange v _ _ _ _)) :: _ =>
    S' = S && n' = n && σ.mem.control n = v
  | _ => false

/-- A writer is about to help a load on its own storage. -/
theorem help_serves_transaction_store :
    ∃ σ, (machine (twoThreads false)).Reach NoWrap σ ∧ ∃ ptr todo v since r their mine rest,
      σ.stack 1 = .payAll ptr 0 (.help 0 todo (.exchange v since r their mine)) :: rest ∧
      σ.mem.control 0 = v ∧ σ.mem.published 0 = v ∧ σ.mem.activeAddr 0 = some 0 ∧
      (σ.mem.publishedAt 0).time < since.time := by
  obtain ⟨σ, hr, hp⟩ := reach_after NoWrap false
    (prepared ++ [order 0 (.load 0)] ++ steps (twoThreads false) 0 3 ++ [order 1 (.store 0 24)] ++
      steps (twoThreads false) 1 32)
    (fun σ => (State.step (twoThreads false) (1, .run false) σ).isSome && exchanging σ 1 0 0)
    (by decide +kernel)
  rw [Bool.and_eq_true, Option.isSome_iff_exists] at hp
  obtain ⟨⟨σ', hs⟩, hp⟩ := hp
  rw [exchanging] at hp
  split at hp
  · rename_i ptr S n todo v since r their mine rest hst
    simp only [Bool.and_eq_true, decide_eq_true_eq] at hp
    obtain ⟨⟨rfl, rfl⟩, hc⟩ := hp
    obtain ⟨_, hpub, haddr, _, htime⟩ :=
      (help_serves_transaction hr hst hs).1 v since r their mine rfl hc
    exact ⟨σ, hr, ptr, todo, v, since, r, their, mine, rest, hst, hc, hpub, haddr, htime⟩
  · cases hp

end ArcSwap
