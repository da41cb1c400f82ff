import ArcSwap.Helping
import ArcSwap.Writes

namespace ArcSwap
set_option autoImplicit true

variable {Thr Sto : Type}

/-- A step that leaves the registry and the published addresses alone. -/
structure SameNodes (m m' : Shared Thr Sto) : Prop where
  inUse : m'.inUse = m.inUse
  activeAddr : m'.activeAddr = m.activeAddr

theorem SameNodes.refl (m : Shared Thr Sto) : SameNodes m m := ⟨rfl, rfl⟩

theorem SameNodes.inc (m : Shared Thr Sto) (a : Nat) : SameNodes m (m.inc a) := by
  rw [Shared.inc]
  split <;> exact ⟨rfl, rfl⟩

theorem SameNodes.dec (m : Shared Thr Sto) (a : Nat) : SameNodes m (m.dec a) := by
  rw [Shared.dec]
  split <;> exact ⟨rfl, rfl⟩

/-- A writer that looks into a transaction is not looking into its own node. -/
def Frame.Elsewhere (t : Thr) : Frame Thr Sto → Prop
  | .payAll _ _ (.help _ _ .load) => True
  | .payAll _ _ (.help n _ _) => n ≠ t
  | _ => True

theorem elsewhere_one {f : Frame Thr Sto} (h : f.Elsewhere t) : ∀ g ∈ [f], g.Elsewhere t :=
  List.forall_mem_singleton.2 h

theorem elsewhere_two {f g : Frame Thr Sto} (hf : f.Elsewhere t) (hg : g.Elsewhere t) :
    ∀ x ∈ [f, g], x.Elsewhere t := by
  intro x hx
  rcases List.mem_cons.1 hx with rfl | hx
  · exact hf
  · exact List.mem_singleton.1 hx ▸ hg

theorem helpNext_elsewhere (ptr : Nat) (S : Sto) (todo : List Thr)
    (h : tagOf v = genTag → n ≠ t) :
    Frame.Elsewhere t ((helpNext n todo v).elim .panic (Frame.payAll ptr S)) := by
  rw [helpNext]
  split
  · split <;> trivial
  · trivial
  · rename_i hv
    exact h hv
  · trivial

variable [DecidableEq Thr]

/-- The steps of loads that write to the registry or publish an address. -/
inductive LoadNodes (cfg : Config Thr Sto) (t : Thr) (m : Shared Thr Sto) (S : Sto) :
    LoadPc Thr → Shared Thr Sto → Prop
  | same (h : SameNodes m m') : LoadNodes cfg t m S pc m'
  | publish (hu : m'.inUse = m.inUse)
    (ha : m'.activeAddr = Function.update m.activeAddr t (some S)) :
    LoadNodes cfg t m S .setAddr m'
  | cooldown (hu : m'.inUse = Function.update m.inUse t nodeCooldown)
    (ha : m'.activeAddr = m.activeAddr) :
    LoadNodes cfg t m S (.cooldown g) m'

variable {m m' : Shared Thr Sto} {st st' pre rest : List (Frame Thr Sto)}

theorem Shared.give_nodes (m : Shared Thr Sto) (v : Ret Thr) : SameNodes m (m.give v) := by
  cases v <;> exact ⟨rfl, rfl⟩

section
omit [DecidableEq Thr]

theorem Frame.resume_elsewhere {g g' : Frame Thr Sto} (h : g.Elsewhere t)
    (hg : g.resume m v = some g') : g'.Elsewhere t := by
  rw [Frame.resume.eq_def] at hg
  split at hg
  · cases hg
    exact h
  all_goals cases hg <;> trivial

theorem UserMove.elsewhere (h : UserMove m m' st st') (hst : ∀ f ∈ st, f.Elsewhere t) :
    ∀ f ∈ st', f.Elsewhere t := by
  have entry : ∀ {f : Frame Thr Sto}, f.Entry m m' → f.Elsewhere t := by
    intro f hf
    cases f with
    | payAll ptr S pc => cases pc <;> trivial
    | _ => trivial
  have outer : ∀ {f : Frame Thr Sto}, f.Outer m m' → f.Elsewhere t := by
    intro f hf
    cases f <;> trivial
  cases h with
  | stay => exact hst
  | enter hf => exact List.forall_mem_cons.2 ⟨entry hf, hst⟩
  | call hf hg =>
    exact List.forall_mem_cons.2 ⟨entry hf, List.forall_mem_cons.2 ⟨outer hg, hst⟩⟩
  | closure =>
    refine List.forall_mem_cons.2 ⟨trivial, List.forall_mem_cons.2 ⟨trivial, ?_⟩⟩
    exact (List.forall_mem_cons.1 hst).2
  | ret => exact (List.forall_mem_cons.1 hst).2

theorem HelpingHolds.empty (h : HelpingHolds m t debtNone) :
    m.debt (helpingSlot t) = debtNone :=
  h.elim id id

theorem Observed.cases (h : Observed m n v) :
    v = idle ∨ tagOf v = genTag ∨ tagOf v = replacementTag := by
  rcases h with h | h | h
  · exact .inl h
  · exact .inr (.inr ((tagOf_eq v).trans h))
  · exact .inr (.inl ((tagOf_eq v).trans h.1))

end

theorem loadStep_nodes (cfg : Config Thr Sto) (t : Thr) (k : LoadPc Thr → Frame Thr Sto)
    (hs : loadStep cfg t m S k pc = some (m', pre)) : LoadNodes cfg t m S pc m' := by
  cases pc with
  | setAddr =>
    simp only [loadStep] at hs
    split at hs <;> cases hs
    · exact .publish rfl rfl
    · exact .same (.refl m)
  | cooldown g =>
    cases hs
    exact .cooldown rfl rfl
  | first | confirm | candidate =>
    simp only [loadStep, Option.map_eq_some_iff] at hs
    obtain ⟨_, _, he⟩ := hs
    cases he
    exact .same (.refl m)
  | enter | repay | pay | repayUnused =>
    simp only [loadStep] at hs
    split at hs <;> cases hs <;> exact .same ⟨rfl, rfl⟩
  | inc c =>
    cases hs
    exact .same (.inc m c)
  | dec c =>
    cases hs
    exact .same (.dec m c)
  | decUnused c =>
    cases hs
    exact .same (.dec m c)
  | done => cases hs
  | _ =>
    cases hs
    exact .same ⟨rfl, rfl⟩

theorem retStep_nodes (hs : retStep m st = some (m', st')) : SameNodes m m' := by
  obtain ⟨f, v, rest, _, _, ⟨rfl, _⟩ | ⟨_, _, _, _, _, rfl, _⟩⟩ := retStep_cases hs
  · have hg := (m.record f).give_nodes v
    exact ⟨hg.inUse, hg.activeAddr⟩
  · rw [Shared.recordFor_eq]
    exact ⟨rfl, rfl⟩

section
omit [DecidableEq Thr]

theorem release_elsewhere {f : Frame Thr Sto} (hf : f.Elsewhere t)
    (hs : release m a f = (m', pre)) : ∀ g ∈ pre, g.Elsewhere t := by
  cases hs
  split
  · exact elsewhere_two trivial hf
  · exact elsewhere_one hf

end

theorem loadStep_elsewhere (cfg : Config Thr Sto) (t : Thr)
    (hs : loadStep cfg t m S (.load S since full) pc = some (m', pre)) :
    ∀ g ∈ pre, g.Elsewhere t := by
  cases pc with
  | first | confirm | candidate =>
    simp only [loadStep, Option.map_eq_some_iff] at hs
    obtain ⟨_, _, he⟩ := hs
    cases he
    apply elsewhere_one
    split <;> trivial
  | enter | repay | setAddr | pay | repayUnused =>
    simp only [loadStep] at hs
    split at hs <;> cases hs <;> exact elsewhere_one trivial
  | cooldown =>
    cases hs
    apply elsewhere_one
    split <;> trivial
  | dec c =>
    apply release_elsewhere (f := .load S since full (.done ⟨none, c⟩)) trivial
    exact Option.some.inj hs
  | decUnused c r =>
    apply release_elsewhere (f := .load S since full (.done ⟨none, r⟩)) trivial
    exact Option.some.inj hs
  | done => cases hs
  | _ =>
    cases hs
    exact elsewhere_one trivial

variable [DecidableEq Sto]

theorem payStep_nodes (t : Thr) (k : PayPc Thr → Frame Thr Sto)
    (hs : payStep t m ptr S k pc = some (m', pre)) : SameNodes m m' := by
  cases pc with
  | help n todo h =>
    cases h with
    | addr | exchange =>
      simp only [payStep, helpStep] at hs
      split at hs <;> cases hs <;> exact ⟨rfl, rfl⟩
    | await => cases hs
    | drop v r =>
      cases hs
      exact .dec m r
    | _ =>
      cases hs
      exact ⟨rfl, rfl⟩
  | start =>
    simp only [payStep] at hs
    split at hs <;> cases hs
    exact .inc m ptr
  | slot =>
    simp only [payStep] at hs
    split at hs <;> cases hs <;> exact ⟨rfl, rfl⟩
  | next todo => cases todo <;> cases hs <;> exact ⟨rfl, rfl⟩
  | inc =>
    cases hs
    exact .inc m ptr
  | dec =>
    cases hs
    exact .dec m ptr
  | done => cases hs
  | _ =>
    cases hs
    exact ⟨rfl, rfl⟩

theorem Frame.step_nodes (cfg : Config Thr Sto) (t : Thr) {f : Frame Thr Sto}
    (hs : f.step cfg t m sp = some (m', pre)) :
    SameNodes m m' ∨ ∃ S since full pc, f = .load S since full pc ∧ LoadNodes cfg t m S pc m' := by
  cases f with
  | user => cases hs
  | panic => cases hs
  | load S since full pc =>
    rcases Frame.step_load hs with ⟨g, _, _, rfl, _⟩ | hs
    · exact .inl (.refl _)
    · exact .inr ⟨S, since, full, pc, rfl, loadStep_nodes cfg t _ hs⟩
  | payAll ptr S pc => exact .inl (payStep_nodes t _ hs)
  | intoInner src g pc =>
    left
    cases pc with
    | start | pay =>
      simp only [Frame.step, innerStep] at hs
      split at hs <;> cases hs
      · exact ⟨rfl, rfl⟩
      · first | exact .refl m | exact .inc m g.ptr
    | dec =>
      cases hs
      exact .dec m g.ptr
    | done => cases hs
  | guardDrop g pc =>
    left
    cases pc with
    | start =>
      simp only [Frame.step, dropStep] at hs
      split at hs
      · cases hs
        exact .refl m
      · split at hs <;> cases hs <;> exact ⟨rfl, rfl⟩
    | dec =>
      cases hs
      exact .dec m g.ptr
    | done => cases hs
  | swap op S new pc =>
    left
    cases pc with
    | start =>
      simp only [Frame.step, swapStep, Option.map_eq_some_iff] at hs
      obtain ⟨old, _, he⟩ := hs
      cases he
      exact ⟨rfl, rfl⟩
    | _ => cases hs
  | discard pc =>
    left
    cases pc with
    | dec a =>
      cases hs
      exact .dec m a
    | _ => cases hs
  | cas op S current new dst pc =>
    left
    cases pc with
    | retry =>
      cases hs
      exact ⟨rfl, rfl⟩
    | exchange old =>
      simp only [Frame.step, casStep, Option.map_eq_some_iff] at hs
      obtain ⟨ptr, _, he⟩ := hs
      split at he <;> cases he <;> exact ⟨rfl, rfl⟩
    | dec old u =>
      cases hs
      exact .dec m old.ptr
    | dropNew old =>
      cases hs
      exact .dec m new
    | _ => cases hs
  | rcu op S pc =>
    left
    cases pc with
    | compare cur prev arg res =>
      simp only [Frame.step, rcuStep] at hs
      split at hs <;> cases hs <;> exact .refl m
    | release cur ret arg res =>
      cases hs
      exact .refl m
    | _ => cases hs

theorem userStep_nodes (hs : userStep m free st act = some (m', st')) : SameNodes m m' := by
  have taken : ∀ {m₁ : Shared Thr Sto} {a}, m.takeHandle a = some m₁ → SameNodes m m₁ := by
    intro m₁ a h
    rw [takeHandle_eq h]
    exact ⟨rfl, rfl⟩
  cases act with
  | alloc a =>
    simp only [userStep, Option.map_eq_some_iff] at hs
    obtain ⟨m₁, h₁, he⟩ := hs
    cases he
    rw [allocate_eq h₁]
    exact ⟨rfl, rfl⟩
  | clone | cloneGuard | cloneCur =>
    simp only [userStep] at hs
    split at hs <;> cases hs
    have hi := SameNodes.inc m
    exact ⟨(hi _).inUse, (hi _).activeAddr⟩
  | create =>
    simp only [userStep] at hs
    split at hs
    · simp only [Option.map_eq_some_iff] at hs
      obtain ⟨m₁, h₁, he⟩ := hs
      cases he
      have ht := taken h₁
      exact ⟨ht.inUse, ht.activeAddr⟩
    · cases hs
  | load | loadFull | rcu =>
    simp only [userStep, Option.map_eq_some_iff] at hs
    obtain ⟨_, _, he⟩ := hs
    cases he
    exact ⟨rfl, rfl⟩
  | dropHandle | guardFromInner =>
    simp only [userStep, Option.map_eq_some_iff] at hs
    obtain ⟨m₁, h₁, he⟩ := hs
    cases he
    have ht := taken h₁
    exact ⟨ht.inUse, ht.activeAddr⟩
  | swap | cas | store =>
    simp only [userStep, Option.bind_eq_some_iff, Option.map_eq_some_iff] at hs
    obtain ⟨_, _, m₁, h₁, he⟩ := hs
    cases he
    have ht := taken h₁
    exact ⟨ht.inUse, ht.activeAddr⟩
  | intoInner | dropStorage =>
    simp only [userStep] at hs
    split at hs
    · simp only [Option.map_eq_some_iff] at hs
      obtain ⟨_, _, he⟩ := hs
      cases he
      exact ⟨rfl, rfl⟩
    · cases hs
  | guardDrop | guardIntoInner =>
    simp only [userStep, Option.map_eq_some_iff] at hs
    obtain ⟨m₁, h₁, he⟩ := hs
    cases he
    rw [takeGuard_eq h₁]
    exact ⟨rfl, rfl⟩
  | closureRet =>
    simp only [userStep, closureStep] at hs
    split at hs
    · simp only [Option.map_eq_some_iff] at hs
      obtain ⟨m₁, h₁, he⟩ := hs
      cases he
      exact taken h₁
    · cases hs
  | userRet =>
    simp only [userStep] at hs
    split at hs <;> cases hs
    exact .refl m
  | run => cases hs
  | ret => cases hs
  | claim => cases hs

theorem payStep_elsewhere (hn : NodeOk w m t (.payAll ptr S pc :: rest))
    (h : (Frame.payAll ptr S pc).Elsewhere t)
    (hs : payStep t m ptr S (.payAll ptr S) pc = some (m', pre)) : ∀ g ∈ pre, g.Elsewhere t := by
  have slot : ∀ {n todo j}, Frame.Elsewhere t (.payAll ptr S (nextSlot n todo j)) := by
    intro n todo j
    rw [nextSlot]
    split <;> trivial
  cases pc with
  | help n todo pc =>
    cases pc with
    | load =>
      cases hs
      apply elsewhere_one
      split
      · apply helpNext_elsewhere
        rintro hv rfl
        rw [hn.top.1.control] at hv
        cases hv
      · trivial
    | addr v =>
      simp only [payStep, helpStep] at hs
      split at hs <;> cases hs
      · exact elsewhere_two trivial h
      · exact elsewhere_one h
    | recheck v =>
      cases hs
      apply elsewhere_one
      split
      · trivial
      · exact helpNext_elsewhere ptr S todo fun _ => h
    | await => cases hs
    | write v since r their mine =>
      cases hs
      apply elsewhere_one
      split
      · exact h
      · trivial
    | exchange v since r their mine =>
      simp only [payStep, helpStep] at hs
      split at hs <;> cases hs
      · exact elsewhere_one h
      · exact elsewhere_one h
    | offer their =>
      cases hs
      exact elsewhere_one trivial
    | drop v r =>
      apply release_elsewhere (helpNext_elsewhere ptr S todo fun _ => h)
      exact Option.some.inj hs
    | theirSpace | mySpace =>
      cases hs
      exact elsewhere_one h
  | start =>
    simp only [payStep] at hs
    split at hs <;> cases hs
    exact elsewhere_one trivial
  | next todo => cases todo <;> cases hs <;> exact elsewhere_one trivial
  | slot n todo j =>
    simp only [payStep] at hs
    split at hs <;> cases hs
    · exact elsewhere_one trivial
    · exact elsewhere_one slot
  | inc n todo j =>
    cases hs
    exact elsewhere_one slot
  | dec =>
    apply release_elsewhere (f := .payAll ptr S .done) trivial
    exact Option.some.inj hs
  | done => cases hs
  | _ =>
    cases hs
    exact elsewhere_one trivial

theorem Frame.step_elsewhere {f : Frame Thr Sto} (hn : NodeOk w m t (f :: rest))
    (h : f.Elsewhere t) (hs : f.step cfg t m sp = some (m', pre)) :
    ∀ g ∈ pre, g.Elsewhere t := by
  cases f with
  | user => cases hs
  | panic => cases hs
  | load S since full pc =>
    rcases Frame.step_load hs with ⟨g, _, _, _, rfl⟩ | hs
    · exact elsewhere_one trivial
    · exact loadStep_elsewhere cfg t hs
  | payAll ptr S pc => exact payStep_elsewhere hn h hs
  | intoInner src g pc =>
    cases pc with
    | start | pay =>
      simp only [Frame.step, innerStep] at hs
      split at hs <;> cases hs <;> exact elsewhere_one trivial
    | dec =>
      apply release_elsewhere (f := .intoInner src g .done) trivial
      exact Option.some.inj hs
    | done => cases hs
  | guardDrop g pc =>
    cases pc with
    | start =>
      simp only [Frame.step, dropStep] at hs
      split at hs
      · cases hs
        exact elsewhere_one trivial
      · split at hs <;> cases hs <;> exact elsewhere_one trivial
    | dec =>
      apply release_elsewhere (f := .guardDrop g .done) trivial
      exact Option.some.inj hs
    | done => cases hs
  | swap op S new pc =>
    cases pc with
    | start =>
      simp only [Frame.step, swapStep, Option.map_eq_some_iff] at hs
      obtain ⟨old, _, he⟩ := hs
      cases he
      exact elsewhere_two trivial trivial
    | _ => cases hs
  | discard pc =>
    cases pc with
    | dec a =>
      apply release_elsewhere (f := .discard .done) trivial
      exact Option.some.inj hs
    | _ => cases hs
  | cas op S current new dst pc =>
    cases pc with
    | retry =>
      cases hs
      exact elsewhere_two trivial trivial
    | exchange old =>
      simp only [Frame.step, casStep, Option.map_eq_some_iff] at hs
      obtain ⟨ptr, _, he⟩ := hs
      split at he <;> cases he <;> exact elsewhere_two trivial trivial
    | dec old u =>
      apply release_elsewhere (f := .cas op S current new dst (.done old (some u))) trivial
      exact Option.some.inj hs
    | dropNew old =>
      apply release_elsewhere (f := .cas op S current new dst (.done old none)) trivial
      exact Option.some.inj hs
    | _ => cases hs
  | rcu op S pc =>
    cases pc with
    | compare cur prev arg res =>
      simp only [Frame.step, rcuStep] at hs
      split at hs <;> cases hs <;> exact elsewhere_two trivial trivial
    | release cur ret arg res =>
      cases hs
      exact elsewhere_two trivial trivial
    | _ => cases hs

theorem threadStep_elsewhere (hn : NodeOk w m t st) (h : ∀ f ∈ st, f.Elsewhere t)
    (hs : threadStep cfg t m free st act = some (m', st')) : ∀ f ∈ st', f.Elsewhere t := by
  rcases threadStep_cases hs with ⟨sp, f, rest, pre, _, rfl, hf, rfl⟩ | ⟨_, hs⟩ | ⟨_, _, rfl⟩ |
    ⟨_, hs⟩
  · obtain ⟨hf', hrest⟩ := List.forall_mem_cons.1 h
    intro g hg
    rcases List.mem_append.1 hg with hg | hg
    · exact Frame.step_elsewhere hn hf' hf g hg
    · exact hrest g hg
  · obtain ⟨f, v, rest, rfl, _, ⟨_, rfl, _⟩ | ⟨g, g', rest', rfl, hg, _, rfl⟩⟩ := retStep_cases hs
    · exact (List.forall_mem_cons.1 h).2
    · obtain ⟨hg', hrest⟩ := List.forall_mem_cons.1 (List.forall_mem_cons.1 h).2
      exact List.forall_mem_cons.2 ⟨Frame.resume_elsewhere hg' hg, hrest⟩
  · exact h
  · exact (userStep_cases hs).2.elsewhere h

variable {σ : State Thr Sto} {cfg : Config Thr Sto} [Fintype Thr]

theorem elsewhere_reach (hr : (machine cfg).Reach ok σ) (t : Thr) :
    ∀ f ∈ σ.stack t, f.Elsewhere t := by
  refine hr.invariant_of (P := fun s => ∀ t, ∀ f ∈ s.stack t, f.Elsewhere t)
    (fun _ hr => Protocol.reach hr) ?_ ?_ t
  · rintro _ rfl t f hf
    cases hf
  · intro l s s' hP h _ hs t
    obtain ⟨m', st', ht, rfl⟩ := State.step_cases hs
    change ∀ f ∈ Function.update s.stack l.1 st' t, f.Elsewhere t
    by_cases hl : t = l.1
    · subst hl
      rw [Function.update_self]
      exact threadStep_elsewhere (hP.node _) (h _) ht
    · rw [Function.update_of_ne hl]
      exact h t

theorem inUse_used (hr : (machine cfg).Reach NoWrap σ) (t : Thr) : σ.mem.inUse t = nodeUsed := by
  refine hr.invariant_of (P := fun s => ∀ t, s.mem.inUse t = nodeUsed)
    (Q := fun s => Protocol cfg.width s ∧ ∀ t, s.mem.published t ≠ 2)
    (fun _ hr => ⟨Protocol.reach hr, published_ne_two hr⟩) ?_ ?_ t
  · rintro _ rfl
    exact fun _ => rfl
  · intro l s s' hQ h _ hs
    obtain ⟨hP, hp⟩ := hQ
    obtain ⟨m', st', ht, rfl⟩ := State.step_cases hs
    have same : SameNodes s.mem m' → ∀ t, m'.inUse t = nodeUsed := by
      intro hm t
      rw [hm.inUse]
      exact h t
    rcases threadStep_cases ht with ⟨sp, f, rest, pre, _, hst, hf, _⟩ | ⟨_, hs⟩ | ⟨_, hs, _⟩ |
      ⟨_, hs⟩
    · rcases Frame.step_nodes cfg l.1 hf with hm | ⟨S, since, full, pc, rfl, hm⟩
      · exact same hm
      · cases hm with
        | same hm => exact same hm
        | publish hu =>
          intro t
          rw [hu]
          exact h t
        | cooldown =>
          have htop := (hP.node l.1).top
          rw [hst] at htop
          obtain ⟨ho, _, rfl⟩ := htop
          exact absurd ho.2.1 (hp l.1)
    · exact same (retStep_nodes hs)
    · rw [claimStep] at hs
      split at hs <;> cases hs
      intro t
      by_cases hl : t = l.1
      · subst hl
        exact Function.update_self ..
      · exact (Function.update_of_ne hl ..).trans (h t)
    · exact same (userStep_nodes hs)

/-- What the assertions demand before the next step of the innermost activation of `t`, with
counters of `w` bits. -/
def Frame.Asserted (w : Nat) (m : Shared Thr Sto) (t : Thr) : Frame Thr Sto → Prop
  | .panic => False
  | .load _ _ _ pc =>
    match pc with
    | .first | .candidate _ => m.localNode t = true ∧ m.inUse t = nodeUsed
    | .take _ _ d => m.debt d = debtNone
    | .setAddr =>
      (m.localNode t = true ∧ m.inUse t = nodeUsed) ∧
        nextGeneration w (m.generation t) &&& genTag = 0
    | .setControl _ _ => m.control t = idle
    | .cooldown _ => m.inUse t = nodeUsed
    | .setSlot _ _ => m.debt (helpingSlot t) = debtNone
    | .setIdle g _ => m.control t = g ∨ tagOf (m.control t) = replacementTag
    | _ => True
  | .payAll _ _ pc =>
    match pc with
    | .help n _ h =>
      match h with
      | .load => (m.localNode t = true ∧ m.inUse t = nodeUsed) ∧ m.control t = idle
      | .addr _ => n ≠ t
      | .write _ _ _ _ mine => tagOf mine = 0
      | _ => True
    | _ => True
  | _ => True

theorem nextGeneration_genTag (hg : g % 4 = 0) (hlt : g < 2 ^ w) :
    nextGeneration w g &&& genTag = 0 := by
  have h : nextGeneration w g % 4 = 0 := by
    rcases nextGeneration_cases hg hlt with h | h <;> rw [h]
    omega
  have he : genTag = tagMask &&& genTag := by decide
  rw [he, ← Nat.and_assoc]
  change tagOf _ &&& genTag = 0
  rw [tagOf_eq, h]
  rfl

theorem asserted_reach (hr : (machine cfg).Reach NoWrap σ) (hst : σ.stack t = f :: rest) :
    f.Asserted cfg.width σ.mem t := by
  have hn := (Protocol.reach hr).node t
  rw [hst] at hn
  have hp := published_ne_two hr t
  have owned : f.Entered → σ.mem.localNode t = true ∧ σ.mem.inUse t = nodeUsed := by
    intro he
    exact ⟨(hn.entered f (by simp) he).resolve_right hp, inUse_used hr t⟩
  have htop := hn.top
  cases f with
  | panic =>
    obtain ⟨S, ho⟩ := htop
    exact hp ho.2.1
  | load S since full pc =>
    cases pc with
    | first => exact owned trivial
    | take p e d => exact htop.2.2.2.2
    | setAddr =>
      exact ⟨owned trivial, nextGeneration_genTag hn.generation.1 hn.generation.2⟩
    | setControl => exact htop.1.1
    | cooldown => exact inUse_used hr t
    | candidate => exact owned trivial
    | setSlot => exact htop.2.1.empty
    | setIdle g c =>
      rcases htop.1.2.2.2.1 with h | h
      · exact .inl h.1
      · exact .inr ((tagOf_eq _).trans h.1)
    | _ => trivial
  | payAll ptr S pc =>
    cases pc with
    | help n todo h =>
      cases h with
      | load => exact ⟨owned trivial, htop.1.control⟩
      | addr v => exact elsewhere_reach hr t (.payAll ptr S (.help n todo (.addr v))) (by simp [hst])
      | write v since r their mine =>
        have hh := (Protocol.reach hr).help t
          (.payAll ptr S (.help n todo (.write v since r their mine))) (by simp [hst])
        exact (tagOf_eq mine).trans hh.2.2
      | _ => trivial
    | _ => trivial
  | _ => trivial

theorem no_panic (hr : (machine cfg).Reach NoWrap σ) (t : Thr) : .panic ∉ σ.stack t := by
  intro hp
  cases hst : σ.stack t with
  | nil =>
    rw [hst] at hp
    cases hp
  | cons f rest =>
    rw [hst] at hp
    rcases List.mem_cons.1 hp with rfl | hp
    · exact asserted_reach hr hst
    · apply ((Protocol.reach hr).node t).parked .panic
      rw [hst]
      exact hp

/-- As long as no counter wraps, no assertion fails, whatever destructors and closures call: no
thread panics, the state the assertions demand is there before each step, a control holds one of
the three kinds of words, and wherever user code runs its thread is in no transaction. -/
theorem assertions_hold (hr : (machine cfg).Reach NoWrap σ) :
    (∀ t, .panic ∉ σ.stack t) ∧
    (∀ t f rest, σ.stack t = f :: rest → f.Asserted cfg.width σ.mem t) ∧
    (∀ n, σ.mem.control n = idle ∨ tagOf (σ.mem.control n) = genTag ∨
      tagOf (σ.mem.control n) = replacementTag) ∧
    ∀ t, atUser (σ.stack t) = true →
      σ.mem.control t = idle ∧ σ.mem.debt (helpingSlot t) = debtNone := by
  have hP := Protocol.reach hr
  refine ⟨no_panic hr, fun t f rest hst => asserted_reach hr hst, ?_, ?_⟩
  · exact fun n => (hP.node n).watched.observed.cases
  · intro t hu
    obtain ⟨⟨hi, hh⟩, _⟩ := (hP.node t).calm_of_user hu
    exact ⟨hi.control, hh.empty⟩

/-- The thread publishes a generation inside a destructor that its own traversal has run. -/
def nested (σ : State (Fin 2) (Fin 2)) (t : Fin 2) : Bool :=
  match σ.stack t with
  | .load _ _ _ (.setControl _ _) :: .user :: .payAll _ _ (.slot _ _ _) :: _ => true
  | _ => false

/-- A writer drops a replacement that has lost and is the last reference to its object; the
destructor loads. -/
theorem assertions_hold_nested :
    ∃ σ, (machine (twoThreads false)).Reach NoWrap σ ∧ nested σ 1 = true ∧
      σ.mem.control 1 = idle ∧ ∀ n, σ.mem.control n = idle ∨ tagOf (σ.mem.control n) = genTag ∨
        tagOf (σ.mem.control n) = replacementTag := by
  obtain ⟨σ, hr, hp⟩ := reach_after NoWrap false
    (prepared ++ [order 0 (.load 0)] ++ steps (twoThreads false) 0 3 ++ [order 1 (.store 0 24)] ++
      steps (twoThreads false) 1 32 ++ steps (twoThreads false) 0 20 ++
      [order 0 (.alloc 40), order 0 (.guardDrop ⟨none, 24⟩)] ++ steps (twoThreads false) 0 3 ++
      whole (twoThreads false) 0 (.store 0 40) ++ steps (twoThreads false) 1 2 ++
      [order 1 (.load 0)] ++ steps (twoThreads false) 1 2)
    (fun σ => nested σ 1) (by decide +kernel)
  obtain ⟨_, hasserted, hcontrol, _⟩ := assertions_hold hr
  refine ⟨σ, hr, hp, ?_, hcontrol⟩
  rw [nested] at hp
  split at hp
  · rename_i hst
    exact hasserted 1 _ _ hst
  · cases hp

end ArcSwap
