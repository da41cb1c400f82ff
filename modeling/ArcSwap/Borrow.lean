import ArcSwap.Assertions

namespace ArcSwap
set_option autoImplicit true

variable {Thr Sto : Type}

/-- The storage an activation works on is there. A writer that has found a transaction may be one
that waits for the readers of a storage taken apart; then the transaction is on another one. -/
def Frame.Borrows (m : Shared Thr Sto) : Frame Thr Sto → Prop
  | .load S _ _ _ | .swap _ S _ _ | .cas _ S _ _ _ _ | .rcu _ S _ => m.storage S ≠ none
  | .payAll _ S (.help n _ h) =>
    match h with
    | .load => True
    | .addr _ | .recheck _ => m.storage S ≠ none ∨ m.activeAddr n ≠ some S
    | _ => m.storage S ≠ none
  | _ => True

variable {m m' : Shared Thr Sto} {st st' pre rest : List (Frame Thr Sto)}

theorem Frame.Borrows.keep {f : Frame Thr Sto} (h : f.Borrows m)
    (hs : ∀ S, f.storage = some S → m.storage S ≠ none → m'.storage S ≠ none)
    (ha : ∀ n S, m'.activeAddr n = some S → m.activeAddr n = some S ∨ m.storage S ≠ none) :
    f.Borrows m' := by
  have watched : ∀ {n S}, f.storage = some S → m.storage S ≠ none ∨ m.activeAddr n ≠ some S →
      m'.storage S ≠ none ∨ m'.activeAddr n ≠ some S := by
    intro n S hf hw
    by_cases hS : m.storage S = none
    · right
      intro ha'
      rcases ha n S ha' with he | he
      · exact hw.elim (· hS) (· he)
      · exact he hS
    · exact .inl (hs S hf hS)
  cases f with
  | load S => exact hs S rfl h
  | swap op S => exact hs S rfl h
  | cas op S => exact hs S rfl h
  | rcu op S => exact hs S rfl h
  | payAll ptr S pc =>
    cases pc with
    | help n todo pc =>
      cases pc with
      | load => trivial
      | addr => exact watched rfl h
      | recheck => exact watched rfl h
      | _ => exact hs S rfl h
    | _ => trivial
  | _ => trivial

theorem borrows_one {f : Frame Thr Sto} (h : f.Borrows m) : ∀ g ∈ [f], g.Borrows m :=
  List.forall_mem_singleton.2 h

theorem borrows_two {f g : Frame Thr Sto} (hf : f.Borrows m) (hg : g.Borrows m) :
    ∀ x ∈ [f, g], x.Borrows m := by
  intro x hx
  rcases List.mem_cons.1 hx with rfl | hx
  · exact hf
  · exact List.mem_singleton.1 hx ▸ hg

theorem helpNext_borrows (ptr : Nat) (S : Sto) (todo : List Thr)
    (h : v % 4 = 2 → m.storage S ≠ none ∨ m.activeAddr n ≠ some S) :
    Frame.Borrows m ((helpNext n todo v).elim .panic (Frame.payAll ptr S)) := by
  rw [helpNext]
  split
  · split <;> trivial
  · trivial
  · rename_i hv
    rw [tagOf_eq] at hv
    exact h hv
  · trivial

theorem Frame.resume_borrows {g g' : Frame Thr Sto} (h : g.Borrows m)
    (hg : g.resume m v = some g') : g'.Borrows m := by
  rw [Frame.resume.eq_def] at hg
  split at hg
  all_goals cases hg <;> exact h

variable {σ σ' : State Thr Sto} {cfg : Config Thr Sto}

def Borrowed (σ : State Thr Sto) : Prop := ∀ t, ∀ f ∈ σ.stack t, f.Borrows σ.mem

theorem Borrowed.opened (hP : Protocol w σ) (hp : ∀ t, σ.mem.published t ≠ 2) (h : Borrowed σ)
    (n : Thr) (S : Sto) (hc : σ.mem.control n % 4 = 2) (ha : σ.mem.activeAddr n = some S) :
    σ.mem.storage S ≠ none := by
  obtain ⟨S', ho⟩ := (hP.node n).watched.opened hc
  obtain rfl := Option.some.inj (ho.1.symm.trans ha)
  obtain ⟨since, full, pc, rest, hst, _⟩ := (hP.node n).transaction ho (hp n)
  exact h n (.load S' since full pc) (by simp [hst])

theorem release_borrows {m₁ : Shared Thr Sto} {f : Frame Thr Sto} (hf : f.Borrows m)
    (hs : release m₁ a f = (m', pre)) : ∀ g ∈ pre, g.Borrows m := by
  cases hs
  split
  · exact borrows_two trivial hf
  · exact borrows_one hf

variable [DecidableEq Thr]

theorem loadStep_borrows (cfg : Config Thr Sto) (t : Thr) (h : m.storage S ≠ none)
    (hs : loadStep cfg t m S (.load S since full) pc = some (m', pre)) :
    ∀ g ∈ pre, g.Borrows m := by
  cases pc with
  | first | confirm | candidate =>
    simp only [loadStep, Option.map_eq_some_iff] at hs
    obtain ⟨_, _, he⟩ := hs
    cases he
    apply borrows_one
    split <;> first | exact h | trivial
  | enter | repay | setAddr | pay | repayUnused =>
    simp only [loadStep] at hs
    split at hs <;> cases hs <;> apply borrows_one <;> first | exact h | trivial
  | cooldown =>
    cases hs
    apply borrows_one
    split <;> first | exact h | trivial
  | dec c =>
    apply release_borrows (f := .load S since full (.done ⟨none, c⟩)) h
    exact Option.some.inj hs
  | decUnused c r =>
    apply release_borrows (f := .load S since full (.done ⟨none, r⟩)) h
    exact Option.some.inj hs
  | done => cases hs
  | _ =>
    cases hs
    exact borrows_one h

variable [DecidableEq Sto]

theorem payStep_borrows (t : Thr) (h : (Frame.payAll ptr S pc).Borrows m)
    (ho : ∀ n, m.control n % 4 = 2 → m.activeAddr n = some S → m.storage S ≠ none)
    (hs : payStep t m ptr S (.payAll ptr S) pc = some (m', pre)) : ∀ g ∈ pre, g.Borrows m := by
  have slot : ∀ {n todo j}, Frame.Borrows m (.payAll ptr S (nextSlot n todo j)) := by
    intro n todo j
    rw [nextSlot]
    split <;> trivial
  cases pc with
  | help n todo pc =>
    cases pc with
    | load =>
      cases hs
      apply borrows_one
      split
      · apply helpNext_borrows
        intro hv
        by_cases hS : m.activeAddr n = some S
        · exact .inl (ho n hv hS)
        · exact .inr hS
      · trivial
    | addr v =>
      simp only [payStep, helpStep] at hs
      split at hs <;> cases hs
      · rename_i ha
        have hS : m.storage S ≠ none := h.resolve_right (absurd ha)
        exact borrows_two hS hS
      · exact borrows_one h
    | recheck v =>
      cases hs
      apply borrows_one
      split
      · trivial
      · exact helpNext_borrows ptr S todo fun _ => h
    | await => cases hs
    | write v since r their mine =>
      cases hs
      apply borrows_one
      split
      · exact h
      · trivial
    | exchange v since r their mine =>
      simp only [payStep, helpStep] at hs
      split at hs <;> cases hs
      · exact borrows_one h
      · exact borrows_one h
    | drop v r =>
      apply release_borrows (helpNext_borrows ptr S todo fun _ => .inl h)
      exact Option.some.inj hs
    | offer their =>
      cases hs
      exact borrows_one trivial
    | _ =>
      cases hs
      exact borrows_one h
  | start =>
    simp only [payStep] at hs
    split at hs <;> cases hs
    exact borrows_one trivial
  | next todo => cases todo <;> cases hs <;> exact borrows_one trivial
  | slot n todo j =>
    simp only [payStep] at hs
    split at hs <;> cases hs
    · exact borrows_one trivial
    · exact borrows_one slot
  | inc n todo j =>
    cases hs
    exact borrows_one slot
  | dec =>
    apply release_borrows (f := .payAll ptr S .done) trivial
    exact Option.some.inj hs
  | done => cases hs
  | _ =>
    cases hs
    exact borrows_one trivial

theorem Frame.step_borrows (cfg : Config Thr Sto) (t : Thr) {f : Frame Thr Sto}
    (h : f.Borrows m)
    (ho : ∀ n S, m.control n % 4 = 2 → m.activeAddr n = some S → m.storage S ≠ none)
    (hs : f.step cfg t m sp = some (m', pre)) : ∀ g ∈ pre, g.Borrows m := by
  cases f with
  | user => cases hs
  | panic => cases hs
  | load S since full pc =>
    rcases Frame.step_load hs with ⟨g, _, _, _, rfl⟩ | hs
    · exact borrows_one trivial
    · exact loadStep_borrows cfg t h hs
  | payAll ptr S pc => exact payStep_borrows t h (fun n => ho n S) hs
  | intoInner src g pc =>
    cases pc with
    | start | pay =>
      simp only [Frame.step, innerStep] at hs
      split at hs <;> cases hs <;> exact borrows_one trivial
    | dec =>
      apply release_borrows (f := .intoInner src g .done) trivial
      exact Option.some.inj hs
    | done => cases hs
  | guardDrop g pc =>
    cases pc with
    | start =>
      simp only [Frame.step, dropStep] at hs
      split at hs
      · cases hs
        exact borrows_one trivial
      · split at hs <;> cases hs <;> exact borrows_one trivial
    | dec =>
      apply release_borrows (f := .guardDrop g .done) trivial
      exact Option.some.inj hs
    | done => cases hs
  | swap op S new pc =>
    cases pc with
    | start =>
      simp only [Frame.step, swapStep, Option.map_eq_some_iff] at hs
      obtain ⟨old, _, he⟩ := hs
      cases he
      exact borrows_two trivial h
    | _ => cases hs
  | discard pc =>
    cases pc with
    | dec a =>
      apply release_borrows (f := .discard .done) trivial
      exact Option.some.inj hs
    | _ => cases hs
  | cas op S current new dst pc =>
    cases pc with
    | retry =>
      cases hs
      exact borrows_two h h
    | exchange old =>
      simp only [Frame.step, casStep, Option.map_eq_some_iff] at hs
      obtain ⟨ptr, _, he⟩ := hs
      split at he <;> cases he <;> exact borrows_two trivial h
    | dec old u =>
      apply release_borrows (f := .cas op S current new dst (.done old (some u))) h
      exact Option.some.inj hs
    | dropNew old =>
      apply release_borrows (f := .cas op S current new dst (.done old none)) h
      exact Option.some.inj hs
    | _ => cases hs
  | rcu op S pc =>
    cases pc with
    | compare cur prev arg res =>
      simp only [Frame.step, rcuStep] at hs
      split at hs <;> cases hs <;> exact borrows_two trivial h
    | release cur ret arg res =>
      cases hs
      exact borrows_two trivial h
    | _ => cases hs

theorem userStep_borrows (h : ∀ f ∈ st, f.Borrows m)
    (hs : userStep m free st act = some (m', st')) : ∀ f ∈ st', f.Borrows m := by
  have enter : ∀ {f : Frame Thr Sto}, f.Borrows m → ∀ g ∈ f :: st, g.Borrows m :=
    fun hf => List.forall_mem_cons.2 ⟨hf, h⟩
  have call : ∀ {f g : Frame Thr Sto}, f.Borrows m → g.Borrows m →
      ∀ x ∈ f :: g :: st, x.Borrows m :=
    fun hf hg => List.forall_mem_cons.2 ⟨hf, List.forall_mem_cons.2 ⟨hg, h⟩⟩
  cases act with
  | load S | loadFull S =>
    simp only [userStep, Option.map_eq_some_iff] at hs
    obtain ⟨_, hS, he⟩ := hs
    cases he
    apply enter
    simp [Frame.Borrows, hS]
  | rcu S =>
    simp only [userStep, Option.map_eq_some_iff] at hs
    obtain ⟨_, hS, he⟩ := hs
    cases he
    apply call <;> simp [Frame.Borrows, hS]
  | swap S new | cas S current new =>
    simp only [userStep, Option.bind_eq_some_iff, Option.map_eq_some_iff] at hs
    obtain ⟨_, hS, m₁, _, he⟩ := hs
    cases he
    apply enter
    simp [Frame.Borrows, hS]
  | store S new =>
    simp only [userStep, Option.bind_eq_some_iff, Option.map_eq_some_iff] at hs
    obtain ⟨_, hS, m₁, _, he⟩ := hs
    cases he
    apply call
    · simp [Frame.Borrows, hS]
    · trivial
  | clone | cloneGuard =>
    simp only [userStep] at hs
    split at hs <;> cases hs
    exact h
  | cloneCur =>
    simp only [userStep] at hs
    split at hs <;> cases hs
    exact h
  | create =>
    simp only [userStep] at hs
    split at hs
    · simp only [Option.map_eq_some_iff] at hs
      obtain ⟨_, _, he⟩ := hs
      cases he
      exact h
    · cases hs
  | alloc | guardFromInner =>
    simp only [userStep, Option.map_eq_some_iff] at hs
    obtain ⟨_, _, he⟩ := hs
    cases he
    exact h
  | dropHandle | guardDrop | guardIntoInner =>
    simp only [userStep, Option.map_eq_some_iff] at hs
    obtain ⟨_, _, he⟩ := hs
    cases he
    exact enter trivial
  | intoInner =>
    simp only [userStep] at hs
    split at hs
    · simp only [Option.map_eq_some_iff] at hs
      obtain ⟨_, _, he⟩ := hs
      cases he
      exact enter trivial
    · cases hs
  | dropStorage =>
    simp only [userStep] at hs
    split at hs
    · simp only [Option.map_eq_some_iff] at hs
      obtain ⟨_, _, he⟩ := hs
      cases he
      exact call trivial trivial
    · cases hs
  | closureRet =>
    simp only [userStep, closureStep] at hs
    split at hs
    · simp only [Option.map_eq_some_iff] at hs
      obtain ⟨_, _, he⟩ := hs
      cases he
      obtain ⟨hf, hrest⟩ := List.forall_mem_cons.1 h
      exact List.forall_mem_cons.2 ⟨hf, List.forall_mem_cons.2 ⟨hf, hrest⟩⟩
    · cases hs
  | userRet =>
    simp only [userStep] at hs
    split at hs <;> cases hs
    exact (List.forall_mem_cons.1 h).2
  | run => cases hs
  | ret => cases hs
  | claim => cases hs

theorem threadStep_borrows (h : ∀ f ∈ st, f.Borrows m)
    (ho : ∀ n S, m.control n % 4 = 2 → m.activeAddr n = some S → m.storage S ≠ none)
    (hs : threadStep cfg t m free st act = some (m', st')) : ∀ f ∈ st', f.Borrows m := by
  rcases threadStep_cases hs with ⟨sp, f, rest, pre, _, rfl, hf, rfl⟩ | ⟨_, hs⟩ | ⟨_, _, rfl⟩ |
    ⟨_, hs⟩
  · obtain ⟨hf', hrest⟩ := List.forall_mem_cons.1 h
    intro g hg
    rcases List.mem_append.1 hg with hg | hg
    · exact Frame.step_borrows cfg t hf' ho hf g hg
    · exact hrest g hg
  · obtain ⟨f, v, rest, rfl, _, ⟨_, rfl, _⟩ | ⟨g, g', rest', rfl, hg, _, rfl⟩⟩ := retStep_cases hs
    · exact (List.forall_mem_cons.1 h).2
    · obtain ⟨hg', hrest⟩ := List.forall_mem_cons.1 (List.forall_mem_cons.1 h).2
      exact List.forall_mem_cons.2 ⟨Frame.resume_borrows hg' hg, hrest⟩
  · exact h
  · exact userStep_borrows h hs

/-- A storage is taken apart only when no activation borrows it, and none goes on to do so. -/
theorem threadStep_removal (hs : threadStep cfg t m free st act = some (m', st'))
    (hS : m.storage S ≠ none) : m'.storage S ≠ none ∨
      free S = true ∧ ∀ f ∈ st', f ∈ st ∨ ∀ m, Frame.Borrows m f := by
  have set : ∀ {m : Shared Thr Sto} {op S' a}, m.storage S ≠ none →
      (m.setStorage op S' (some a)).storage S ≠ none := by
    intro m op S' a h
    by_cases hS' : S = S'
    · subst hS'
      simp [Shared.setStorage]
    · simpa [Shared.setStorage, Function.update_of_ne hS'] using h
  rcases threadStep_cases hs with ⟨sp, f, rest, pre, _, _, hf, _⟩ | ⟨_, h⟩ | ⟨_, h, _⟩ | ⟨_, h⟩
  · left
    rcases (Frame.step_cases cfg t hf).internal_or_write with hi | hw
    · rwa [hi.storage]
    · cases hw <;> exact set hS
  · left
    obtain ⟨f, v, rest, _, _, ⟨rfl, _⟩ | ⟨_, _, _, _, _, rfl, _⟩⟩ := retStep_cases h
    · cases v <;> exact hS
    · rwa [Shared.recordFor_eq]
  · left
    rw [claimStep] at h
    split at h <;> cases h
    exact hS
  · have hw := userStep_write h
    clear h hs
    cases hw with
    | same he => exact .inl (he ▸ hS)
    | alloc h =>
      rw [allocate_eq h]
      exact .inl hS
    | create _ h₁ =>
      rw [takeHandle_eq h₁]
      exact .inl (@set _ m.nextOp _ _ hS)
    | @remove S' a _ hf _ hst =>
      by_cases hS' : S = S'
      · right
        refine ⟨hS' ▸ hf, ?_⟩
        intro f hf
        rcases hst with rfl | rfl
        · rcases List.mem_cons.1 hf with rfl | hf
          · exact .inr fun _ => trivial
          · exact .inl hf
        · rcases List.mem_cons.1 hf with rfl | hf
          · exact .inr fun _ => trivial
          · rcases List.mem_cons.1 hf with rfl | hf
            · exact .inr fun _ => trivial
            · exact .inl hf
      · left
        simpa [Shared.setStorage, Shared.newOp, Function.update_of_ne hS'] using hS

theorem threadStep_activeAddr (hs : threadStep cfg t m free st act = some (m', st'))
    (h : ∀ f ∈ st, f.Borrows m) (ha : m'.activeAddr n = some S) :
    m.activeAddr n = some S ∨ m.storage S ≠ none := by
  have same : SameNodes m m' → m.activeAddr n = some S ∨ m.storage S ≠ none :=
    fun hm => .inl (hm.activeAddr ▸ ha)
  rcases threadStep_cases hs with ⟨sp, f, rest, pre, _, rfl, hf, _⟩ | ⟨_, hs⟩ | ⟨_, hs, _⟩ | ⟨_, hs⟩
  · have hb := (List.forall_mem_cons.1 h).1
    rcases Frame.step_nodes cfg t hf with hm | ⟨S', since, full, pc, rfl, hm⟩
    · exact same hm
    · cases hm with
      | same hm => exact same hm
      | publish _ ha' =>
        rw [ha'] at ha
        by_cases hn : n = t
        · subst hn
          rw [Function.update_self] at ha
          cases ha
          exact .inr hb
        · rw [Function.update_of_ne hn] at ha
          exact .inl ha
      | cooldown _ ha' => exact .inl (ha' ▸ ha)
  · exact same (retStep_nodes hs)
  · rw [claimStep] at hs
    split at hs <;> cases hs
    exact .inl ha
  · exact same (userStep_nodes hs)

variable [Fintype Thr]

theorem Borrowed.step (hP : Protocol w σ) (hp : ∀ t, σ.mem.published t ≠ 2) (h : Borrowed σ)
    (hs : State.step cfg l σ = some σ') : Borrowed σ' := by
  obtain ⟨m', st', ht, rfl⟩ := State.step_cases hs
  have haddr := fun n S => threadStep_activeAddr (n := n) (S := S) ht (h l.1)
  have borrowed : ∀ x, ∀ f ∈ σ.stack x, f.Borrows m' := by
    intro x f hf
    refine (h x f hf).keep (fun S hS hne => ?_) haddr
    rcases threadStep_removal ht hne with he | ⟨hfree, _⟩
    · exact he
    · rw [State.free, decide_eq_true_iff] at hfree
      exact absurd hS (hfree x f hf)
  intro x f hf
  change f ∈ Function.update σ.stack l.1 st' x at hf
  by_cases hx : x = l.1
  · subst hx
    rw [Function.update_self] at hf
    by_cases hold : f ∈ σ.stack l.1
    · exact borrowed l.1 f hold
    · by_cases hall : ∀ m, Frame.Borrows m f
      · exact hall m'
      · refine (threadStep_borrows (h l.1) (h.opened hP hp) ht f hf).keep (fun S _ hne => ?_) haddr
        exact (threadStep_removal ht hne).resolve_right fun he => (he.2 f hf).elim hold hall
  · rw [Function.update_of_ne hx] at hf
    exact borrowed x f hf

theorem borrowed_reach (hr : (machine cfg).Reach NoWrap σ) : Borrowed σ := by
  refine hr.invariant_of (Q := fun s => Protocol cfg.width s ∧ ∀ t, s.mem.published t ≠ 2)
    (fun _ hr => ⟨Protocol.reach hr, published_ne_two hr⟩) ?_ ?_
  · rintro _ rfl t f hf
    cases hf
  · exact fun _ _ _ hQ h _ hs => h.step hQ.1 hQ.2 hs

end ArcSwap
