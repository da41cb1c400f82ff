import ArcSwap.LedgerStep
import ArcSwap.Schedule

namespace ArcSwap
set_option autoImplicit true

variable {Thr Sto : Type}
variable {m m' : Shared Thr Sto} {L L' R : List (Guard Thr)} {st st' : List (Frame Thr Sto)}

theorem Frame.result_refs {f : Frame Thr Sto} (t : Thr) (h : f.result = some v) :
    f.refs t = v.refs := by
  unfold Frame.result at h
  split at h <;> cases h <;> rfl

theorem countP_refs (t : Thr) (st : List (Frame Thr Sto)) (a : Nat) :
    (st.flatMap (Frame.refs t)).countP (fun g => g.ptr = a) =
      (st.flatMap Frame.owned).count a + (st.flatMap Frame.held).countP (fun g => g.ptr = a) +
        (st.flatMap (Frame.unresolved t)).countP (fun g => g.ptr = a) := by
  induction st with
  | nil => rfl
  | cons f st ih =>
    have ho : (f.owned.map fun p => (⟨none, p⟩ : Guard Thr)).countP (fun g => g.ptr = a) =
        f.owned.count a := by
      rw [List.countP_map, List.count_eq_countP]
      congr 1
    simp only [List.flatMap_cons, List.countP_append, List.count_append, ih, Frame.refs, ho]
    omega

/-- A caller takes over what its callee returns. -/
theorem Called.refs {f g g' : Frame Thr Sto} (t : Thr) (hc : Called f g)
    (hv : f.result = some v) (hg : g.resume m v = some g') :
    (g'.refs t).Perm (v.refs ++ g.refs t) := by
  have hgives := Frame.result_gives hv
  have ha := hc.resolve_left (Frame.result_ne_panic hv)
  unfold Frame.resume at hg
  split at hg <;> cases hg
  · exact .refl _
  · rw [show f.callee = _ from ha] at hgives
    cases hgives
    exact .refl _
  · exact .refl _
  · split
    · exact .swap ..
    · exact .swap ..
  · rw [show f.callee = _ from ha] at hgives
    cases hgives
    exact .refl _
  · exact .refl _
  · exact .refl _
  · exact .swap ..
  · exact .refl _
  · exact .refl _
  · exact .refl _

variable [DecidableEq Thr] [Fintype Thr] [Fintype Sto]

theorem account_append (m : Shared Thr Sto) (L R : List (Guard Thr)) (a : Nat) :
    account m (L ++ R) a = (account m L a).add fun o => R.count ⟨o, a⟩ := by
  simp only [account, Concurrent.Account.add, List.count_append, Nat.add_assoc]

theorem Transfer.append (h : Transfer m L m' L') (R : List (Guard Thr)) :
    Transfer m (L ++ R) m' (L' ++ R) := by
  intro a ha ha3
  rw [account_append, account_append]
  exact (h a ha ha3).add _

/-- The account of the object at `a`. -/
def State.account (σ : State Thr Sto) (a : Nat) : Concurrent.Account (Debt Thr) where
  count := σ.mem.strong a
  slot d := decide (σ.mem.debt d = a)
  refs o := σ.mem.refs ⟨o, a⟩ + ∑ t, ((σ.stack t).flatMap (Frame.refs t)).count ⟨o, a⟩

variable {σ σ' : State Thr Sto} {cfg : Config Thr Sto}

theorem State.account_eq (σ : State Thr Sto) (t : Thr) (m' : Shared Thr Sto)
    (st' : List (Frame Thr Sto)) (a : Nat) :
    State.account ⟨m', Function.update σ.stack t st'⟩ a =
      (ArcSwap.account m' (st'.flatMap (Frame.refs t)) a).add fun o =>
        ∑ x ∈ Finset.univ.erase t, ((σ.stack x).flatMap (Frame.refs x)).count ⟨o, a⟩ := by
  simp only [State.account, ArcSwap.account, Concurrent.Account.add, Nat.add_assoc]
  congr 1
  funext o
  rw [← Finset.add_sum_erase Finset.univ _ (Finset.mem_univ t), Function.update_self]
  congr 2
  apply Finset.sum_congr rfl
  intro x hx
  rw [Function.update_of_ne (Finset.ne_of_mem_erase hx)]

theorem State.account_initial (cfg : Config Thr Sto) (ha3 : a ≠ debtNone) :
    ((State.initial cfg).account a).Balanced := by
  refine ⟨?_, ?_⟩
  · simp [State.account, State.initial, Concurrent.Account.slots, Shared.refs, Shared.stored,
      Shared.offers, Ne.symm ha3]
  · intro d hd
    simp [State.account, State.initial, Ne.symm ha3] at hd

theorem State.account_slots (σ : State Thr Sto) (a : Nat) :
    (σ.account a).slots = (Finset.univ.filter fun d => σ.mem.debt d = a).card := by
  rw [Finset.card_filter]
  simp only [Concurrent.Account.slots, State.account, decide_eq_true_eq]

theorem sum_count (L : List (Guard Thr)) (a : Nat) :
    ∑ o, L.count ⟨o, a⟩ = L.countP fun g => g.ptr = a := by
  induction L with
  | nil => simp
  | cons g L ih =>
    obtain ⟨d, p⟩ := g
    simp only [count_cons_eq ⟨d, p⟩ L, count_singleton, Finset.sum_add_distrib, ih,
      List.countP_cons]
    congr 1
    by_cases hp : p = a
    · simp [hp, Concurrent.unit]
    · simp [hp]

theorem State.sum_refs (σ : State Thr Sto) (a : Nat) :
    ∑ o, (σ.account a).refs o = σ.mem.handles a + σ.mem.stored a + σ.mem.offers a +
      ∑ o, σ.mem.guards ⟨o, a⟩ +
      ∑ t, ((σ.stack t).flatMap (Frame.refs t)).countP (fun g => g.ptr = a) := by
  simp only [State.account, Shared.refs, Finset.sum_add_distrib, Finset.sum_ite_eq',
    Finset.mem_univ, if_true]
  rw [Finset.sum_comm]
  simp only [sum_count]
  omega

theorem Transfer.state (h : Transfer σ.mem ((σ.stack t).flatMap (Frame.refs t)) m'
    (st'.flatMap (Frame.refs t))) (ha : a ≠ 0) (ha3 : a ≠ debtNone) :
    (σ.account a).Move (State.account ⟨m', Function.update σ.stack t st'⟩ a) := by
  have he := State.account_eq σ t σ.mem (σ.stack t) a
  rw [Function.update_eq_self] at he
  rw [State.account_eq]
  rw [show σ.account a = _ from he]
  exact (h a ha ha3).add _

theorem retStep_transfer (t : Thr) (hst : Stacked st) (hs : retStep m st = some (m', st')) :
    Transfer m (st.flatMap (Frame.refs t)) m' (st'.flatMap (Frame.refs t)) := by
  obtain ⟨f, v, rest, rfl, hv, ⟨rfl, rfl, _⟩ | ⟨g, g', rest', rfl, hg, rfl, rfl⟩⟩ :=
    retStep_cases hs
  · refine .move ?_ ?_ ?_
    · cases v <;> rfl
    · cases v <;> rfl
    · intro x _
      rw [refs_give, List.flatMap_cons, List.count_append, Frame.result_refs t hv]
      exact Nat.add_assoc ..
  · rw [Shared.recordFor_eq]
    refine .goto rfl rfl (fun _ => rfl) ?_
    have hp := Called.refs t (List.isChain_cons_cons.1 hst.called).1 hv hg
    rw [List.flatMap_cons, List.flatMap_cons, List.flatMap_cons, Frame.result_refs t hv,
      ← List.append_assoc]
    exact hp.append_right _

variable [DecidableEq Sto]

theorem userStep_transfer (t : Thr) (hs : userStep m free st act = some (m', st')) :
    Transfer m (st.flatMap (Frame.refs t)) m' (st'.flatMap (Frame.refs t)) := by
  have enter : ∀ {m₁ : Shared Thr Sto} (pre : List (Frame Thr Sto)),
      Transfer m [] m₁ (pre.flatMap (Frame.refs t)) →
      Transfer m (st.flatMap (Frame.refs t)) m₁ ((pre ++ st).flatMap (Frame.refs t)) := by
    intro m₁ pre h
    rw [List.flatMap_append]
    exact h.append _
  have hinc : ∀ a g, ((m.inc a).addHandle a).refs g = m.refs g + [⟨none, a⟩].count g := by
    intro a g
    rw [refs_addHandle]
    congr 1
    rw [Shared.inc]
    split <;> rfl
  have clone : ∀ a, Transfer m [] ((m.inc a).addHandle a) [] := by
    intro a
    refine .inc rfl ?_ (fun g _ => hinc a g)
    rw [Shared.addHandle, Shared.inc]
    split <;> rfl
  have take : ∀ {m₁ : Shared Thr Sto} {a : Nat}, m.takeHandle a = some m₁ →
      m₁.strong = m.strong ∧ m₁.debt = m.debt := by
    intro m₁ a h
    rw [Shared.takeHandle] at h
    split at h
    · cases h
      exact ⟨rfl, rfl⟩
    · split at h <;> cases h
      exact ⟨rfl, rfl⟩
  have takeG : ∀ {m₁ : Shared Thr Sto} {g : Guard Thr}, m.takeGuard g = some m₁ →
      m₁.strong = m.strong ∧ m₁.debt = m.debt := by
    intro m₁ a h
    rw [Shared.takeGuard] at h
    split at h <;> cases h
    exact ⟨rfl, rfl⟩
  cases act with
  | alloc a =>
    simp only [userStep, Option.map_eq_some_iff] at hs
    obtain ⟨m₁, h₁, he⟩ := hs
    cases he
    rw [Shared.allocate] at h₁
    split at h₁
    · cases h₁
    · rename_i ha
      cases h₁
      refine enter [] (.inc (p := a) ?_ rfl ?_)
      · simp only [not_or, not_not] at ha
        simp [Shared.addHandle, Shared.inc, ha.1, ha.2.2]
      · intro g _
        exact refs_addHandle _ a g
  | clone a =>
    simp only [userStep] at hs
    split at hs <;> cases hs
    exact enter [] (clone a)
  | cloneGuard g =>
    simp only [userStep] at hs
    split at hs <;> cases hs
    exact enter [] (clone g.ptr)
  | cloneCur =>
    simp only [userStep] at hs
    split at hs <;> cases hs
    exact enter [] (clone _)
  | dropHandle a =>
    simp only [userStep, Option.map_eq_some_iff] at hs
    obtain ⟨m₁, h₁, he⟩ := hs
    cases he
    exact enter [_] (.move (take h₁).1 (take h₁).2 (fun g hg => (refs_takeHandle h₁ g hg).symm))
  | create S a =>
    simp only [userStep] at hs
    split at hs
    · rename_i hS
      simp only [Option.map_eq_some_iff] at hs
      obtain ⟨m₁, h₁, he⟩ := hs
      cases he
      refine enter [] (.move (take h₁).1 (take h₁).2 ?_)
      intro g hg
      have h := refs_setStorage m₁ m.nextOp S (some a) g
      have hS' : m₁.storage S = none := by
        rw [← hS.1]
        rw [Shared.takeHandle] at h₁
        split at h₁
        · cases h₁
          rfl
        · split at h₁ <;> cases h₁
          rfl
      rw [hS'] at h
      exact h.trans (refs_takeHandle h₁ g hg).symm
    · cases hs
  | load | loadFull =>
    simp only [userStep, Option.map_eq_some_iff] at hs
    obtain ⟨_, _, he⟩ := hs
    cases he
    exact enter [_] (.goto rfl rfl (fun _ => rfl) (.refl _))
  | rcu S =>
    simp only [userStep, Option.map_eq_some_iff] at hs
    obtain ⟨_, _, he⟩ := hs
    cases he
    exact enter [_, _] (.goto rfl rfl (fun _ => rfl) (.refl _))
  | swap | cas =>
    simp only [userStep, Option.bind_eq_some_iff, Option.map_eq_some_iff] at hs
    obtain ⟨_, _, m₁, h₁, he⟩ := hs
    cases he
    exact enter [_] (.move (take h₁).1 (take h₁).2 (fun g hg => (refs_takeHandle h₁ g hg).symm))
  | store =>
    simp only [userStep, Option.bind_eq_some_iff, Option.map_eq_some_iff] at hs
    obtain ⟨_, _, m₁, h₁, he⟩ := hs
    cases he
    exact enter [_, _] (.move (take h₁).1 (take h₁).2 (fun g hg => (refs_takeHandle h₁ g hg).symm))
  | intoInner S =>
    simp only [userStep] at hs
    split at hs
    · simp only [Option.map_eq_some_iff] at hs
      obtain ⟨p, hS, he⟩ := hs
      cases he
      refine enter [_] (.move rfl rfl ?_)
      intro g _
      have h := refs_setStorage m m.nextOp S none g
      rw [hS] at h
      exact h
    · cases hs
  | dropStorage S =>
    simp only [userStep] at hs
    split at hs
    · simp only [Option.map_eq_some_iff] at hs
      obtain ⟨p, hS, he⟩ := hs
      cases he
      refine enter [_, _] (.move rfl rfl ?_)
      intro g _
      have h := refs_setStorage m m.nextOp S none g
      rw [hS] at h
      exact h
    · cases hs
  | guardDrop g | guardIntoInner g =>
    simp only [userStep, Option.map_eq_some_iff] at hs
    obtain ⟨m₁, h₁, he⟩ := hs
    cases he
    exact enter [_] (.move (takeG h₁).1 (takeG h₁).2 (fun x _ => (refs_takeGuard h₁ x).symm))
  | guardFromInner a =>
    simp only [userStep, Option.map_eq_some_iff] at hs
    obtain ⟨m₁, h₁, he⟩ := hs
    cases he
    refine enter [] (.move (take h₁).1 (take h₁).2 ?_)
    intro g hg
    rw [refs_takeHandle h₁ g hg, refs_addGuard]
    rfl
  | closureRet new =>
    simp only [userStep, closureStep] at hs
    split at hs
    · rename_i op S cur arg rest
      simp only [Option.map_eq_some_iff] at hs
      obtain ⟨m₁, h₁, he⟩ := hs
      cases he
      refine .move (take h₁).1 (take h₁).2 ?_
      intro g hg
      rw [refs_takeHandle h₁ g hg]
      change m'.refs g + (⟨none, new⟩ :: cur :: rest.flatMap (Frame.refs t)).count g =
        m'.refs g + [⟨none, new⟩].count g + (cur :: rest.flatMap (Frame.refs t)).count g
      rw [count_cons_eq]
      omega
    · cases hs
  | userRet =>
    simp only [userStep] at hs
    split at hs <;> cases hs
    exact .goto rfl rfl (fun _ => rfl) (.refl _)
  | run => cases hs
  | ret => cases hs
  | claim => cases hs

/-- Each step of the system is a step of the accounting of every object. -/
theorem State.step_account (hr : (machine cfg).Reach ok σ)
    (hs : State.step cfg l σ = some σ') (ha : a ≠ 0) (ha3 : a ≠ debtNone) :
    (σ.account a).Move (σ'.account a) := by
  obtain ⟨m', st', ht, rfl⟩ := State.step_cases hs
  refine Transfer.state ?_ ha ha3
  have hP := Protocol.reach hr
  have hE := Envelopes.reach hr
  have hst := Stacked.reach hr l.1
  rcases threadStep_cases ht with ⟨sp, f, rest, pre, _, he, hf, rfl⟩ | ⟨_, h⟩ | ⟨_, h, rfl⟩ | ⟨_, h⟩
  · have hn := hP.node l.1
    have hw := hE.writing l.1
    have hh := hP.help l.1
    rw [he] at hn hw hh hst
    rw [he, List.flatMap_cons, List.flatMap_append]
    exact (Frame.step_transfer hn (fun n => (hP.node n).watched) (hh f (by simp)) hw
      (hst.ready f rfl) hf).append _
  · exact retStep_transfer l.1 hst h
  · rw [claimStep] at h
    split at h <;> cases h
    exact .goto rfl rfl (fun _ => rfl) (.refl _)
  · exact userStep_transfer l.1 h

theorem Balanced.reach (hr : (machine cfg).Reach ok σ) (ha : a ≠ 0)
    (ha3 : a ≠ debtNone) : (σ.account a).Balanced :=
  hr.invariant_of (P := fun σ => (σ.account a).Balanced) (fun _ h => h)
    (fun _ hi => hi ▸ State.account_initial cfg ha3)
    (fun _ _ _ h hb _ hs => (State.step_account h hs ha ha3).balanced hb)

section
omit [Fintype Sto]

theorem Idle.of_empty (hr : (machine cfg).Reach ok σ) (ht : σ.stack t = []) :
    Idle σ.mem t := by
  have h := ((Protocol.reach hr).node t).top
  rw [ht] at h
  exact h.1

end

theorem strong_pos_of_owned (hr : (machine cfg).Reach ok σ) (ha : a ≠ 0)
    (ha3 : a ≠ debtNone) (ho : a ∈ (σ.stack t).flatMap Frame.owned) : 0 < σ.mem.strong a := by
  apply Nat.lt_of_lt_of_le ?_ (Balanced.reach hr ha ha3).counted_le
  apply Nat.lt_of_lt_of_le ?_ (Nat.le_add_left ..)
  apply Nat.lt_of_lt_of_le ?_ (Finset.single_le_sum (fun _ _ => Nat.zero_le _) (Finset.mem_univ t))
  rw [List.count_pos_iff]
  obtain ⟨f, hf, hfa⟩ := List.mem_flatMap.1 ho
  refine List.mem_flatMap.2 ⟨f, hf, ?_⟩
  exact List.mem_append_left _ (List.mem_append_left _ (List.mem_map_of_mem hfa))

/-- With no operation running and no guard left, the strong count is the number of storages and
handles. -/
theorem strong_eq_of_quiet (hr : (machine cfg).Reach ok σ) (ha : a ≠ 0)
    (ha3 : a ≠ debtNone) (hst : ∀ t, σ.stack t = []) (hg : ∀ d, σ.mem.guards ⟨d, a⟩ = 0) :
    σ.mem.strong a = σ.mem.stored a + σ.mem.handles a := by
  have hb := Balanced.reach hr ha ha3
  have hslots : (σ.account a).slots = 0 := by
    refine Nat.le_zero.1 (Nat.le_trans hb.slots_le (Nat.le_of_eq ?_))
    apply Finset.sum_eq_zero
    intro d _
    simp [State.account, Shared.refs, hst, hg]
  have hoffers : σ.mem.offers a = 0 := by
    rw [Shared.offers, Finset.card_eq_zero, Finset.filter_eq_empty_iff]
    intro n _
    rw [(Idle.of_empty hr (hst n)).2]
    simp
  have hbal := hb.balance
  rw [hslots, State.sum_refs, hoffers] at hbal
  simp only [hst, hg, List.flatMap_nil, List.countP_nil, Finset.sum_const_zero,
    Nat.add_zero] at hbal
  rw [Nat.add_comm]
  exact hbal

/-- In every reachable state the strong count of an object and the debts owed for it make up the
references to it: those of storages, handles, guards, loads that have not resolved their debt yet,
and those on their way inside running operations. -/
theorem strong_count_ledger (hr : (machine cfg).Reach ok σ) (ha : a ≠ 0)
    (ha3 : a ≠ debtNone) :
    σ.mem.strong a + (Finset.univ.filter fun d => σ.mem.debt d = a).card =
        (Finset.univ.filter fun S => σ.mem.storage S = some a).card + σ.mem.handles a +
          (∑ d, σ.mem.guards ⟨d, a⟩ +
            ∑ t, ((σ.stack t).flatMap Frame.held).countP (fun g => g.ptr = a)) +
          ∑ t, ((σ.stack t).flatMap (Frame.unresolved t)).countP (fun g => g.ptr = a) +
          ((Finset.univ.filter fun n => σ.mem.offered n = some a).card +
            ∑ t, ((σ.stack t).flatMap Frame.owned).count a) ∧
      (∀ t, a ∈ (σ.stack t).flatMap Frame.owned → 0 < σ.mem.strong a) ∧
      ((∀ t, σ.stack t = []) → (∀ d, σ.mem.guards ⟨d, a⟩ = 0) →
        σ.mem.strong a = (Finset.univ.filter fun S => σ.mem.storage S = some a).card +
          σ.mem.handles a) := by
  refine ⟨?_, fun t => strong_pos_of_owned hr ha ha3, strong_eq_of_quiet hr ha ha3⟩
  have hb := (Balanced.reach hr ha ha3).balance
  rw [State.account_slots, State.sum_refs] at hb
  simp only [countP_refs, Finset.sum_add_distrib] at hb
  simp only [State.account, Shared.stored, Shared.offers] at hb
  omega

/-- A thread helps the readers of a pointer taken out of a storage. -/
def paying (σ : State Thr Sto) (t : Thr) (a : Nat) (S : Sto) : Bool :=
  match σ.stack t with
  | .payAll ptr S' (.help _ _ _) :: _ => ptr = a && S' = S
  | _ => false

/-- While a writer pays the debts of readers, its references and their guards are counted. -/
theorem strong_count_ledger_store :
    ∃ σ, (machine (twoThreads true)).Reach (fun _ _ => True) σ ∧
      (∃ n todo h rest, σ.stack 1 = .payAll 8 0 (.help n todo h) :: rest) ∧
      σ.mem.strong 8 + (Finset.univ.filter fun d => σ.mem.debt d = 8).card =
        (Finset.univ.filter fun S => σ.mem.storage S = some 8).card + σ.mem.handles 8 +
          (∑ d, σ.mem.guards ⟨d, 8⟩ +
            ∑ t, ((σ.stack t).flatMap Frame.held).countP (fun g => g.ptr = 8)) +
          ∑ t, ((σ.stack t).flatMap (Frame.unresolved t)).countP (fun g => g.ptr = 8) +
          ((Finset.univ.filter fun n => σ.mem.offered n = some 8).card +
            ∑ t, ((σ.stack t).flatMap Frame.owned).count 8) := by
  obtain ⟨σ, hr, hp⟩ := reach_after (fun _ _ => True) true
    (prepared ++ whole (twoThreads true) 0 (.load 0) ++ [order 1 (.store 0 24)] ++
      steps (twoThreads true) 1 4)
    (fun σ => paying σ 1 8 0) (by decide +kernel)
  refine ⟨σ, hr, ?_, (strong_count_ledger hr (by decide) (by decide)).1⟩
  rw [paying] at hp
  split at hp
  · rename_i ptr S n todo h rest hst
    simp only [Bool.and_eq_true, decide_eq_true_eq] at hp
    obtain ⟨rfl, rfl⟩ := hp
    exact ⟨n, todo, h, rest, hst⟩
  · cases hp

end ArcSwap
