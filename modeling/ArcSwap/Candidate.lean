import ArcSwap.LoadHistory

namespace ArcSwap
set_option autoImplicit true

variable {Thr Sto : Type}

def Frame.payment : Frame Thr Sto → Option (Debt Thr × Nat)
  | .payAll ptr _ (.slot n _ j) => some ((n, j), ptr)
  | .intoInner _ g (.pay d) => some (d, g.ptr)
  | .guardDrop ⟨some d, ptr⟩ .start => some (d, ptr)
  | _ => none

/-- The candidate a load has put, or is about to put, into its helping slot. -/
def LoadPc.unconfirmed : LoadPc Thr → Option Nat
  | .setSlot _ c | .setIdle _ c | .envelope _ c _ _ | .offer c _ _ | .repayUnused c _ => some c
  | _ => none

variable {m m' : Shared Thr Sto} {st st' pre rest : List (Frame Thr Sto)} [DecidableEq Thr]

theorem setDebt_ne {d x : Debt Thr} (h : (m.setDebt d w).debt x ≠ m.debt x) : x = d := by
  by_contra hx
  exact h (Function.update_of_ne hx ..)

theorem loadStep_debt_own (cfg : Config Thr Sto) {pc : LoadPc Thr} (hn : pc.NodeInv m t S)
    (hs : loadStep cfg t m S k pc = some (m', pre)) (hd : m'.debt d ≠ m.debt d) : d.1 = t := by
  have same : m'.debt = m.debt → d.1 = t := fun h => absurd (congrFun h d) hd
  cases pc with
  | take p e x =>
    cases hs
    obtain rfl : d = x := by
      by_contra hx
      exact hd (Function.update_of_ne hx ..)
    exact hn.2.2.1
  | repay p e x =>
    simp only [loadStep] at hs
    split at hs <;> cases hs
    · obtain rfl := setDebt_ne hd
      exact hn.2.2.1
    · exact same rfl
  | setSlot g c =>
    cases hs
    obtain rfl := setDebt_ne hd
    rfl
  | pay | repayUnused =>
    simp only [loadStep] at hs
    split at hs <;> cases hs
    · obtain rfl := setDebt_ne hd
      rfl
    · exact same rfl
  | first | confirm | candidate =>
    simp only [loadStep, Option.map_eq_some_iff] at hs
    obtain ⟨_, _, he⟩ := hs
    cases he
    exact same rfl
  | enter | setAddr =>
    simp only [loadStep] at hs
    split at hs <;> cases hs <;> exact same rfl
  | inc c =>
    cases hs
    exact same (m.inc_debt c)
  | dec c =>
    cases hs
    exact same (m.dec_debt c)
  | decUnused c =>
    cases hs
    exact same (m.dec_debt c)
  | done => cases hs
  | _ =>
    cases hs
    exact same rfl

variable {σ σ' σ₁ σ₂ : State Thr Sto} {cfg : Config Thr Sto}

theorem LoadPc.step_unconfirmed (cfg : Config Thr Sto) {pc : LoadPc Thr}
    (hu : pc.unconfirmed = some c) (hs : loadStep cfg t m S k pc = some (m', pre)) :
    m'.epoch = m.epoch ∧ ∃ pc', pre = [k pc'] ∧
      ((∃ g, pc = .setSlot g c ∧ pc' = .setIdle g c ∧ m'.debt (helpingSlot t) = c) ∨
      (∀ g, pc ≠ .setSlot g c) ∧ ((pc'.unconfirmed = some c ∧ (∀ g, pc' ≠ .setSlot g c) ∧
        m'.debt = m.debt) ∨ pc'.unconfirmed = none ∧
          ∀ r, pc' = .decUnused c r → m.debt (helpingSlot t) ≠ c)) := by
  constructor
  · rw [(loadStep_internal cfg t k hs).epoch]
  cases pc with
  | setSlot g c' =>
    cases hu
    cases hs
    exact ⟨_, rfl, .inl ⟨g, rfl, rfl, Function.update_self ..⟩⟩
  | setIdle g c' =>
    cases hu
    cases hs
    refine ⟨_, rfl, .inr ⟨by simp, ?_⟩⟩
    split
    · exact .inr ⟨rfl, by simp⟩
    · exact .inl ⟨rfl, by simp, rfl⟩
  | envelope g c' space p =>
    cases hu
    cases hs
    exact ⟨_, rfl, .inr ⟨by simp, .inl ⟨rfl, by simp, rfl⟩⟩⟩
  | offer c' r space =>
    cases hu
    cases hs
    exact ⟨_, rfl, .inr ⟨by simp, .inl ⟨rfl, by simp, rfl⟩⟩⟩
  | repayUnused c' r =>
    cases hu
    simp only [loadStep] at hs
    split at hs <;> cases hs
    · exact ⟨_, rfl, .inr ⟨by simp, .inr ⟨rfl, by simp⟩⟩⟩
    · rename_i hd
      exact ⟨_, rfl, .inr ⟨by simp, .inr ⟨rfl, fun _ _ => hd⟩⟩⟩
  | _ => cases hu

variable [DecidableEq Sto]

theorem Frame.step_payment (cfg : Config Thr Sto) (t : Thr) {f : Frame Thr Sto}
    (hs : f.step cfg t m sp = some (m', pre)) (hl : ∀ S since full pc, f ≠ .load S since full pc)
    (hd : m'.debt d ≠ m.debt d) : f.payment = some (d, m.debt d) := by
  have none : m'.debt = m.debt → f.payment = some (d, m.debt d) := fun h => absurd (congrFun h d) hd
  cases f with
  | user => cases hs
  | panic => cases hs
  | load S since full pc => exact absurd rfl (hl S since full pc)
  | intoInner src g pc =>
    cases pc with
    | start =>
      simp only [Frame.step, innerStep] at hs
      split at hs <;> cases hs
      · exact none rfl
      · exact none (m.inc_debt g.ptr)
    | pay x =>
      simp only [Frame.step, innerStep] at hs
      split at hs <;> cases hs
      · rename_i hp
        obtain rfl := setDebt_ne hd
        rw [Frame.payment, hp]
      · exact none rfl
    | dec =>
      cases hs
      exact none (m.dec_debt g.ptr)
    | done => cases hs
  | guardDrop g pc =>
    obtain ⟨x, p⟩ := g
    cases pc with
    | start =>
      cases x with
      | none =>
        cases hs
        exact none rfl
      | some x =>
        simp only [Frame.step, dropStep] at hs
        split at hs <;> cases hs
        · rename_i hp
          obtain rfl := setDebt_ne hd
          rw [Frame.payment, hp]
        · exact none rfl
    | dec =>
      cases hs
      exact none (m.dec_debt p)
    | done => cases hs
  | payAll ptr S pc =>
    cases pc with
    | slot n todo j =>
      simp only [Frame.step, payStep] at hs
      split at hs <;> cases hs
      · rename_i hp
        obtain rfl := setDebt_ne hd
        rw [Frame.payment, hp]
      · exact none rfl
    | help n todo h =>
      have hq : m'.debt = m.debt := by
        cases h with
        | addr | exchange =>
          simp only [Frame.step, payStep, helpStep] at hs
          split at hs <;> cases hs <;> rfl
        | await => cases hs
        | drop v r =>
          cases hs
          exact m.dec_debt r
        | _ =>
          cases hs
          rfl
      exact none hq
    | start =>
      simp only [Frame.step, payStep] at hs
      split at hs <;> cases hs
      exact none (m.inc_debt ptr)
    | next todo => cases todo <;> cases hs <;> exact none rfl
    | inc =>
      cases hs
      exact none (m.inc_debt ptr)
    | dec =>
      cases hs
      exact none (m.dec_debt ptr)
    | done => cases hs
    | _ =>
      cases hs
      exact none rfl
  | swap op S new pc =>
    cases pc with
    | start =>
      simp only [Frame.step, swapStep, Option.map_eq_some_iff] at hs
      obtain ⟨old, _, he⟩ := hs
      cases he
      exact none rfl
    | await => cases hs
    | done => cases hs
  | discard pc =>
    cases pc with
    | dec a =>
      cases hs
      exact none (m.dec_debt a)
    | await => cases hs
    | done => cases hs
  | cas op S current new dst pc =>
    cases pc with
    | retry =>
      cases hs
      exact none rfl
    | exchange old =>
      simp only [Frame.step, casStep, Option.map_eq_some_iff] at hs
      obtain ⟨ptr, _, he⟩ := hs
      split at he <;> cases he <;> exact none rfl
    | dec old u =>
      cases hs
      exact none (m.dec_debt old.ptr)
    | dropNew old =>
      cases hs
      exact none (m.dec_debt new)
    | _ => cases hs
  | rcu op S pc =>
    cases pc with
    | compare cur prev arg res =>
      simp only [Frame.step, rcuStep] at hs
      split at hs <;> cases hs <;> exact none rfl
    | release =>
      cases hs
      exact none rfl
    | _ => cases hs

/-- The debts of a node change only in steps of its own loads, or when somebody pays them. -/
theorem threadStep_payment (hn : NodeOk w m t st) (hs : threadStep cfg t m free st act = some (m', st'))
    (hne : d.1 ≠ t) (hd : m'.debt d ≠ m.debt d) :
    m'.epoch = m.epoch ∧ ∃ f ∈ st.head?, f.payment = some (d, m.debt d) := by
  have same : m'.debt = m.debt →
      m'.epoch = m.epoch ∧ ∃ f ∈ st.head?, f.payment = some (d, m.debt d) :=
    fun h => absurd (congrFun h d) hd
  rcases threadStep_cases hs with ⟨sp, f, rest, pre, _, rfl, hf, _⟩ | ⟨_, h⟩ | ⟨_, h, _⟩ | ⟨_, h⟩
  · constructor
    · rcases (Frame.step_cases cfg t hf).internal_or_write with hi | hw
      · exact hi.epoch
      · cases hw <;> rfl
    · refine ⟨f, rfl, Frame.step_payment cfg t hf ?_ hd⟩
      intro S since full pc hf'
      subst hf'
      rcases Frame.step_load hf with ⟨_, _, _, rfl, _⟩ | hl
      · exact hd rfl
      · exact hne (loadStep_debt_own cfg hn.top hl hd)
  · obtain ⟨f, v, rest, _, _, ⟨rfl, _⟩ | ⟨_, _, _, _, _, rfl, _⟩⟩ := retStep_cases h
    · cases v <;> exact same rfl
    · exact same (by rw [Shared.recordFor_eq])
  · rw [claimStep] at h
    split at h <;> cases h
    exact same rfl
  · have hw := userStep_write h
    clear h hs
    cases hw with
    | same _ _ _ _ _ hd' => exact same hd'
    | alloc h =>
      apply same
      rw [allocate_eq h]
      rfl
    | create _ h =>
      apply same
      rw [takeHandle_eq h]
      rfl
    | remove => exact same rfl

/-- A debt for `c` in the helping slot of `t` is only paid while the object of epoch `e` is still
the one at `c`. -/
def PaidInTime (t : Thr) (c e : Nat) (l : Thr × Action Thr Sto) (s : State Thr Sto) : Prop :=
  ∀ f ∈ (s.stack l.1).head?, f.payment = some (helpingSlot t, c) →
    s.mem.debt (helpingSlot t) = c → s.mem.epoch c = e

/-- Once the debt for the candidate has been paid, the candidate is the object that was read. -/
structure CandidateKept (t : Thr) (S : Sto) (since : Stamp) (full : Bool)
    (rest : List (Frame Thr Sto)) (c e : Nat) (pc : LoadPc Thr) (s : State Thr Sto) : Prop where
  stack : s.stack t = .load S since full pc :: rest
  paid : pc.unconfirmed = some c → (∀ g, pc ≠ .setSlot g c) → s.mem.debt (helpingSlot t) ≠ c →
    s.mem.epoch c = e
  released : ∀ r, pc = .decUnused c r → s.mem.epoch c = e

variable [Fintype Thr]

def unconfirmed (t : Thr) (S : Sto) (since : Stamp) (full : Bool) (s : State Thr Sto) :
    Option Nat :=
  match s.loading t with
  | some (S', since', full', pc) =>
    if S' = S ∧ since' = since ∧ full' = full then pc.unconfirmed else none
  | none => none

section
omit [DecidableEq Thr] [Fintype Thr]

end

theorem CandidateKept.own
    (hk : CandidateKept t S since full rest c e pc σ) (hu : pc.unconfirmed = some c)
    (hs : State.step cfg (t, act) σ = some σ') :
    ∃ pc', CandidateKept t S since full rest c e pc' σ' := by
  obtain ⟨m', st', ht, rfl⟩ := State.step_cases hs
  have hst := hk.stack
  rcases threadStep_cases ht with ⟨sp, f, rest', pre, _, he, hf, rfl⟩ | ⟨_, h⟩ | ⟨_, h, rfl⟩ | ⟨hat, h⟩
  · obtain ⟨rfl, rfl⟩ := List.cons.inj (hst.symm.trans he)
    have hl : loadStep cfg t σ.mem S (.load S since full) pc = some (m', pre) := by
      rcases Frame.step_load hf with ⟨g, rfl, _⟩ | hl
      · cases hu
      · exact hl
    obtain ⟨hepoch, pc', rfl, h⟩ := LoadPc.step_unconfirmed cfg hu hl
    refine ⟨pc', Function.update_self .., ?_, ?_⟩
    · intro hu' _ hd
      change m'.epoch c = e
      rcases h with ⟨g, _, _, hslot⟩ | ⟨hset, ⟨_, _, hdebt⟩ | ⟨hn, _⟩⟩
      · exact absurd hslot hd
      · rw [hepoch]
        exact hk.paid hu hset (fun h => hd ((congrFun hdebt _).trans h))
      · cases hn.symm.trans hu'
    · intro r hr'
      change m'.epoch c = e
      rcases h with ⟨g, _, hp, _⟩ | ⟨hset, ⟨hu', _⟩ | ⟨_, hd⟩⟩
      · cases hp.symm.trans hr'
      · rw [hr'] at hu'
        cases hu'
      · rw [hepoch]
        exact hk.paid hu hset (hd r hr')
  · obtain ⟨f, v, rest', he, hv, _⟩ := retStep_cases h
    obtain ⟨rfl, rfl⟩ := List.cons.inj (hst.symm.trans he)
    cases pc <;> cases hu <;> cases full <;> cases hv
  · rw [claimStep] at h
    split at h <;> cases h
    exact ⟨pc, by simpa using hst, hk.paid, hk.released⟩
  · rw [hst] at hat
    cases hat

variable [Fintype Sto]

/-- The candidate stays as long as its debt has been paid and the load has not noticed. -/
theorem stays_of_paid (hr : (machine cfg).Reach ok σ)
    (hst : σ.stack t = .load S since full pc :: rest) (hc : pc.unconfirmed = some c)
    (hs : ∀ g, pc ≠ .setSlot g c) (hd : σ.mem.debt (helpingSlot t) ≠ c) : σ.mem.Stays c := by
  apply stays_of_strong
  intro ha ha3
  have hu := le_sum_count (F := fun t => (σ.stack t).flatMap (Frame.unresolved t)) (t := t)
    (x := ⟨some (helpingSlot t), c⟩) (by
      rw [hst]
      cases pc with
      | setSlot g c' =>
        cases hc
        exact absurd rfl (hs g)
      | setIdle | envelope | offer | repayUnused =>
        cases hc
        simp [Frame.unresolved]
      | _ => cases hc)
  have hsum := σ.refs_some (helpingSlot t) c
  apply Nat.zero_lt_of_lt
  apply handles_lt_of_recorded hr ha ha3 (d := helpingSlot t) (by omega)
  intro _ he
  exact absurd he hd

theorem CandidateKept.other (hr : (machine cfg).Reach ok σ)
    (hk : CandidateKept t S since full rest c e pc σ) (hu : pc.unconfirmed = some c)
    (hne : t ≠ l.1) (hp : PaidInTime t c e l σ) (hs : State.step cfg l σ = some σ') :
    CandidateKept t S since full rest c e pc σ' := by
  obtain ⟨m', st', ht, rfl⟩ := State.step_cases hs
  refine ⟨(Function.update_of_ne hne ..).trans hk.stack, ?_, ?_⟩
  · intro _ hset hd
    have hd : m'.debt (helpingSlot t) ≠ c := hd
    by_cases hd' : σ.mem.debt (helpingSlot t) = c
    · obtain ⟨he, f, hf, hpay⟩ := threadStep_payment ((Protocol.reach hr).node l.1) ht
        (d := helpingSlot t) hne (by rw [hd']; exact hd)
      rw [hd'] at hpay
      exact (congrFun he c).trans (hp f hf hpay hd')
    · exact (threadStep_epoch ht (stays_of_paid hr hk.stack hu hset hd')).trans (hk.paid hu hset hd')
  · rintro r rfl
    cases hu

instance (t : Thr) (c e : Nat) (l : Thr × Action Thr Sto) (s : State Thr Sto) :
    Decidable (PaidInTime t c e l s) :=
  inferInstanceAs (Decidable (∀ f ∈ (s.stack l.1).head?, f.payment = some (helpingSlot t, c) →
    s.mem.debt (helpingSlot t) = c → s.mem.epoch c = e))

end ArcSwap
