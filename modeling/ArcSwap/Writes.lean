import ArcSwap.Run

namespace ArcSwap
set_option autoImplicit true

variable {Thr Sto : Type}

/-- A step that leaves alone what only writers, user code and returns change. -/
structure Internal (m m' : Shared Thr Sto) : Prop where
  storage : m'.storage = m.storage
  log : m'.log = m.log
  handles : m'.handles = m.handles
  guards : m'.guards = m.guards
  epoch : m'.epoch = m.epoch
  nextOp : m'.nextOp = m.nextOp
  calls : m'.calls = m.calls

/-- At most, debts are paid. -/
def Paid (m m' : Shared Thr Sto) : Prop := ∀ d, m'.debt d = m.debt d ∨ m'.debt d = debtNone

variable [DecidableEq Thr] [DecidableEq Sto]

/-- The two steps of the library that replace the content of a storage. -/
inductive Write (m : Shared Thr Sto) :
    Frame Thr Sto → Shared Thr Sto → List (Frame Thr Sto) → Prop
  | swap (h : m.storage S = some old) :
    Write m (.swap op S new .start) (m.setStorage op S (some new))
      [.payAll old S .start,
        .swap op S new (.await old ⟨op, some (m.objAt old), some (m.objAt new)⟩)]
  | cas (h : m.storage S = some current) :
    Write m (.cas op S current new dst (.exchange old)) (m.setStorage op S (some new))
      [.payAll old.ptr S .start,
        .cas op S current new dst (.pay old ⟨op, some (m.objAt current), some dst⟩)]

/-- The steps of activations: those of loads and of `pay_all`, writes, and others. -/
inductive FrameStep (cfg : Config Thr Sto) (t : Thr) (m : Shared Thr Sto) :
    Frame Thr Sto → Shared Thr Sto → List (Frame Thr Sto) → Prop
  | load (hs : loadStep cfg t m S (.load S since full) pc = some (m', pre)) :
    FrameStep cfg t m (.load S since full pc) m' pre
  | pay (hs : payStep t m ptr S (.payAll ptr S) pc = some (m', pre)) :
    FrameStep cfg t m (.payAll ptr S pc) m' pre
  | write (hw : Write m f m' pre) : FrameStep cfg t m f m' pre
  | other (hi : Internal m m') (hp : Paid m m') (hf : ∀ ptr S pc, f ≠ .payAll ptr S pc)
    (hl : ∀ S since full pc, f = .load S since full pc → ∃ g, pc = .done g) :
    FrameStep cfg t m f m' pre

/-- What user code changes of the objects and storages. -/
inductive UserWrite (m : Shared Thr Sto) (free : Sto → Bool) (act : Action Thr Sto)
    (st : List (Frame Thr Sto)) : Shared Thr Sto → List (Frame Thr Sto) → Prop
  | same (hs : m'.storage = m.storage) (hl : m'.log = m.log) (he : m'.epoch = m.epoch)
    (hc : m'.calls = m.calls) (hn : m.nextOp ≤ m'.nextOp) (hd : m'.debt = m.debt) :
    UserWrite m free act st m' st'
  | alloc (h : m.allocate a = some m') (ha : act = .alloc a) :
    UserWrite m free act st (m'.addHandle a) st
  | create (hS : m.storage S = none) (h : m.takeHandle a = some m') :
    UserWrite m free act st (m'.setStorage m.nextOp S (some a)).newOp st
  | remove (hf : free S = true) (hS : m.storage S = some a)
    (hst : st' = .payAll a S .start :: st ∨ st' = .payAll a S .start :: .discard .await :: st) :
    UserWrite m free act st (m.setStorage m.nextOp S none).newOp st'

variable {m m' : Shared Thr Sto} {pre st st' : List (Frame Thr Sto)}

section
omit [DecidableEq Thr] [DecidableEq Sto]

theorem Shared.inc_debt (m : Shared Thr Sto) (a : Nat) : (m.inc a).debt = m.debt := by
  rw [Shared.inc]
  split <;> rfl

theorem Shared.dec_debt (m : Shared Thr Sto) (a : Nat) : (m.dec a).debt = m.debt := by
  rw [Shared.dec]
  split <;> rfl

theorem Internal.refl (m : Shared Thr Sto) : Internal m m := ⟨rfl, rfl, rfl, rfl, rfl, rfl, rfl⟩

theorem Internal.inc (m : Shared Thr Sto) (a : Nat) : Internal m (m.inc a) := by
  rw [Shared.inc]
  split <;> exact ⟨rfl, rfl, rfl, rfl, rfl, rfl, rfl⟩

theorem Internal.dec (m : Shared Thr Sto) (a : Nat) : Internal m (m.dec a) := by
  rw [Shared.dec]
  split <;> exact ⟨rfl, rfl, rfl, rfl, rfl, rfl, rfl⟩

theorem Internal.release {f : Frame Thr Sto} (hs : release m a f = (m', pre)) : Internal m m' := by
  cases hs
  exact .dec m a

theorem Paid.of_eq (h : m'.debt = m.debt) : Paid m m' := fun d => .inl (congrFun h d)

theorem Paid.inc (m : Shared Thr Sto) (a : Nat) : Paid m (m.inc a) := .of_eq (m.inc_debt a)

theorem Paid.dec (m : Shared Thr Sto) (a : Nat) : Paid m (m.dec a) := .of_eq (m.dec_debt a)

end

section
omit [DecidableEq Sto]

theorem Paid.pay (m : Shared Thr Sto) (d : Debt Thr) : Paid m (m.setDebt d debtNone) := by
  intro d'
  by_cases h : d' = d
  · subst h
    exact .inr (Function.update_self ..)
  · exact .inl (Function.update_of_ne h ..)

theorem loadStep_internal (cfg : Config Thr Sto) (t : Thr) (k : LoadPc Thr → Frame Thr Sto)
    (hs : loadStep cfg t m S k pc = some (m', pre)) : Internal m m' := by
  cases pc with
  | first | confirm | candidate =>
    simp only [loadStep, Option.map_eq_some_iff] at hs
    obtain ⟨_, _, he⟩ := hs
    cases he
    exact .refl m
  | enter | repay | setAddr | pay | repayUnused =>
    simp only [loadStep] at hs
    split at hs <;> cases hs <;> exact ⟨rfl, rfl, rfl, rfl, rfl, rfl, rfl⟩
  | inc c =>
    cases hs
    exact .inc m c
  | dec | decUnused =>
    simp only [loadStep, Option.some.injEq] at hs
    exact .release hs
  | done => cases hs
  | _ =>
    cases hs
    exact ⟨rfl, rfl, rfl, rfl, rfl, rfl, rfl⟩

end

theorem helpStep_internal (t : Thr) (k : PayPc Thr → Frame Thr Sto)
    (hs : helpStep t m S k n todo h = some (m', pre)) : Internal m m' ∧ Paid m m' := by
  cases h with
  | addr | exchange =>
    simp only [helpStep] at hs
    split at hs <;> cases hs <;> exact ⟨⟨rfl, rfl, rfl, rfl, rfl, rfl, rfl⟩, .of_eq rfl⟩
  | await => cases hs
  | drop v r =>
    cases hs
    exact ⟨.dec m r, .dec m r⟩
  | _ =>
    cases hs
    exact ⟨⟨rfl, rfl, rfl, rfl, rfl, rfl, rfl⟩, .of_eq rfl⟩

theorem payStep_internal (t : Thr) (k : PayPc Thr → Frame Thr Sto)
    (hs : payStep t m ptr S k pc = some (m', pre)) : Internal m m' ∧ Paid m m' := by
  cases pc with
  | start =>
    simp only [payStep] at hs
    split at hs <;> cases hs
    exact ⟨.inc m ptr, .inc m ptr⟩
  | next todo =>
    cases todo <;> cases hs <;> exact ⟨⟨rfl, rfl, rfl, rfl, rfl, rfl, rfl⟩, .of_eq rfl⟩
  | help n todo h => exact helpStep_internal t k hs
  | slot n todo j =>
    simp only [payStep] at hs
    split at hs <;> cases hs
    · exact ⟨⟨rfl, rfl, rfl, rfl, rfl, rfl, rfl⟩, .pay m (n, j)⟩
    · exact ⟨.refl m, .of_eq rfl⟩
  | inc n todo j =>
    cases hs
    exact ⟨.inc m ptr, .inc m ptr⟩
  | dec =>
    cases hs
    exact ⟨.dec m ptr, .dec m ptr⟩
  | done => cases hs
  | _ =>
    cases hs
    exact ⟨⟨rfl, rfl, rfl, rfl, rfl, rfl, rfl⟩, .of_eq rfl⟩

theorem Frame.step_cases (cfg : Config Thr Sto) (t : Thr) {f : Frame Thr Sto}
    (hs : f.step cfg t m sp = some (m', pre)) : FrameStep cfg t m f m' pre := by
  cases f with
  | user => cases hs
  | panic => cases hs
  | load S since full pc =>
    rcases Frame.step_load hs with ⟨g, rfl, rfl, rfl, rfl⟩ | hs
    · refine .other (.refl _) (.of_eq rfl) (by simp) ?_
      rintro _ _ _ _ ⟨⟩
      exact ⟨g, rfl⟩
    · exact .load hs
  | payAll ptr S pc => exact .pay hs
  | intoInner src g pc =>
    cases pc with
    | start =>
      simp only [Frame.step, innerStep] at hs
      split at hs <;> cases hs
      · exact .other (.refl m) (.of_eq rfl) (by simp) (by simp)
      · exact .other (.inc m g.ptr) (.inc m g.ptr) (by simp) (by simp)
    | pay d =>
      simp only [Frame.step, innerStep] at hs
      split at hs <;> cases hs
      · exact .other ⟨rfl, rfl, rfl, rfl, rfl, rfl, rfl⟩ (.pay m d) (by simp) (by simp)
      · exact .other (.refl m) (.of_eq rfl) (by simp) (by simp)
    | dec =>
      cases hs
      exact .other (.dec m g.ptr) (.dec m g.ptr) (by simp) (by simp)
    | done => cases hs
  | guardDrop g pc =>
    cases pc with
    | start =>
      simp only [Frame.step, dropStep] at hs
      split at hs
      · cases hs
        exact .other (.refl m) (.of_eq rfl) (by simp) (by simp)
      · rename_i d _
        split at hs <;> cases hs
        · exact .other ⟨rfl, rfl, rfl, rfl, rfl, rfl, rfl⟩ (.pay m d) (by simp) (by simp)
        · exact .other (.refl m) (.of_eq rfl) (by simp) (by simp)
    | dec =>
      cases hs
      exact .other (.dec m g.ptr) (.dec m g.ptr) (by simp) (by simp)
    | done => cases hs
  | swap op S new pc =>
    cases pc with
    | start =>
      simp only [Frame.step, swapStep, Option.map_eq_some_iff] at hs
      obtain ⟨old, hS, he⟩ := hs
      cases he
      exact .write (.swap hS)
    | await => cases hs
    | done => cases hs
  | discard pc =>
    cases pc with
    | await => cases hs
    | dec a =>
      cases hs
      exact .other (.dec m a) (.dec m a) (by simp) (by simp)
    | done => cases hs
  | cas op S current new dst pc =>
    cases pc with
    | retry =>
      cases hs
      exact .other ⟨rfl, rfl, rfl, rfl, rfl, rfl, rfl⟩ (.of_eq rfl) (by simp) (by simp)
    | exchange old =>
      simp only [Frame.step, casStep, Option.map_eq_some_iff] at hs
      obtain ⟨ptr, hS, he⟩ := hs
      split at he
      · rename_i hc
        cases he
        obtain rfl := hc.1
        exact .write (.cas hS)
      · cases he
        exact .other (.refl m) (.of_eq rfl) (by simp) (by simp)
    | dec old u =>
      cases hs
      exact .other (.dec m old.ptr) (.dec m old.ptr) (by simp) (by simp)
    | dropNew old =>
      cases hs
      exact .other (.dec m new) (.dec m new) (by simp) (by simp)
    | _ => cases hs
  | rcu op S pc =>
    cases pc with
    | compare cur prev arg res =>
      simp only [Frame.step, rcuStep] at hs
      split at hs <;> cases hs <;> exact .other (.refl m) (.of_eq rfl) (by simp) (by simp)
    | release cur ret arg res =>
      cases hs
      exact .other (.refl m) (.of_eq rfl) (by simp) (by simp)
    | _ => cases hs

/-- The library's own steps replace the content of a storage or leave all of it alone. -/
theorem FrameStep.internal_or_write {f : Frame Thr Sto} (h : FrameStep cfg t m f m' pre) :
    Internal m m' ∨ Write m f m' pre := by
  cases h with
  | load hs => exact .inl (loadStep_internal cfg t _ hs)
  | pay hs => exact .inl (payStep_internal t _ hs).1
  | write hw => exact .inr hw
  | other hi => exact .inl hi

theorem userStep_write (hs : userStep m free st act = some (m', st')) :
    UserWrite m free act st m' st' := by
  have clone : ∀ {act} a, UserWrite m free act st ((m.inc a).addHandle a) st := by
    intro act a
    have hi := Internal.inc m a
    exact .same hi.storage hi.log hi.epoch hi.calls hi.nextOp.ge (m.inc_debt a)
  have taken : ∀ {act} {m₁ : Shared Thr Sto} {a st'}, m.takeHandle a = some m₁ →
      UserWrite m free act st m₁ st' := by
    intro act m₁ a st' h
    rw [takeHandle_eq h]
    exact .same rfl rfl rfl rfl (Nat.le_refl _) rfl
  have takenG : ∀ {act} {m₁ : Shared Thr Sto} {g st'}, m.takeGuard g = some m₁ →
      UserWrite m free act st m₁ st' := by
    intro act m₁ a st' h
    rw [takeGuard_eq h]
    exact .same rfl rfl rfl rfl (Nat.le_refl _) rfl
  cases act with
  | alloc a =>
    simp only [userStep, Option.map_eq_some_iff] at hs
    obtain ⟨m₁, h₁, he⟩ := hs
    cases he
    exact .alloc h₁ rfl
  | clone a =>
    simp only [userStep] at hs
    split at hs <;> cases hs
    exact clone a
  | cloneGuard g =>
    simp only [userStep] at hs
    split at hs <;> cases hs
    exact clone g.ptr
  | cloneCur =>
    simp only [userStep] at hs
    split at hs <;> cases hs
    exact clone _
  | create S a =>
    simp only [userStep] at hs
    split at hs
    · rename_i hS
      simp only [Option.map_eq_some_iff] at hs
      obtain ⟨m₁, h₁, he⟩ := hs
      cases he
      exact .create hS.1 h₁
    · cases hs
  | load | loadFull =>
    simp only [userStep, Option.map_eq_some_iff] at hs
    obtain ⟨_, _, he⟩ := hs
    cases he
    exact .same rfl rfl rfl rfl (Nat.le_refl _) rfl
  | rcu =>
    simp only [userStep, Option.map_eq_some_iff] at hs
    obtain ⟨_, _, he⟩ := hs
    cases he
    exact .same rfl rfl rfl rfl (Nat.le_succ _) rfl
  | dropHandle =>
    simp only [userStep, Option.map_eq_some_iff] at hs
    obtain ⟨m₁, h₁, he⟩ := hs
    cases he
    exact taken h₁
  | swap | cas | store =>
    simp only [userStep, Option.bind_eq_some_iff, Option.map_eq_some_iff] at hs
    obtain ⟨_, _, m₁, h₁, he⟩ := hs
    cases he
    rw [takeHandle_eq h₁]
    exact .same rfl rfl rfl rfl (Nat.le_succ _) rfl
  | intoInner S =>
    simp only [userStep] at hs
    split at hs
    · simp only [Option.map_eq_some_iff] at hs
      obtain ⟨p, hS, he⟩ := hs
      cases he
      exact .remove (by assumption) hS (.inl rfl)
    · cases hs
  | dropStorage S =>
    simp only [userStep] at hs
    split at hs
    · simp only [Option.map_eq_some_iff] at hs
      obtain ⟨p, hS, he⟩ := hs
      cases he
      exact .remove (by assumption) hS (.inr rfl)
    · cases hs
  | guardDrop g | guardIntoInner g =>
    simp only [userStep, Option.map_eq_some_iff] at hs
    obtain ⟨m₁, h₁, he⟩ := hs
    cases he
    exact takenG h₁
  | guardFromInner a =>
    simp only [userStep, Option.map_eq_some_iff] at hs
    obtain ⟨m₁, h₁, he⟩ := hs
    cases he
    rw [takeHandle_eq h₁]
    exact .same rfl rfl rfl rfl (Nat.le_refl _) rfl
  | closureRet new =>
    simp only [userStep, closureStep] at hs
    split at hs
    · simp only [Option.map_eq_some_iff] at hs
      obtain ⟨m₁, h₁, he⟩ := hs
      cases he
      exact taken h₁
    · cases hs
  | userRet =>
    simp only [userStep] at hs
    split at hs <;> cases hs
    exact .same rfl rfl rfl rfl (Nat.le_refl _) rfl
  | run => cases hs
  | ret => cases hs
  | claim => cases hs

section
omit [DecidableEq Thr] [DecidableEq Sto]

theorem allocate_eq (h : m.allocate a = some m') :
    m' = { m with strong := m'.strong, epoch := m'.epoch } := by
  rw [Shared.allocate] at h
  split at h <;> cases h
  rfl

end

section
omit [DecidableEq Sto]

theorem Shared.give_epoch (m : Shared Thr Sto) (v : Ret Thr) : (m.give v).epoch = m.epoch := by
  cases v <;> rfl

end

/-- An address that no new object can be given. -/
def Shared.Stays (m : Shared Thr Sto) (a : Nat) : Prop :=
  a = 0 ∨ a = debtNone ∨ 0 < m.strong a

/-- The allocation of an object at the address. -/
def Action.allocates (a : Nat) : Action Thr Sto → Bool
  | .alloc b => b = a
  | _ => false

theorem userStep_allocates (hs : userStep m free st act = some (m', st')) (a : Nat) :
    m'.epoch a = m.epoch a + if act.allocates a then 1 else 0 := by
  cases act with
  | alloc b =>
    simp only [userStep, Option.map_eq_some_iff] at hs
    obtain ⟨m₁, h, he⟩ := hs
    cases he
    rw [Shared.allocate] at h
    split at h <;> cases h
    by_cases hb : b = a
    · subst hb
      simp [Shared.addHandle, Action.allocates]
    · simp [Shared.addHandle, Action.allocates, hb, Function.update_of_ne (Ne.symm hb)]
  | _ =>
    have hw := userStep_write hs
    clear hs
    cases hw with
    | same _ _ he =>
      rw [he]
      rfl
    | alloc _ ha => cases ha
    | create _ h =>
      rw [takeHandle_eq h]
      rfl
    | remove => rfl

theorem threadStep_allocates (hs : threadStep cfg t m free st act = some (m', st')) (a : Nat) :
    m'.epoch a = m.epoch a + if act.allocates a then 1 else 0 := by
  rcases threadStep_cases hs with ⟨sp, f, rest, pre, rfl, _, hf, _⟩ | ⟨rfl, h⟩ | ⟨rfl, h, _⟩ | ⟨_, h⟩
  · rcases (Frame.step_cases cfg t hf).internal_or_write with hi | hw
    · rw [hi.epoch]
      rfl
    · cases hw <;> rfl
  · obtain ⟨f, v, rest, _, _, ⟨rfl, _⟩ | ⟨_, _, _, _, _, rfl, _⟩⟩ := retStep_cases h
    · rw [Shared.give_epoch]
      rfl
    · rw [Shared.recordFor_eq]
      rfl
  · rw [claimStep] at h
    split at h <;> cases h
    rfl
  · exact userStep_allocates h a

theorem threadStep_epoch (hs : threadStep cfg t m free st act = some (m', st'))
    (ha : m.Stays a) : m'.epoch a = m.epoch a := by
  rcases threadStep_cases hs with ⟨sp, f, rest, pre, _, _, hf, _⟩ | ⟨_, h⟩ | ⟨_, h, _⟩ | ⟨_, h⟩
  · rcases (Frame.step_cases cfg t hf).internal_or_write with hi | hw
    · rw [hi.epoch]
    · cases hw <;> rfl
  · obtain ⟨f, v, rest, _, _, ⟨rfl, _⟩ | ⟨_, _, _, _, _, rfl, _⟩⟩ := retStep_cases h
    · rw [Shared.give_epoch]
      rfl
    · rw [Shared.recordFor_eq]
  · rw [claimStep] at h
    split at h <;> cases h
    rfl
  · have hw := userStep_write h
    clear h hs
    cases hw with
    | same _ _ he => rw [he]
    | @alloc b m₁ h =>
      rw [Shared.allocate] at h
      split at h
      · cases h
      · rename_i hb
        cases h
        apply Function.update_of_ne
        rintro rfl
        exact hb (ha.imp id (.imp id Nat.ne_of_gt))
    | create _ h =>
      rw [takeHandle_eq h]
      rfl
    | remove => rfl

theorem State.step_epoch [Fintype Thr] {σ σ' : State Thr Sto}
    (hs : State.step cfg l σ = some σ') (ha : σ.mem.Stays a) :
    σ'.mem.epoch a = σ.mem.epoch a := by
  obtain ⟨m', st', ht, rfl⟩ := State.step_cases hs
  exact threadStep_epoch ht ha

end ArcSwap
