import ArcSwap.RwLock.Model
import ArcSwap.Transfer

namespace ArcSwap.RwLock
set_option autoImplicit true

variable {Thr Sto : Type}

/-- The counted references an activation owns. A load and a `compare_and_swap` that fails have none
to the pointer they have found before they have incremented its count. -/
def Frame.owned : Frame Sto → List Nat
  | .user => []
  | .load _ _ pc =>
    match pc with
    | .unlock p _ | .done p _ => [p]
    | .lock | .read | .inc _ _ => []
  | .swap _ _ new _ => [new]
  | .wait _ ptr _ _ => [ptr]
  | .cas _ _ _ new pc =>
    match pc with
    | .lock | .exchange | .inc _ _ => [new]
    | .dropNew old => [old, new]
    | .unlock old | .done old => [old]
  | .discard ptr => ptr.toList

variable [Fintype Sto]

def Shared.stored (m : Shared Sto) (a : Nat) : Nat :=
  (Finset.univ.filter fun S => m.storage S = some a).card

/-- The account of the object at `a`, as far as the memory and activations that own the references
`L` go. There are no debts. -/
def account (m : Shared Sto) (L : List Nat) (a : Nat) : Concurrent.Account Empty where
  count := m.strong a
  slot d := d.elim
  refs _ := m.handles a + m.stored a + L.count a

/-- A step of an activation, seen from the accounts of all objects. -/
def Transfer (m : Shared Sto) (L : List Nat) (m' : Shared Sto) (L' : List Nat) : Prop :=
  ∀ a, a ≠ 0 → (account m L a).Move (account m' L' a)

variable {m m' : Shared Sto} {L L' R : List Nat} {pre rest st st' : List (Frame Sto)}

def Shared.refs (m : Shared Sto) (a : Nat) : Nat := m.handles a + m.stored a

theorem Transfer.move (hs : m'.strong = m.strong)
    (hr : ∀ a, a ≠ 0 → m'.refs a + L'.count a = m.refs a + L.count a) : Transfer m L m' L' :=
  fun a ha => .skip (congrFun hs a) (fun d => d.elim) (fun _ => hr a ha)

theorem unit_none (o : Option Empty) : Concurrent.unit o none = 1 := by
  cases o with
  | none => rfl
  | some d => exact d.elim

theorem Transfer.inc (hs : m'.strong = (m.inc p).strong)
    (hr : ∀ a, a ≠ 0 → m'.refs a + L'.count a = m.refs a + L.count a + [p].count a) :
    Transfer m L m' L' := by
  intro a ha
  have hr := hr a ha
  by_cases hp : p = a
  · subst hp
    refine .inc ?_ (fun d => d.elim) (fun o => ?_)
    · simp [account, hs, Shared.inc, ha]
    · rw [unit_none]
      simpa [account, Shared.refs] using hr
  · refine .skip ?_ (fun d => d.elim) (fun _ => by simpa [account, Shared.refs, hp] using hr)
    change m'.strong a = m.strong a
    rw [hs, Shared.inc]
    split
    · rfl
    · exact Function.update_of_ne (Ne.symm hp) ..

theorem Transfer.dec (hs : m'.strong = (m.dec p).strong)
    (hr : ∀ a, a ≠ 0 → m.refs a + L.count a = m'.refs a + L'.count a + [p].count a) :
    Transfer m L m' L' := by
  intro a ha
  have hr := hr a ha
  by_cases hp : p = a
  · subst hp
    refine .dec ?_ (fun d => d.elim) (fun o => ?_)
    · simp [account, hs, Shared.dec, ha]
    · rw [unit_none]
      simpa [account, Shared.refs] using hr
  · refine .skip ?_ (fun d => d.elim) (fun _ => by simpa [account, Shared.refs, hp] using hr.symm)
    change m'.strong a = m.strong a
    rw [hs, Shared.dec]
    split
    · rfl
    · exact Function.update_of_ne (Ne.symm hp) ..

theorem Transfer.append (h : Transfer m L m' L') (R : List Nat) :
    Transfer m (L ++ R) m' (L' ++ R) := by
  intro a ha
  have hR : ∀ (m : Shared Sto) (L : List Nat),
      account m (L ++ R) a = (account m L a).add fun _ => R.count a := by
    intro m L
    simp only [account, Concurrent.Account.add, List.count_append, Nat.add_assoc]
  rw [hR, hR]
  exact (h a ha).add _

theorem Shared.inc_refs (m : Shared Sto) (p : Nat) : (m.inc p).refs = m.refs := by
  rw [Shared.inc]
  split <;> rfl

theorem Shared.dec_refs (m : Shared Sto) (p : Nat) : (m.dec p).refs = m.refs := by
  rw [Shared.dec]
  split <;> rfl

theorem addHandle_refs (m : Shared Sto) (p a : Nat) :
    (m.addHandle p).refs a = m.refs a + [p].count a := by
  change Function.update m.handles p (m.handles p + 1) a + m.stored a =
    m.handles a + m.stored a + _
  rw [Function.update_apply, List.count_singleton]
  by_cases h : a = p
  · subst h
    simp only [if_true, beq_self_eq_true]
    omega
  · simp [h, Ne.symm h]

theorem takeHandle_refs (h : m.takeHandle p = some m') :
    m'.strong = m.strong ∧ ∀ a, a ≠ 0 → m.refs a = m'.refs a + [p].count a := by
  rw [Shared.takeHandle] at h
  split at h
  · cases h
    refine ⟨rfl, fun a ha => ?_⟩
    rename_i hp
    simp [hp, Ne.symm ha]
  · split at h <;> cases h
    rename_i hp
    refine ⟨rfl, fun a _ => ?_⟩
    change m.handles a + m.stored a =
      Function.update m.handles p (m.handles p - 1) a + m.stored a + _
    rw [Function.update_apply, List.count_singleton]
    by_cases h : a = p
    · subst h
      simp only [if_true, beq_self_eq_true]
      omega
    · simp [h, Ne.symm h]

theorem Transfer.gain (m : Shared Sto) (p : Nat) (h : L'.Perm (p :: L)) :
    Transfer m L (m.inc p) L' := by
  refine .inc rfl fun a _ => ?_
  rw [m.inc_refs, h.count_eq, List.count_cons, List.count_singleton]
  omega

theorem Transfer.release (f : Frame Sto) (h : L.Perm (p :: f.owned))
    (hs : release m p f = (m', pre)) : Transfer m L m' (pre.flatMap Frame.owned) := by
  obtain ⟨rfl, rfl⟩ := Prod.mk.inj hs
  have hpre : (if m.destroys p then [Frame.user, f] else [f]).flatMap Frame.owned = f.owned := by
    split <;> exact List.append_nil _
  refine .dec rfl fun a _ => ?_
  rw [m.dec_refs, hpre, h.count_eq, List.count_cons, List.count_singleton]
  omega

theorem Transfer.goto (hs : m'.strong = m.strong) (hr : m'.refs = m.refs) (h : L'.Perm L) :
    Transfer m L m' L' :=
  .move hs fun a _ => by rw [hr, h.count_eq]

theorem retStep_transfer (hs : retStep m st = some (m', st')) :
    Transfer m (st.flatMap Frame.owned) m' (st'.flatMap Frame.owned) := by
  cases st with
  | nil => cases hs
  | cons f st =>
    simp only [retStep, Option.map_eq_some_iff] at hs
    obtain ⟨v, hv, he⟩ := hs
    cases he
    have hf : f.owned = v.toList := by
      unfold Frame.result at hv
      split at hv <;> cases hv <;> rfl
    refine .move ?_ fun a _ => ?_
    · cases v <;> rfl
    · rw [List.flatMap_cons, List.count_append, hf]
      cases v with
      | none =>
        simp only [Shared.give, Option.toList_none, List.count_nil, Nat.zero_add]
        rfl
      | some p =>
        rw [Shared.give, addHandle_refs]
        change m.refs a + _ + _ = m.refs a + _
        simp only [Option.toList_some]
        omega

variable [DecidableEq Sto]

theorem setStorage_refs (m : Shared Sto) (op : Nat) (S : Sto) (new : Option Nat) (a : Nat) :
    (m.setStorage op S new).refs a + (m.storage S).toList.count a =
      m.refs a + new.toList.count a := by
  have hone : ∀ o : Option Nat, o.toList.count a = if o = some a then 1 else 0 := by
    intro o
    cases o with
    | none => rfl
    | some b =>
      rw [Option.toList_some, List.count_singleton]
      simp
  have h := card_update m.storage S new (some a)
  rw [hone, hone]
  change m.handles a + (Finset.univ.filter fun j =>
    Function.update m.storage S new j = some a).card + _ =
      m.handles a + (Finset.univ.filter fun j => m.storage j = some a).card + _
  omega

theorem Transfer.exchange (m : Shared Sto) (op : Nat) (S : Sto) (hS : m.storage S = some old) :
    Transfer m [new] (m.setStorage op S (some new)) [old] := by
  refine .move rfl fun a _ => ?_
  have h := setStorage_refs m op S (some new) a
  rw [hS] at h
  exact h

theorem loadStep_transfer (hs : loadStep m S (.load S since) pc = some (m', pre)) :
    Transfer m (Frame.load S since pc).owned m' (pre.flatMap Frame.owned) := by
  cases pc with
  | lock | read =>
    simp only [loadStep, Option.map_eq_some_iff] at hs
    obtain ⟨_, _, he⟩ := hs
    cases he
    exact .goto rfl rfl (.refl _)
  | inc p e =>
    cases hs
    exact .gain m p (.refl _)
  | unlock p e =>
    cases hs
    exact .goto rfl rfl (.refl _)
  | done => cases hs

theorem waitStep_transfer (hs : waitStep m S ptr keep (.wait S ptr keep) pc = some (m', pre)) :
    Transfer m (Frame.wait S ptr keep pc).owned m' (pre.flatMap Frame.owned) := by
  cases pc with
  | lock =>
    simp only [waitStep, Option.map_eq_some_iff] at hs
    obtain ⟨_, _, he⟩ := hs
    cases he
    exact .goto rfl rfl (.refl _)
  | unlock =>
    cases hs
    cases keep <;> exact .goto rfl rfl (.refl _)
  | done => cases hs

theorem casStep_transfer
    (hs : casStep m op S current new (.cas op S current new) pc = some (m', pre)) :
    Transfer m (Frame.cas op S current new pc).owned m' (pre.flatMap Frame.owned) := by
  cases pc with
  | lock =>
    simp only [casStep, Option.map_eq_some_iff] at hs
    obtain ⟨_, _, he⟩ := hs
    cases he
    exact .goto rfl rfl (.refl _)
  | exchange =>
    simp only [casStep, Option.map_eq_some_iff] at hs
    obtain ⟨old, hS, he⟩ := hs
    split at he <;> cases he
    · exact .exchange m op S hS
    · exact .goto rfl rfl (.refl _)
  | inc old e =>
    cases hs
    exact .gain m old (.refl _)
  | dropNew old =>
    apply Transfer.release (.cas op S current new (.unlock old)) (.swap ..)
    exact Option.some.inj hs
  | unlock old =>
    cases hs
    exact .goto rfl rfl (.refl _)
  | done => cases hs

theorem Frame.step_transfer {f : Frame Sto} (hs : f.step m = some (m', pre)) :
    Transfer m f.owned m' (pre.flatMap Frame.owned) := by
  cases f with
  | user => cases hs
  | load S since pc => exact loadStep_transfer hs
  | swap op S new keep =>
    simp only [Frame.step, Option.map_eq_some_iff] at hs
    obtain ⟨old, hS, he⟩ := hs
    cases he
    exact .exchange m op S hS
  | wait S ptr keep pc => exact waitStep_transfer hs
  | cas op S current new pc => exact casStep_transfer hs
  | discard ptr =>
    cases ptr with
    | none => cases hs
    | some a =>
      apply Transfer.release (.discard none) (.refl _)
      exact Option.some.inj hs

theorem userStep_transfer (hs : userStep m free st act = some (m', st')) :
    Transfer m (st.flatMap Frame.owned) m' (st'.flatMap Frame.owned) := by
  have enter : ∀ {m₁ : Shared Sto} (pre : List (Frame Sto)),
      Transfer m [] m₁ (pre.flatMap Frame.owned) →
      Transfer m (st.flatMap Frame.owned) m₁ ((pre ++ st).flatMap Frame.owned) := by
    intro m₁ pre h
    rw [List.flatMap_append]
    exact h.append _
  have took : ∀ {m₁ : Shared Sto} {p}, m.takeHandle p = some m₁ → Transfer m [] m₁ [p] := by
    intro m₁ p h
    obtain ⟨hstrong, hrefs⟩ := takeHandle_refs h
    refine .move hstrong fun a ha => ?_
    rw [hrefs a ha]
    rfl
  cases act with
  | alloc a =>
    simp only [userStep, Option.map_eq_some_iff] at hs
    obtain ⟨m₁, h₁, he⟩ := hs
    cases he
    rw [Shared.allocate] at h₁
    split at h₁
    · cases h₁
    · rename_i hfree
      cases h₁
      have hzero : m.strong a = 0 := by
        by_contra h
        exact hfree (.inr h)
      refine enter [] (.inc (p := a) ?_ fun b _ => ?_)
      · rw [Shared.inc, if_neg fun h => hfree (.inl h), hzero]
        rfl
      · rw [addHandle_refs]
        rfl
  | clone a =>
    simp only [userStep] at hs
    split at hs <;> cases hs
    refine enter [] (.inc (p := a) rfl fun b _ => ?_)
    rw [addHandle_refs, m.inc_refs]
    rfl
  | dropHandle a =>
    simp only [userStep, Option.map_eq_some_iff] at hs
    obtain ⟨m₁, h₁, he⟩ := hs
    cases he
    exact enter [_] (took h₁)
  | create S a =>
    simp only [userStep] at hs
    split at hs
    · rename_i hS
      simp only [Option.map_eq_some_iff] at hs
      obtain ⟨m₁, h₁, he⟩ := hs
      cases he
      obtain ⟨hstrong, hrefs⟩ := takeHandle_refs h₁
      refine enter [] (.move hstrong fun b hb => ?_)
      have hset := setStorage_refs m₁ m.nextOp S (some a) b
      have hnone : m₁.storage S = none := by
        rw [Shared.takeHandle] at h₁
        split at h₁
        · cases h₁
          exact hS.1
        · split at h₁ <;> cases h₁
          exact hS.1
      rw [hnone] at hset
      rw [hrefs b hb]
      exact hset
    · cases hs
  | load S =>
    simp only [userStep, Option.map_eq_some_iff] at hs
    obtain ⟨_, _, he⟩ := hs
    cases he
    exact enter [_] (.goto rfl rfl (.refl _))
  | swap | store | cas =>
    simp only [userStep, Option.bind_eq_some_iff, Option.map_eq_some_iff] at hs
    obtain ⟨_, _, m₁, h₁, he⟩ := hs
    cases he
    have ht := took h₁
    exact enter [_] fun b hb => ht b hb
  | intoInner S | dropStorage S =>
    simp only [userStep] at hs
    split at hs
    · simp only [Option.map_eq_some_iff] at hs
      obtain ⟨p, hS, he⟩ := hs
      cases he
      refine enter [_] (.move rfl fun b _ => ?_)
      have hset := setStorage_refs m m.nextOp S none b
      rw [hS] at hset
      exact hset
    · cases hs
  | userRet =>
    simp only [userStep] at hs
    split at hs <;> cases hs
    exact .goto rfl rfl (.refl _)
  | run => cases hs
  | ret => cases hs

theorem threadStep_transfer (hs : threadStep m free st act = some (m', st')) :
    Transfer m (st.flatMap Frame.owned) m' (st'.flatMap Frame.owned) := by
  rcases threadStep_cases hs with ⟨f, rest, pre, _, rfl, hf, rfl⟩ | ⟨_, hs⟩ | ⟨_, hs⟩
  · rw [List.flatMap_cons, List.flatMap_append]
    exact (Frame.step_transfer hf).append _
  · exact retStep_transfer hs
  · exact userStep_transfer hs

variable {σ σ' : State Thr Sto} [DecidableEq Thr] [Fintype Thr]

def State.account (σ : State Thr Sto) (a : Nat) : Concurrent.Account Empty where
  count := σ.mem.strong a
  slot d := d.elim
  refs _ := σ.mem.refs a + ∑ t, ((σ.stack t).flatMap Frame.owned).count a

section
omit [DecidableEq Sto]

theorem State.account_eq (σ : State Thr Sto) (t : Thr) (m' : Shared Sto) (st' : List (Frame Sto))
    (a : Nat) : State.account ⟨m', Function.update σ.stack t st'⟩ a =
      (RwLock.account m' (st'.flatMap Frame.owned) a).add fun _ =>
        ∑ x ∈ Finset.univ.erase t, ((σ.stack x).flatMap Frame.owned).count a := by
  simp only [State.account, RwLock.account, Concurrent.Account.add, Shared.refs, Nat.add_assoc]
  congr 1
  funext o
  rw [← Finset.add_sum_erase Finset.univ _ (Finset.mem_univ t), Function.update_self]
  congr 3
  apply Finset.sum_congr rfl
  intro x hx
  rw [Function.update_of_ne (Finset.ne_of_mem_erase hx)]

end

theorem State.step_account {l : Thr × Action Sto} (hs : State.step l σ = some σ') (ha : a ≠ 0) :
    (σ.account a).Move (σ'.account a) := by
  obtain ⟨m', st', ht, rfl⟩ := State.step_cases hs
  have he := State.account_eq σ l.1 σ.mem (σ.stack l.1) a
  rw [Function.update_eq_self] at he
  change σ.account a = _ at he
  rw [State.account_eq, he]
  exact (threadStep_transfer ht a ha).add _

theorem Balanced.reach (hr : (machine Thr Sto).Reach ok σ) (ha : a ≠ 0) :
    (σ.account a).Balanced := by
  refine hr.invariant (P := fun σ => (σ.account a).Balanced) ?_ ?_
  · rintro _ rfl
    refine ⟨?_, fun d => d.elim⟩
    simp [State.account, State.initial, Concurrent.Account.slots, Shared.refs, Shared.stored]
  · exact fun _ _ _ hb _ hs => (State.step_account hs ha).balanced hb

theorem strong_eq (hr : (machine Thr Sto).Reach ok σ) (ha : a ≠ 0) :
    σ.mem.strong a = σ.mem.handles a + σ.mem.stored a +
      ∑ t, ((σ.stack t).flatMap Frame.owned).count a := by
  have hb := (Balanced.reach hr ha).balance
  simpa [State.account, Concurrent.Account.slots, Shared.refs] using hb

end ArcSwap.RwLock
