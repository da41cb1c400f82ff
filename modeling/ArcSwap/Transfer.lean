import ArcSwap.System
import ArcSwap.Concurrent.Account

namespace ArcSwap
set_option autoImplicit true

variable {Thr Sto : Type}

/-- The references of an activation, each like a guard: counted, or recorded on a debt. -/
def Frame.refs (t : Thr) (f : Frame Thr Sto) : List (Guard Thr) :=
  f.owned.map (⟨none, ·⟩) ++ f.held ++ f.unresolved t

def Ret.refs : Ret Thr → List (Guard Thr)
  | .guard g => [g]
  | .handle a => [⟨none, a⟩]
  | .unit => []

/-- The counted reference behind a pointer that may be there. -/
def owed (o : Option Nat) : List (Guard Thr) := o.toList.map (⟨none, ·⟩)

variable [DecidableEq Thr]

theorem count_singleton (o : Option (Debt Thr)) (p a : Nat) (o' : Option (Debt Thr)) :
    [(⟨o', p⟩ : Guard Thr)].count ⟨o, a⟩ = if p = a then Concurrent.unit o o' else 0 := by
  by_cases hp : p = a
  · by_cases ho : o = o'
    · simp [hp, ho, Concurrent.unit]
    · simp [hp, ho, Concurrent.unit, Ne.symm ho]
  · simp [hp]

theorem count_owed (o : Option Nat) (g : Guard Thr) :
    (owed o).count g = if g.debt = none ∧ o = some g.ptr then 1 else 0 := by
  obtain ⟨d, a⟩ := g
  cases o with
  | none => simp [owed]
  | some p =>
    show [(⟨none, p⟩ : Guard Thr)].count ⟨d, a⟩ = _
    rw [count_singleton, Concurrent.unit]
    simp only [Option.some.injEq]
    by_cases hp : p = a
    · simp [hp]
    · simp [hp]

variable [Fintype Thr] [Fintype Sto]

def Shared.stored (m : Shared Thr Sto) (a : Nat) : Nat :=
  (Finset.univ.filter fun S => m.storage S = some a).card

def Shared.offers (m : Shared Thr Sto) (a : Nat) : Nat :=
  (Finset.univ.filter fun n => m.offered n = some a).card

/-- How many times a reference is held by user code, by a storage or by an envelope. -/
def Shared.refs (m : Shared Thr Sto) (g : Guard Thr) : Nat :=
  m.guards g + if g.debt = none then m.handles g.ptr + m.stored g.ptr + m.offers g.ptr else 0

/-- The account of the object at `a`, as far as the memory and the activations with the references
`L` go. -/
def account (m : Shared Thr Sto) (L : List (Guard Thr)) (a : Nat) :
    Concurrent.Account (Debt Thr) where
  count := m.strong a
  slot d := decide (m.debt d = a)
  refs o := m.refs ⟨o, a⟩ + L.count ⟨o, a⟩

/-- A step of an activation, seen from the accounts of all objects. -/
def Transfer (m : Shared Thr Sto) (L : List (Guard Thr)) (m' : Shared Thr Sto)
    (L' : List (Guard Thr)) : Prop :=
  ∀ a, a ≠ 0 → a ≠ debtNone → (account m L a).Move (account m' L' a)

variable {m m' : Shared Thr Sto} {L L' R : List (Guard Thr)}

theorem Transfer.move (hs : m'.strong = m.strong) (hd : m'.debt = m.debt)
    (hr : ∀ g : Guard Thr, g.ptr ≠ 0 → m'.refs g + L'.count g = m.refs g + L.count g) :
    Transfer m L m' L' := by
  intro a ha _
  exact .skip (congrFun hs a) (fun d => by simp only [account, hd]) (fun o => hr ⟨o, a⟩ ha)

theorem Transfer.inc (hs : m'.strong = (m.inc p).strong) (hd : m'.debt = m.debt)
    (hr : ∀ g : Guard Thr, g.ptr ≠ 0 →
      m'.refs g + L'.count g = m.refs g + L.count g + [⟨none, p⟩].count g) :
    Transfer m L m' L' := by
  intro a ha _
  have hr' := fun o => hr ⟨o, a⟩ ha
  simp only [count_singleton] at hr'
  have hslot : ∀ d, (account m' L' a).slot d = (account m L a).slot d :=
    fun d => by simp only [account, hd]
  by_cases hp : p = a
  · subst hp
    refine .inc ?_ hslot (fun o => (hr' o).trans (by simp [account]))
    simp [account, hs, Shared.inc, ha]
  · refine .skip ?_ hslot (fun o => (hr' o).trans (by simp [account, hp]))
    show m'.strong a = m.strong a
    rw [hs, Shared.inc]
    split
    · rfl
    · exact Function.update_of_ne (Ne.symm hp) ..

theorem Transfer.dec (hs : m'.strong = (m.dec p).strong) (hd : m'.debt = m.debt)
    (hr : ∀ g : Guard Thr, g.ptr ≠ 0 →
      m.refs g + L.count g = m'.refs g + L'.count g + [⟨none, p⟩].count g) :
    Transfer m L m' L' := by
  intro a ha _
  have hr' := fun o => hr ⟨o, a⟩ ha
  simp only [count_singleton] at hr'
  have hslot : ∀ d, (account m' L' a).slot d = (account m L a).slot d :=
    fun d => by simp only [account, hd]
  by_cases hp : p = a
  · subst hp
    refine .dec ?_ hslot (fun o => (hr' o).trans (by simp [account]))
    simp [account, hs, Shared.dec, ha]
  · refine .skip ?_ hslot (fun o => ((hr' o).trans (by simp [account, hp])).symm)
    show m'.strong a = m.strong a
    rw [hs, Shared.dec]
    split
    · rfl
    · exact Function.update_of_ne (Ne.symm hp) ..

theorem slot_update (L L' : List (Guard Thr)) (hd : m'.debt = Function.update m.debt d w) (a : Nat) (x : Debt Thr) :
    (account m' L' a).slot x = if x = d then decide (w = a) else (account m L a).slot x := by
  simp only [account, hd, Function.update_apply]
  split <;> rfl

theorem Transfer.fill (hd : m.debt d = debtNone) (hs : m'.strong = m.strong)
    (hd' : m'.debt = Function.update m.debt d p)
    (hr : ∀ g : Guard Thr, g.ptr ≠ 0 →
      m'.refs g + L'.count g = m.refs g + L.count g + [⟨some d, p⟩].count g) :
    Transfer m L m' L' := by
  intro a ha ha3
  have hr' := fun o => hr ⟨o, a⟩ ha
  simp only [count_singleton] at hr'
  have hslot := slot_update L L' hd' a
  have hfree : (account m L a).slot d = false := by
    simp [account, hd, Ne.symm ha3]
  by_cases hp : p = a
  · subst hp
    refine .fill d (congrFun hs p) hfree (fun x => (hslot x).trans (by simp)) ?_
    exact fun o => (hr' o).trans (by simp [account])
  · refine .skip (congrFun hs a) (fun x => (hslot x).trans ?_) ?_
    · split
      · rename_i hx
        rw [hx, hfree]
        simpa using hp
      · rfl
    · exact fun o => (hr' o).trans (by simp [account, hp])

theorem Transfer.pay (o : Option (Debt Thr)) (ho : o = none ∨ o = some d) (hd : m.debt d = p)
    (hs : m'.strong = m.strong) (hd' : m'.debt = Function.update m.debt d debtNone)
    (hr : ∀ g : Guard Thr, g.ptr ≠ 0 →
      m.refs g + L.count g = m'.refs g + L'.count g + [⟨o, p⟩].count g) :
    Transfer m L m' L' := by
  intro a ha ha3
  have hr' := fun o => hr ⟨o, a⟩ ha
  simp only [count_singleton] at hr'
  have hslot := slot_update L L' hd' a
  by_cases hp : p = a
  · subst hp
    refine .pay d o ho (congrFun hs p) (by simp [account, hd]) (fun x => (hslot x).trans ?_) ?_
    · simp [Ne.symm ha3]
    · exact fun o => (hr' o).trans (by simp [account])
  · refine .skip (congrFun hs a) (fun x => (hslot x).trans ?_) ?_
    · split
      · rename_i hx
        simp [account, hx, hd, hp, Ne.symm ha3]
      · rfl
    · exact fun o => ((hr' o).trans (by simp [account, hp])).symm

theorem Transfer.paid (hd : m.debt d ≠ p) (hs : m'.strong = m.strong) (hd' : m'.debt = m.debt)
    (hr : ∀ g : Guard Thr, g.ptr ≠ 0 → m'.refs g + L'.count g + [⟨some d, p⟩].count g =
      m.refs g + L.count g + [⟨none, p⟩].count g) :
    Transfer m L m' L' := by
  intro a ha _
  have hr' := fun o => hr ⟨o, a⟩ ha
  simp only [count_singleton] at hr'
  have hslot : ∀ d, (account m' L' a).slot d = (account m L a).slot d :=
    fun d => by simp only [account, hd']
  by_cases hp : p = a
  · subst hp
    refine .paid d (congrFun hs p) (by simpa [account] using hd) hslot ?_
    intro o
    have := hr' o
    simp only [if_true] at this
    exact this
  · refine .skip (congrFun hs a) hslot ?_
    intro o
    have := hr' o
    simp only [hp, if_false, Nat.add_zero] at this
    exact this

theorem card_update [Fintype ι] [DecidableEq ι] [DecidableEq β] (f : ι → β) (i : ι) (b c : β) :
    (Finset.univ.filter fun j => Function.update f i b j = c).card + (if f i = c then 1 else 0) =
      (Finset.univ.filter fun j => f j = c).card + if b = c then 1 else 0 := by
  simp only [Finset.card_filter]
  exact Concurrent.sum_update_add f (fun x => if x = c then 1 else 0) i b

theorem refs_setStorage [DecidableEq Sto] (m : Shared Thr Sto) (op : Nat) (S : Sto)
    (new : Option Nat) (g : Guard Thr) :
    (m.setStorage op S new).refs g + (owed (m.storage S)).count g =
      m.refs g + (owed new).count g := by
  have h : (m.setStorage op S new).stored g.ptr + (if m.storage S = some g.ptr then 1 else 0) =
      m.stored g.ptr + if new = some g.ptr then 1 else 0 :=
    card_update m.storage S new (some g.ptr)
  change m.guards g + (if g.debt = none then
    m.handles g.ptr + (m.setStorage op S new).stored g.ptr + m.offers g.ptr else 0) + _ = _
  simp only [count_owed, Shared.refs]
  by_cases hd : g.debt = none
  · simp only [hd, true_and, if_true]
    omega
  · simp [hd]

theorem refs_offered (hg : m'.guards = m.guards) (hh : m'.handles = m.handles)
    (hs : m'.storage = m.storage) (ho : m'.offered = Function.update m.offered n o)
    (g : Guard Thr) :
    m'.refs g + (owed (m.offered n)).count g = m.refs g + (owed o).count g := by
  have h : m'.offers g.ptr + (if m.offered n = some g.ptr then 1 else 0) =
      m.offers g.ptr + if o = some g.ptr then 1 else 0 := by
    simp only [Shared.offers, ho]
    exact card_update m.offered n o (some g.ptr)
  have hst : m'.stored g.ptr = m.stored g.ptr := by simp only [Shared.stored, hs]
  simp only [count_owed, Shared.refs, hg, hh, hst]
  by_cases hd : g.debt = none
  · simp only [hd, true_and, if_true]
    omega
  · simp [hd]

theorem refs_addHandle (m : Shared Thr Sto) (a : Nat) (g : Guard Thr) :
    (m.addHandle a).refs g = m.refs g + [⟨none, a⟩].count g := by
  obtain ⟨d, p⟩ := g
  rw [count_singleton, Concurrent.unit]
  change m.guards ⟨d, p⟩ + (if d = none then
    Function.update m.handles a (m.handles a + 1) p + m.stored p + m.offers p else 0) = _
  simp only [Shared.refs, Function.update_apply]
  by_cases hd : d = none
  · by_cases hp : p = a
    · simp only [hd, hp, if_true]
      omega
    · simp [hd, hp, Ne.symm hp]
  · simp [hd]

theorem refs_addGuard (m : Shared Thr Sto) (h g : Guard Thr) :
    (m.addGuard h).refs g = m.refs g + [h].count g := by
  change Function.update m.guards h (m.guards h + 1) g + (if g.debt = none then
    m.handles g.ptr + m.stored g.ptr + m.offers g.ptr else 0) = _
  simp only [Shared.refs, Function.update_apply]
  by_cases hg : g = h
  · simp only [hg, if_true, List.count_singleton_self]
    omega
  · simp [hg, Ne.symm hg]

theorem refs_give (m : Shared Thr Sto) (v : Ret Thr) (g : Guard Thr) :
    (m.give v).refs g = m.refs g + v.refs.count g := by
  cases v with
  | guard h => exact refs_addGuard m h g
  | handle a => exact refs_addHandle m a g
  | unit => rfl

theorem refs_takeHandle (h : m.takeHandle a = some m') (g : Guard Thr) (hg : g.ptr ≠ 0) :
    m.refs g = m'.refs g + [⟨none, a⟩].count g := by
  obtain ⟨d, p⟩ := g
  rw [count_singleton, Concurrent.unit]
  rw [Shared.takeHandle] at h
  split at h
  · rename_i ha
    cases h
    have hp : ¬ a = p := fun he => hg (he.symm.trans ha)
    simp [hp]
  · split at h <;> cases h
    change _ = m.guards ⟨d, p⟩ + (if d = none then
      Function.update m.handles a (m.handles a - 1) p + m.stored p + m.offers p else 0) + _
    simp only [Shared.refs, Function.update_apply]
    by_cases hd : d = none
    · by_cases hp : p = a
      · simp only [hd, hp, if_true]
        omega
      · simp [hd, hp, Ne.symm hp]
    · simp [hd]

theorem refs_takeGuard (h : m.takeGuard k = some m') (g : Guard Thr) :
    m.refs g = m'.refs g + [k].count g := by
  rw [Shared.takeGuard] at h
  split at h
  · cases h
  · rename_i hk
    cases h
    change _ = Function.update m.guards k (m.guards k - 1) g + (if g.debt = none then
      m.handles g.ptr + m.stored g.ptr + m.offers g.ptr else 0) + _
    simp only [Shared.refs, Function.update_apply]
    by_cases hg : g = k
    · simp only [hg, if_true, List.count_singleton_self]
      omega
    · simp [hg, Ne.symm hg]

end ArcSwap
