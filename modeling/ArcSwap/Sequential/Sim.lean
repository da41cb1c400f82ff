import ArcSwap.Sequential.Accounts

namespace ArcSwap.Sequential
set_option autoImplicit true

variable {K Thr Sto : Type}

theorem mem_middle {α : Type} {x y : α} {G E : List α} :
    x ∈ G ++ y :: E ↔ x = y ∨ x ∈ G ++ E := by
  rw [List.perm_middle.mem_iff, List.mem_cons]

/-- The pointers that debts can be of: those in the storages that lend them, those of guards with
debts, and the one that has just been taken out of a storage. -/
def Mem.Lendable (cfg : Config K Sto) (X : Option (Ref K)) (m : Mem K Thr Sto)
    (E : List (Guard K Thr)) (r : Ref K) : Prop :=
  X = some r ∨ (∃ S, cfg.strategy S ≠ .rwLock ∧ m.storage S = some r) ∨
    ∃ d, ⟨r, some d⟩ ∈ m.guards ++ E

/-- The slots between two steps of an operation that has `E` in its hands and has taken `X` out of a
storage. -/
structure Slots (cfg : Config K Sto) (X : Option (Ref K)) (m : Mem K Thr Sto)
    (E : List (Guard K Thr)) : Prop where
  lent : ∀ d, m.debt d ≠ debtNone → m.debt d ≠ 0 → ∃ k, m.lender d = some k ∧
    (X = some (k, m.debt d) ∨ ∃ S, cfg.strategy S ≠ .rwLock ∧ m.storage S = some (k, m.debt d))
  helping : ∀ t, m.debt (helpingSlot t) = debtNone
  listed : ∀ d, m.debt d ≠ debtNone → d.1 ∈ m.listHead
  idle : ∀ t, m.control t = idle
  kindred : ∀ r r', m.Lendable cfg X E r → m.Lendable cfg X E r' → r.2 = r'.2 → r.2 ≠ 0 → r = r'

/-- The pointers are aligned. -/
structure Mem.Aligned (m : Mem K Thr Sto) (E : List (Guard K Thr)) : Prop where
  storage : ∀ S r, m.storage S = some r → r.2 % 4 = 0
  handles : ∀ r, m.handles r ≠ 0 → r.2 % 4 = 0
  guards : ∀ g ∈ m.guards ++ E, g.ref.2 % 4 = 0

variable {cfg : Config K Sto} {n : Nat} {X : Option (Ref K)} {m m' : Mem K Thr Sto}
  {E E' : List (Guard K Thr)} {c c' : Cell K Sto} {r : Ref K} {d : Debt Thr}

theorem Proper.of_aligned (ha : r.2 % 4 = 0) (h0 : r.2 ≠ 0) : Proper r := by
  refine ⟨h0, ?_⟩
  rintro h3
  rw [h3] at ha
  cases ha

theorem Mem.Lendable.perm (h : m.Lendable cfg X E' r) (hp : E.Perm E') : m.Lendable cfg X E r :=
  h.imp_right fun h => h.imp_right fun ⟨d, hd⟩ => ⟨d, ((hp.append_left _).mem_iff).2 hd⟩

variable [DecidableEq K] [DecidableEq Thr] [Fintype Thr] [Fintype Sto]

/-- The memory in the middle of an operation stands for a state of the cell. No generation wraps in
the next `fuel` loads. -/
structure Sim (cfg : Config K Sto) (fuel : Nat) (X : Option (Ref K)) (m : Mem K Thr Sto)
    (E : List (Guard K Thr)) (c : Cell K Sto) : Prop where
  storage : m.storage = c.storage
  handles : m.handles = c.handles
  guards : m.guards.map Guard.ref = c.guards
  destroyed : m.destroyed = c.destroyed
  accounts : Accounts m E c
  aligned : m.Aligned E
  slots : Slots cfg X m E
  fuel : ∀ t, m.generation t + 4 * fuel < 2 ^ cfg.width

/-- A debt of a pointer that debts can be of is for the count of that pointer. -/
theorem Sim.lender (h : Sim cfg n X m E c) (hL : m.Lendable cfg X E r) (hd : m.debt d = r.2)
    (hr : Proper r) : m.lender d = some r.1 := by
  obtain ⟨k, hk, hX⟩ := h.slots.lent d (by rw [hd]; exact hr.2) (by rw [hd]; exact hr.1)
  rw [hd] at hX
  have he : ((k, r.2) : Ref K) = r := by
    refine h.slots.kindred (k, r.2) r ?_ hL rfl hr.1
    rcases hX with hX | hS
    · exact .inl hX
    · exact .inr (.inl hS)
  rw [hk, ← he]

theorem Sim.of_lent (h : Sim cfg n none m E c) (hl : m.lent d r = true) (hr : Proper r) :
    ∃ S, m.storage S = some r := by
  obtain ⟨hd, hl⟩ := of_decide_eq_true hl
  obtain ⟨k, hk, hX⟩ := h.slots.lent d (by rw [hd]; exact hr.2) (by rw [hd]; exact hr.1)
  rcases hX with hX | ⟨S, _, hS⟩
  · cases hX
  · cases hk.symm.trans hl
    rw [hd] at hS
    exact ⟨S, hS⟩

theorem Sim.perm (h : Sim cfg n X m E c) (hp : E.Perm E') : Sim cfg n X m E' c := by
  have hmem : ∀ g, g ∈ m.guards ++ E' ↔ g ∈ m.guards ++ E := fun g => (hp.append_left _).symm.mem_iff
  have haccounts : Accounts m E' c :=
    h.accounts.same rfl (fun _ _ _ => rfl) (fun _ _ _ => by rw [Mem.refs_perm hp]) fun _ _ => rfl
  have haligned : m.Aligned E' :=
    ⟨h.aligned.storage, h.aligned.handles, fun g hg => h.aligned.guards g ((hmem g).1 hg)⟩
  refine ⟨h.storage, h.handles, h.guards, h.destroyed, haccounts, haligned, ?_, h.fuel⟩
  obtain ⟨hl, hh, hi, hc, hk⟩ := h.slots
  exact ⟨hl, hh, hi, hc, fun r r' hr hr' => hk r r' (hr.perm hp) (hr'.perm hp)⟩

end ArcSwap.Sequential
