import ArcSwap.Sequential.Operations

namespace ArcSwap.Sequential
set_option autoImplicit true

variable {K Thr Sto : Type}
variable {cfg : Config K Sto} {n : Nat} {m m' : Mem K Thr Sto} {c c' : Cell K Sto} {r old : Ref K}
  {S : Sto} {t : Thr}

theorem rel_mono {R R' : α → β → Prop} {a : Option α} {b : Option β} (h : a.Rel R b)
    (hf : ∀ x y, R x y → R' x y) : a.Rel R' b := by
  cases h with
  | none => exact .none
  | some h => exact .some (hf _ _ h)

theorem rel_map {R : α → β → Prop} {R' : γ → δ → Prop} {a : Option α} {b : Option β}
    {f : α → γ} {g : β → δ} (h : a.Rel R b) (hf : ∀ x y, a = some x → b = some y → R x y →
      R' (f x) (g y)) : (a.map f).Rel R' (b.map g) := by
  cases h with
  | none => exact .none
  | some h => exact .some (hf _ _ rfl rfl h)

theorem rel_bind {R : α → β → Prop} {R' : γ → δ → Prop} {a : Option α} {b : Option β}
    {f : α → Option γ} {g : β → Option δ} (h : a.Rel R b)
    (hf : ∀ x y, a = some x → b = some y → R x y → (f x).Rel R' (g y)) :
    (a.bind f).Rel R' (b.bind g) := by
  cases h with
  | none => exact .none
  | some h => exact hf _ _ rfl rfl h

theorem rel_bind_map {R : α → β → Prop} {R' : γ → δ → Prop} {a : Option α} {b : Option β}
    {f : α → Option γ} {g : β → δ} (h : a.Rel R b)
    (hf : ∀ x y, a = some x → b = some y → R x y → ∃ z, f x = some z ∧ R' z (g y)) :
    (a.bind f).Rel R' (b.map g) := by
  cases h with
  | none => exact .none
  | some h =>
    obtain ⟨z, he, hr⟩ := hf _ _ rfl rfl h
    rw [Option.bind_some, he]
    exact .some hr

variable [DecidableEq K]

theorem Mem.takeHandle_storage (h : m.takeHandle r = some m') : m'.storage = m.storage := by
  rw [Mem.takeHandle, Option.map_eq_some_iff] at h
  obtain ⟨h', ht, rfl⟩ := h
  exact (Heap.takeHandle_only ht).1.storage

variable [DecidableEq Thr] [Fintype Thr]

theorem sum_count (G : List (Guard K Thr)) (r : Ref K) :
    ∑ o, G.count ⟨r, o⟩ = (G.map Guard.ref).count r := by
  induction G with
  | nil => exact Finset.sum_const_zero
  | cons g G ih =>
    obtain ⟨r', o⟩ := g
    have hcons : ∀ o', (⟨r', o⟩ :: G).count (⟨r, o'⟩ : Guard K Thr) =
        G.count ⟨r, o'⟩ + [(⟨r', o⟩ : Guard K Thr)].count ⟨r, o'⟩ := by
      intro o'
      rw [Nat.add_comm, ← List.count_append]
      rfl
    simp only [hcons, Finset.sum_add_distrib, sum_singleton, ih]
    simp only [List.map_cons, List.count_cons, beq_iff_eq, eq_comm (a := r)]

def Op.loads : Op K Sto → Nat
  | .load _ => 1
  | .loadFull _ => 1
  | .cas _ _ _ spurious => spurious + 1
  | .rcu _ _ spurious => spurious + 2
  | _ => 0

variable [Fintype Sto]

def Agree (cfg : Config K Sto) (n : Nat) (x : Mem K Thr Sto × Nat) (y : Cell K Sto × Nat) : Prop :=
  Sim cfg n none x.1 [] y.1 ∧ x.2 = y.2

theorem Sim.empty (hn : 4 * n < 2 ^ cfg.width) :
    Sim cfg n none (Mem.empty : Mem K Thr Sto) [] Cell.empty := by
  have hstored : ∀ r, (Mem.empty : Mem K Thr Sto).stored r = 0 := fun r =>
    Finset.card_eq_zero.2 (Finset.filter_eq_empty_iff.2 fun _ _ h => Option.some_ne_none r h.symm)
  have hrefs : ∀ g, (Mem.empty : Mem K Thr Sto).refs [] g = 0 := by
    intro g
    have hguards : ((Mem.empty : Mem K Thr Sto).guards ++ []).count g = 0 := List.count_nil
    have hhandles : (Mem.empty : Mem K Thr Sto).handles g.ref = 0 := rfl
    simp only [Mem.refs, hstored, hguards, hhandles, ite_self]
  have hlent : ∀ d r, Proper r → (Mem.empty : Mem K Thr Sto).lent d r = false := fun d r hr =>
    Mem.lent_of_ne fun h => hr.2 h.symm
  constructor
  · rfl
  · rfl
  · rfl
  · rfl
  · constructor
    · intro r hr
      have hslot : ∀ d, ((Mem.empty : Mem K Thr Sto).account [] r).slot d = false := fun d =>
        hlent d r hr
      constructor
      · have hslots : ((Mem.empty : Mem K Thr Sto).account [] r).slots = 0 := by
          apply Finset.sum_eq_zero
          intro d _
          rw [hslot d, if_neg Bool.false_ne_true]
        rw [hslots]
        simp only [Mem.account, hrefs, Finset.sum_const_zero]
        rfl
      · intro d hd
        rw [hslot d] at hd
        cases hd
    · intro r _
      simp only [hrefs, Finset.sum_const_zero]
      rfl
  · refine ⟨fun S r hr => absurd hr.symm (Option.some_ne_none r), fun r hr => absurd rfl hr, ?_⟩
    exact fun g hg => absurd hg List.not_mem_nil
  · refine ⟨fun d h3 => absurd rfl h3, fun _ => rfl, fun d h3 => absurd rfl h3, fun _ => rfl, ?_⟩
    rintro r r' (hX | ⟨S, _, hS⟩ | ⟨d, hg⟩)
    · cases hX
    · exact absurd hS.symm (Option.some_ne_none r)
    · exact absurd hg List.not_mem_nil
  · intro t
    exact (Nat.zero_add _).trans_lt hn

/-- The memory between two operations is the plain cell, but for the counts that its slots lend. -/
structure Mem.StandsFor (m : Mem K Thr Sto) (c : Cell K Sto) : Prop where
  storage : m.storage = c.storage
  handles : m.handles = c.handles
  guards : m.guards.map Guard.ref = c.guards
  destroyed : m.destroyed = c.destroyed
  counts : ∀ r : Ref K, r.2 ≠ 0 → r.2 % 4 = 0 →
    m.count r + (Finset.univ.filter fun d => m.lent d r = true).card = c.count r
  references : ∀ r : Ref K, r.2 ≠ 0 → r.2 % 4 = 0 →
    c.count r = c.stored r + c.handles r + c.guards.count r
  alive : ∀ r : Ref K, r.2 ≠ 0 → r.2 % 4 = 0 → (m.count r = 0 ↔ c.count r = 0)

theorem Sim.standsFor (h : Sim cfg n none m [] c) : m.StandsFor c := by
  refine ⟨h.storage, h.handles, h.guards, h.destroyed, ?_, ?_, ?_⟩
  · intro r h0 ha
    have hp := Proper.of_aligned ha h0
    have hbalance : m.count r + (m.account [] r).slots = ∑ o, m.refs [] ⟨r, o⟩ :=
      (h.accounts.balanced r hp).balance
    rw [h.accounts.total r hp, ← hbalance, Finset.card_filter]
    rfl
  · intro r h0 ha
    have hsum := sum_count m.guards r
    rw [Fintype.sum_option] at hsum
    rw [h.accounts.total r (.of_aligned ha h0), Fintype.sum_option, ← h.guards, ← h.handles, ← hsum]
    simp only [Mem.refs, List.append_nil, if_true, reduceCtorEq, if_false, Nat.add_zero,
      Heap.stored, h.storage]
    omega
  · exact fun r h0 ha => h.count_zero (.of_aligned ha h0)

variable [DecidableEq Sto] [Fintype K]

theorem Sim.step {op : Op K Sto} (h : Sim cfg (op.loads + n) none m [] c)
    (hsep : ∀ c' v, c.step cfg.upgrades op = some (c', v) → c'.Separate cfg) (rounds : Nat)
    (t : Thr) : (m.step cfg rounds t op).Rel (Agree cfg n) (c.step cfg.upgrades op) := by
  have hn : Sim cfg n none m [] c := h.mono (Nat.le_add_left ..)
  cases op with
  | alloc r =>
    apply rel_map (hn.alloc r)
    exact fun x y _ _ hsim => ⟨hsim, rfl⟩
  | derive r k =>
    apply rel_map (hn.takeHandle r)
    intro x y _ _ hsim
    have ha : r.2 % 4 = 0 := hsim.aligned.guards _ (mem_middle.2 (.inl rfl))
    obtain ⟨he, hsim⟩ := hn.derive ha cfg.upgrades k
    exact ⟨hsim, he⟩
  | dropHandle r =>
    apply rel_map (hn.takeHandle r)
    exact fun x y _ _ hsim => ⟨hsim.dec, rfl⟩
  | create S r =>
    by_cases hS : m.storage S = none
    · simp only [Mem.step, Cell.step, ← hn.storage, hS, if_true]
      apply rel_map (hn.takeHandle r)
      intro x y hx hy hsim
      refine ⟨hsim.create (by rw [Mem.takeHandle_storage hx, hS]) ?_, rfl⟩
      apply hsep _ 0
      simp only [Cell.step, ← hn.storage, hS, if_true, hy, Option.map_some]
    · simp only [Mem.step, Cell.step, ← hn.storage, hS, if_false]
      exact .none
  | load S =>
    cases hS : m.storage S with
    | none =>
      simp only [Mem.step, Cell.step, ← hn.storage, hS, Mem.load_none hS, Option.map_none]
      exact .none
    | some r =>
      obtain ⟨o, m', he, hsim⟩ := (h.mono (Nat.le_of_eq (Nat.add_comm n 1))).load hS t
      simp only [Mem.step, Cell.step, ← hn.storage, hS, he, Option.map_some]
      exact .some ⟨hsim.addGuard, rfl⟩
  | loadFull S =>
    cases hS : m.storage S with
    | none =>
      simp only [Mem.step, Cell.step, ← hn.storage, hS, Mem.load_none hS, Option.map_none]
      exact .none
    | some r =>
      obtain ⟨o, m', he, hsim⟩ := (h.mono (Nat.le_of_eq (Nat.add_comm n 1))).load hS t
      simp only [Mem.step, Cell.step, ← hn.storage, hS, he, Option.map_some]
      exact .some ⟨hsim.intoInner.addHandle, rfl⟩
  | swap S new =>
    cases hS : m.storage S with
    | none =>
      simp only [Mem.step, Cell.step, ← hn.storage, hS, Option.bind_none]
      exact .none
    | some old =>
      simp only [Mem.step, Cell.step, ← hn.storage, hS, Option.bind_some]
      apply rel_bind_map (hn.takeHandle (old.1, new))
      intro x y hx hy hsim
      have hresult : c.step cfg.upgrades (.swap S new) =
          some (y.map fun h => (h.setStorage S (some (old.1, new))).addHandle old, old.2) := by
        simp only [Cell.step, ← hn.storage, hS, Option.bind_some, hy, Option.map_some]
      have hsep' : (y.map (·.setStorage S (some (old.1, new)))).Separate cfg :=
        (hsep _ _ hresult).same (Heap.addHandle_only _ old).storage.symm fun _ => id
      have hS' : x.storage S = some old := by rw [Mem.takeHandle_storage hx, hS]
      obtain ⟨m', he, hswap⟩ := hsim.swap hS' hsep' t
      refine ⟨(m'.map (·.addHandle old), old.2), ?_, hswap.addHandle, rfl⟩
      rw [he, Option.map_some]
  | store S new =>
    cases hS : m.storage S with
    | none =>
      simp only [Mem.step, Cell.step, ← hn.storage, hS, Option.bind_none]
      exact .none
    | some old =>
      simp only [Mem.step, Cell.step, ← hn.storage, hS, Option.bind_some]
      apply rel_bind_map (hn.takeHandle (old.1, new))
      intro x y hx hy hsim
      have hresult : c.step cfg.upgrades (.store S new) =
          some (y.map fun h => (h.setStorage S (some (old.1, new))).dec old, 0) := by
        simp only [Cell.step, ← hn.storage, hS, Option.bind_some, hy, Option.map_some]
      have hsep' : (y.map (·.setStorage S (some (old.1, new)))).Separate cfg :=
        (hsep _ _ hresult).same (Heap.dec_counts _ old).storage.symm fun _ => id
      have hS' : x.storage S = some old := by rw [Mem.takeHandle_storage hx, hS]
      obtain ⟨m', he, hswap⟩ := hsim.swap hS' hsep' t
      refine ⟨(m'.map (·.dec old), 0), ?_, hswap.dec, rfl⟩
      rw [he, Option.map_some]
  | cas S current new spurious =>
    cases hS : m.storage S with
    | none =>
      simp only [Mem.step, Cell.step, ← hn.storage, hS, Option.bind_none]
      exact .none
    | some old =>
      simp only [Mem.step, Cell.step, ← hn.storage, hS, Option.bind_some]
      apply rel_bind_map (h.takeHandle (old.1, new))
      intro x y hx hy hsim
      have hsep' : old.2 = current →
          (y.map (·.setStorage S (some (old.1, new)))).Separate cfg := by
        intro hcur
        have hresult : c.step cfg.upgrades (.cas S current new spurious) =
            some ((y.map (·.setStorage S (some (old.1, new)))).addGuard old, old.2) := by
          simp only [Cell.step, ← hn.storage, hS, Option.bind_some, hy, Option.map_some, hcur,
            if_true]
        exact (hsep _ _ hresult).same rfl fun r => List.mem_cons_of_mem old
      have hS' : x.storage S = some old := by rw [Mem.takeHandle_storage hx, hS]
      obtain ⟨o, m', he, hcas⟩ := hsim.cas hS' (fun g hg => absurd hg List.not_mem_nil) hsep' t
      refine ⟨(m'.addGuard ⟨old, o⟩, old.2), ?_, hcas.addGuard, rfl⟩
      rw [he, Option.map_some]
  | rcu S f spurious =>
    cases hS : m.storage S with
    | none =>
      simp only [Mem.step, Cell.step, ← hn.storage, hS, Mem.load_none hS, Option.bind_none]
      exact .none
    | some old =>
      have hsep' : ∀ c', c.takeHandle (old.1, f old.2) = some c' →
          (c'.map (·.setStorage S (some (old.1, f old.2)))).Separate cfg := by
        intro y hy
        have hresult : c.step cfg.upgrades (.rcu S f spurious) =
            some (y.map fun h => (h.setStorage S (some (old.1, f old.2))).addHandle old,
              old.2) := by
          simp only [Cell.step, ← hn.storage, hS, Option.bind_some, hy, Option.map_some]
        exact (hsep _ _ hresult).same (Heap.addHandle_only _ old).storage.symm fun _ => id
      have hrcu := h.rcu hS hsep' rounds t
      have hstep : m.step cfg rounds t (.rcu S f spurious) =
          ((m.load cfg t S).bind fun x => Mem.rcuLoop cfg t S f spurious (rounds + 1) x.1 x.2).map
            fun x => (x.2.map (·.addHandle x.1), x.1.2) := by
        rw [Option.map_bind]
        rfl
      rw [hstep]
      simp only [Cell.step, ← hn.storage, hS, Option.bind_some]
      apply rel_map hrcu
      rintro ⟨_, x⟩ y _ _ ⟨rfl, hsim⟩
      exact ⟨hsim.addHandle, rfl⟩
  | intoInner S =>
    cases hS : m.storage S with
    | none =>
      simp only [Mem.step, Mem.remove, Cell.step, ← hn.storage, hS, Option.bind_none,
        Option.map_none]
      exact .none
    | some r =>
      obtain ⟨m', he, hsim⟩ := hn.remove hS t
      simp only [Mem.step, Cell.step, ← hn.storage, hS, he, Option.map_some]
      exact .some ⟨hsim.addHandle, rfl⟩
  | dropStorage S =>
    cases hS : m.storage S with
    | none =>
      simp only [Mem.step, Mem.remove, Cell.step, ← hn.storage, hS, Option.bind_none,
        Option.map_none]
      exact .none
    | some r =>
      obtain ⟨m', he, hsim⟩ := hn.remove hS t
      simp only [Mem.step, Cell.step, ← hn.storage, hS, he, Option.map_some]
      exact .some ⟨hsim.dec, rfl⟩
  | guardDrop i =>
    apply rel_map (hn.takeGuard i)
    rintro ⟨g, x⟩ ⟨_, y⟩ _ _ ⟨rfl, hsim⟩
    exact ⟨hsim.guardDrop, rfl⟩
  | guardIntoInner i =>
    apply rel_map (hn.takeGuard i)
    rintro ⟨g, x⟩ ⟨_, y⟩ _ _ ⟨rfl, hsim⟩
    exact ⟨hsim.intoInner.addHandle, rfl⟩
  | guardFromInner r =>
    apply rel_map (hn.takeHandle r)
    exact fun x y _ _ hsim => ⟨hsim.addGuard, rfl⟩
  | guardDerive i k =>
    simp only [Mem.step, Cell.step, ← hn.guards, List.getElem?_map]
    cases hi : m.guards[i]? with
    | none => exact .none
    | some g =>
      have hg := List.mem_append_left ([] : List (Guard K Thr)) (List.mem_of_getElem? hi)
      obtain ⟨he, hsim⟩ := hn.derive (hn.aligned.guards g hg) cfg.upgrades k
      exact .some ⟨hsim, he⟩

/-- The states of the cell, as far as the program comes. -/
def Cell.states (upgrades : K → Bool) (c : Cell K Sto) : List (Op K Sto) → List (Cell K Sto)
  | [] => [c]
  | op :: ops =>
    c :: match c.step upgrades op with
      | some (c', _) => c'.states upgrades ops
      | none => []

section
omit [DecidableEq Thr] [Fintype Thr] [Fintype Sto]

theorem Cell.mem_states (upgrades : K → Bool) (c : Cell K Sto) (ops : List (Op K Sto)) :
    c ∈ c.states upgrades ops := by
  cases ops with
  | nil => exact List.mem_singleton_self c
  | cons op ops => exact List.mem_cons_self

end

theorem Sim.run {ops : List (Thr × Op K Sto)}
    (h : Sim cfg ((ops.map fun x => x.2.loads).sum + n) none m [] c)
    (hsep : ∀ c' ∈ c.states cfg.upgrades (ops.map Prod.snd), c'.Separate cfg) (rounds : Nat) :
    (m.run cfg rounds ops).Rel (fun x y => Sim cfg n none x.1 [] y.1 ∧ x.2 = y.2)
      (c.run cfg.upgrades (ops.map Prod.snd)) := by
  induction ops generalizing m c with
  | nil =>
    rw [List.map_nil, List.sum_nil, Nat.zero_add] at h
    exact .some ⟨h, rfl⟩
  | cons x ops ih =>
    obtain ⟨t, op⟩ := x
    rw [List.map_cons, List.sum_cons, Nat.add_assoc] at h
    have hstep := h.step (fun c' v he => ?_) rounds t
    · apply rel_bind hstep
      rintro ⟨m', v⟩ ⟨c', _⟩ _ he ⟨hsim, rfl⟩
      apply rel_map (ih hsim ?_)
      · rintro ⟨m'', vs⟩ ⟨c'', _⟩ _ _ ⟨hsim, rfl⟩
        exact ⟨hsim, rfl⟩
      · intro c'' hc
        apply hsep c''
        rw [List.map_cons, Cell.states]
        change c.step cfg.upgrades op = some (c', v) at he
        rw [he]
        exact List.mem_cons_of_mem _ hc
    · apply hsep c'
      rw [List.map_cons, Cell.states]
      change c.step cfg.upgrades op = some (c', v) at he
      rw [he]
      exact List.mem_cons_of_mem _ (Cell.mem_states ..)

/-- Whatever the strategies of the storages are, and whichever threads run its operations one after
the other, a program on them does what it does on plain cells: the same operations are possible, they
return the same pointers and destroy the same objects in the same order, and in the end the guards are
for the same pointers. The counts are those of the cells, less the debts in the slots. -/
theorem strategies_refine_cell {ops : List (Thr × Op K Sto)} {rounds : Nat}
    (hloads : 4 * (ops.map fun x => x.2.loads).sum < 2 ^ cfg.width)
    (hsep : ∀ c ∈ Cell.empty.states cfg.upgrades (ops.map Prod.snd), c.Separate cfg) :
    (Mem.empty.run cfg rounds ops).Rel (fun x y => x.1.StandsFor y.1 ∧ x.2 = y.2)
      (Cell.empty.run cfg.upgrades (ops.map Prod.snd)) := by
  have hsim : Sim cfg ((ops.map fun x => x.2.loads).sum + 0) none
      (Mem.empty : Mem K Thr Sto) [] Cell.empty := Sim.empty hloads
  exact rel_mono (hsim.run hsep rounds) fun x y h => ⟨h.1.standsFor, h.2⟩

def mixed : Config Bool (Fin 3) where
  width := 64
  strategy S := if S = 0 then .hybrid true else if S = 1 then .rwLock else .hybrid false
  upgrades k := k

def exchanging : List (Fin 2 × Op Bool (Fin 3)) :=
  [(0, .alloc (true, 4)), (1, .alloc (true, 8)), (0, .derive (true, 4) true),
    (0, .derive (true, 8) false), (0, .create 0 (true, 4)), (0, .create 1 (true, 4)),
    (1, .create 2 (false, 8)), (0, .load 0), (1, .load 2), (0, .guardDerive 0 true),
    (1, .alloc (true, 12)), (1, .swap 0 12), (1, .dropHandle (true, 4)), (0, .alloc (true, 16)),
    (0, .cas 1 4 16 1), (1, .guardDrop 0), (0, .rcu 0 (fun _ => 0) 2), (0, .guardDrop 1)]

theorem strategies_refine_cell_exchanging :
    ∃ x y, Mem.empty.run mixed 0 exchanging = some x ∧
      Cell.empty.run mixed.upgrades (exchanging.map Prod.snd) = some y ∧ x.1.StandsFor y.1 ∧
      x.1.destroyed = [(true, 4)] ∧ x.2 = y.2 := by
  have h : (Mem.empty.run mixed 0 exchanging).Rel (fun x y => x.1.StandsFor y.1 ∧ x.2 = y.2)
      (Cell.empty.run mixed.upgrades (exchanging.map Prod.snd)) :=
    strategies_refine_cell (by decide) (by decide +kernel)
  have hdestroyed : (Mem.empty.run mixed 0 exchanging).map (·.1.destroyed) = some [(true, 4)] := by
    decide +kernel
  cases hm : Mem.empty.run mixed 0 exchanging with
  | none =>
    rw [hm] at hdestroyed
    cases hdestroyed
  | some x =>
    rw [hm] at h hdestroyed
    generalize Cell.empty.run mixed.upgrades (exchanging.map Prod.snd) = o at h
    cases h with
    | some h => exact ⟨x, _, rfl, rfl, h.1, Option.some.inj hdestroyed, h.2⟩

/-- An `Arc` and a `Weak` of one object have equal pointers, but not the same count: the debt of the
guard is paid with a weak reference, and the storage is left with a pointer to a destroyed object. -/
example : (Mem.empty.run mixed 0 [((0 : Fin 2), .alloc (true, 4)), (0, .derive (true, 4) false),
    (0, .create 0 (true, 4)), (0, .create 2 (false, 4)), (0, .load 0), (1, .intoInner 2),
    (1, .dropHandle (false, 4)), (0, .guardDrop 0)]).map (fun x => (x.1.storage 0, x.1.destroyed)) =
      some (some (true, 4), [(true, 4)]) := by
  decide +kernel

end ArcSwap.Sequential
