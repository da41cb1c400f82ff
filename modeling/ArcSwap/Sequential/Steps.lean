import ArcSwap.Sequential.Sim

namespace ArcSwap.Sequential
set_option autoImplicit true

variable {K Thr Sto : Type}
variable {cfg : Config K Sto} {n n' : Nat} {X : Option (Ref K)} {m m' : Mem K Thr Sto}
  {E E' : List (Guard K Thr)} {c c' : Cell K Sto} {r : Ref K} {g : Guard K Thr} {d : Debt Thr}
  {S : Sto}

theorem Slots.same (h : Slots cfg X m E) (hs : m'.storage = m.storage) (hd : m'.debt = m.debt)
    (hc : m'.control = m.control) (hn : ∀ t ∈ m.listHead, t ∈ m'.listHead)
    (hl : ∀ d, m.debt d ≠ debtNone → m'.lender d = m.lender d)
    (hg : ∀ r d, ⟨r, some d⟩ ∈ m'.guards ++ E' → ⟨r, some d⟩ ∈ m.guards ++ E) :
    Slots cfg X m' E' := by
  have hL : ∀ r, m'.Lendable cfg X E' r → m.Lendable cfg X E r := by
    intro r hr
    rw [Mem.Lendable, hs] at hr
    exact hr.imp_right fun hr => hr.imp_right fun ⟨d, hd⟩ => ⟨d, hg r d hd⟩
  constructor
  · intro d hd3 hd0
    rw [hd] at hd3 hd0
    rw [hl d hd3, hd, hs]
    exact h.lent d hd3 hd0
  · intro t
    rw [hd]
    exact h.helping t
  · intro d hd3
    rw [hd] at hd3
    exact hn _ (h.listed d hd3)
  · intro t
    rw [hc]
    exact h.idle t
  · exact fun r r' hr hr' => h.kindred r r' (hL r hr) (hL r' hr')

theorem Mem.Aligned.same (h : m.Aligned E) (hs : m'.storage = m.storage)
    (hh : ∀ r, m'.handles r ≠ 0 → m.handles r ≠ 0 ∨ r.2 % 4 = 0)
    (hg : ∀ g ∈ m'.guards ++ E', g ∈ m.guards ++ E ∨ g.ref.2 % 4 = 0) : m'.Aligned E' := by
  constructor
  · intro S r hr
    rw [hs] at hr
    exact h.storage S r hr
  · exact fun r hr => (hh r hr).elim (h.handles r) id
  · exact fun g hm => (hg g hm).elim (h.guards g) id

variable [DecidableEq K]

theorem Heap.inc_destroyed (h : Heap K Sto) (r : Ref K) : (h.inc r).destroyed = h.destroyed := by
  rw [Heap.inc]
  split <;> rfl

theorem Heap.dec_destroyed (h : Heap K Sto) (r : Ref K) :
    (h.dec r).destroyed = if r.2 ≠ 0 ∧ h.count r = 1 then r :: h.destroyed else h.destroyed := by
  by_cases h0 : r.2 = 0
  · simp only [Heap.dec, h0, if_true, ne_eq, not_true, false_and, if_false]
  · simp only [Heap.dec, h0, if_false, ne_eq, not_false_eq_true, true_and]

theorem Heap.inc_dec (h : Heap K Sto) (hc : r.2 ≠ 0 → 0 < h.count r) : (h.inc r).dec r = h := by
  by_cases h0 : r.2 = 0
  · simp only [Heap.inc, Heap.dec, h0, if_true]
  · have hpos := hc h0
    have hne : h.count r + 1 ≠ 1 := by omega
    simp only [Heap.inc, Heap.dec, h0, if_false, Function.update_self, Nat.add_sub_cancel,
      Function.update_idem, Function.update_eq_self, hne]

theorem addHandle_handles (h : Heap K Sto) (r r' : Ref K) :
    (h.addHandle r).handles r' = h.handles r' + if r' = r ∧ r.2 ≠ 0 then 1 else 0 := by
  by_cases h0 : r.2 = 0
  · simp only [Heap.addHandle, h0, if_true, ne_eq, not_true, and_false, if_false, Nat.add_zero]
  · by_cases hr : r' = r <;>
      simp only [Heap.addHandle, h0, hr, if_false, if_true, Function.update_apply, ne_eq,
        not_false_eq_true, and_true, Nat.add_zero]

/-- The handles are all that changes. -/
structure Heap.Handles (h h' : Heap K Sto) : Prop where
  storage : h'.storage = h.storage
  count : h'.count = h.count
  destroyed : h'.destroyed = h.destroyed

theorem Heap.addHandle_only (h : Heap K Sto) (r : Ref K) : h.Handles (h.addHandle r) := by
  rw [Heap.addHandle]
  split <;> exact ⟨rfl, rfl, rfl⟩

theorem Heap.takeHandle_only {h h' : Heap K Sto} (ht : h.takeHandle r = some h') :
    h.Handles h' ∧ ∀ r', h.handles r' = h'.handles r' + if r' = r ∧ r.2 ≠ 0 then 1 else 0 := by
  rw [Heap.takeHandle] at ht
  split at ht
  · rename_i h0
    cases ht
    refine ⟨⟨rfl, rfl, rfl⟩, fun r' => ?_⟩
    rw [if_neg fun h => h.2 h0]
    rfl
  · split at ht
    · cases ht
    · cases ht
      refine ⟨⟨rfl, rfl, rfl⟩, fun r' => ?_⟩
      rename_i h0 hpos
      by_cases hr : r' = r
      · subst hr
        simp only [Function.update_self, ne_eq, h0, not_false_eq_true, and_self, if_true]
        omega
      · simp only [Function.update_of_ne hr, hr, false_and, if_false, Nat.add_zero]

theorem Heap.takeHandle_none {h : Heap K Sto} :
    h.takeHandle r = none ↔ r.2 ≠ 0 ∧ h.handles r = 0 := by
  rw [Heap.takeHandle]
  split
  · simp only [reduceCtorEq, false_iff, not_and]
    exact fun hne => (hne ‹_›).elim
  · split
    · simp only [true_iff]
      exact ⟨‹_›, ‹_›⟩
    · simp only [reduceCtorEq, false_iff, not_and]
      exact fun _ => ‹_›

variable [DecidableEq Thr]

theorem count_held_cons (G E : List (Guard K Thr)) (r r' : Ref K) :
    (G ++ held r :: E).count (held r') = (G ++ E).count (held r') + if r' = r then 1 else 0 := by
  rw [List.perm_middle.count_eq, List.count_cons]
  simp only [held, beq_iff_eq, Guard.mk.injEq, and_true, eq_comm (a := r)]

theorem count_some_cons (G E : List (Guard K Thr)) (r r' : Ref K) (d : Debt Thr) :
    (G ++ held r :: E).count ⟨r', some d⟩ = (G ++ E).count ⟨r', some d⟩ := by
  rw [List.perm_middle.count_eq, List.count_cons]
  simp only [held, beq_iff_eq, Guard.mk.injEq, reduceCtorEq, and_false, if_false, Nat.add_zero]

variable [Fintype Sto]

theorem Sim.refs_pos (hg : g ∈ m.guards ++ E) : 0 < m.refs E g := by
  have hcount := List.count_pos_iff.2 hg
  rw [Mem.refs]
  omega

variable [Fintype Thr]

theorem Sim.counted (h : Sim cfg n X m E c) (hr : Proper r) :
    (m.guards ++ E).count (held r) + m.stored r ≤ m.count r := by
  have hle : m.refs E ⟨r, none⟩ ≤ m.count r := (h.accounts.balanced r hr).counted_le
  simp only [Mem.refs, if_true] at hle
  simp only [held]
  omega

theorem Sim.same (h : Sim cfg n X m E c) (hh : m'.toHeap = m.toHeap) (hd : m'.debt = m.debt)
    (hc : m'.control = m.control) (hg : m'.guards = m.guards)
    (hn : ∀ t ∈ m.listHead, t ∈ m'.listHead)
    (hl : ∀ d, m.debt d ≠ debtNone → m'.lender d = m.lender d)
    (hf : ∀ t, m'.generation t + 4 * n' < 2 ^ cfg.width) : Sim cfg n' X m' E c := by
  have hlent : ∀ d r, Proper r → m'.lent d r = m.lent d r := by
    intro d r hp
    by_cases h3 : m.debt d = debtNone
    · rw [Mem.lent_of_ne, Mem.lent_of_ne]
      · rw [h3]
        exact fun h => hp.2 h.symm
      · rw [hd, h3]
        exact fun h => hp.2 h.symm
    · simp only [Mem.lent, hd, hl d h3]
  constructor
  · rw [hh]
    exact h.storage
  · rw [hh]
    exact h.handles
  · rw [hg]
    exact h.guards
  · rw [hh]
    exact h.destroyed
  · apply h.accounts.same (congrArg Heap.count hh) hlent
    · intro r o _
      rw [Mem.refs_congr hg (congrArg Heap.handles hh) (congrArg Heap.storage hh)]
    · exact fun _ _ => rfl
  · apply h.aligned.same (congrArg Heap.storage hh)
    · rw [hh]
      exact fun _ => .inl
    · rw [hg]
      exact fun _ => .inl
  · apply h.slots.same (congrArg Heap.storage hh) hd hc hn hl
    rw [hg]
    exact fun _ _ => id
  · exact hf

theorem Sim.count_pos (h : Sim cfg n X m E c) (hg : g ∈ m.guards ++ E) (h0 : g.ref.2 ≠ 0) :
    0 < c.count g.ref := by
  have hp := Proper.of_aligned (h.aligned.guards g hg) h0
  rw [h.accounts.total _ hp]
  have hle := Finset.single_le_sum (f := fun o => m.refs E ⟨g.ref, o⟩) (fun _ _ => Nat.zero_le _)
    (Finset.mem_univ g.debt)
  exact Nat.lt_of_lt_of_le (Sim.refs_pos hg) hle

section
omit [DecidableEq Thr] [Fintype Thr]

theorem Sim.stored_pos (hS : m.storage S = some r) : 0 < m.stored r :=
  Finset.card_pos.2 ⟨S, Finset.mem_filter.2 ⟨Finset.mem_univ S, hS⟩⟩

end

/-- What a slot lends is in a storage, so that its debt is not the only reference. -/
theorem Sim.count_lent (h : Sim cfg n none m E c) (hr : Proper r) (hl : m.lent d r = true) :
    2 ≤ c.count r := by
  obtain ⟨S, hS⟩ := h.of_lent hl hr
  have hnone : m.stored r ≤ m.refs E ⟨r, none⟩ := by
    simp only [Mem.refs, if_true]
    omega
  have hrecorded : 0 < m.refs E ⟨r, some d⟩ := (h.accounts.balanced r hr).recorded d hl
  have hle := Finset.single_le_sum (f := fun d => m.refs E ⟨r, some d⟩) (fun _ _ => Nat.zero_le _)
    (Finset.mem_univ d)
  have hstored := Sim.stored_pos hS
  rw [h.accounts.total _ hr, Fintype.sum_option]
  omega

theorem Sim.regroup {gs : List (Guard K Thr)} (h : Sim cfg n X m E c)
    (hp : (m.guards ++ E).Perm (gs ++ E')) :
    Sim cfg n X { m with guards := gs } E' { c with guards := gs.map Guard.ref } := by
  have hrefs : ∀ g, ({ m with guards := gs } : Mem K Thr Sto).refs E' g = m.refs E g := by
    intro g
    simp only [Mem.refs, hp.count_eq]
  constructor
  · exact h.storage
  · exact h.handles
  · rfl
  · exact h.destroyed
  · exact h.accounts.same rfl (fun _ _ _ => rfl) (fun _ _ _ => hrefs _) fun _ _ => rfl
  · exact h.aligned.same rfl (fun _ => .inl) fun g hg => .inl (hp.mem_iff.2 hg)
  · refine h.slots.same rfl rfl rfl (fun _ => id) (fun _ _ => rfl) ?_
    exact fun r d hg => hp.mem_iff.2 hg
  · exact h.fuel

theorem Sim.handle {h h' : Heap K Sto} (hsim : Sim cfg n X m E c) (hm : m.toHeap.Handles h)
    (hc : c.toHeap.Handles h') (hh : h.handles = h'.handles)
    (hp : ∀ r, Proper r →
      h.handles r + (m.guards ++ E').count (held r) =
        m.handles r + (m.guards ++ E).count (held r))
    (he : ∀ r d, (m.guards ++ E').count ⟨r, some d⟩ = (m.guards ++ E).count ⟨r, some d⟩)
    (ha : ∀ r, h.handles r ≠ 0 → m.handles r ≠ 0 ∨ r.2 % 4 = 0)
    (hg : ∀ g ∈ m.guards ++ E', g ∈ m.guards ++ E ∨ g.ref.2 % 4 = 0) :
    Sim cfg n X { m with toHeap := h } E' { c with toHeap := h' } := by
  constructor
  · exact hm.storage.trans (hsim.storage.trans hc.storage.symm)
  · exact hh
  · exact hsim.guards
  · exact hm.destroyed.trans (hsim.destroyed.trans hc.destroyed.symm)
  · refine hsim.accounts.same hm.count (fun _ _ _ => rfl) ?_ ?_
    · intro r o hr
      have hp := hp r hr
      cases o with
      | none =>
        simp only [Mem.refs, Heap.stored, if_true, hm.storage]
        simp only [held] at hp
        omega
      | some d => simp only [Mem.refs, reduceCtorEq, if_false, he]
    · exact fun r _ => congrFun hc.count r
  · exact hsim.aligned.same hm.storage ha hg
  · refine hsim.slots.same hm.storage rfl rfl (fun _ => id) (fun _ _ => rfl) ?_
    intro r d hd
    rw [← List.count_pos_iff, ← he, List.count_pos_iff]
    exact hd
  · exact hsim.fuel

theorem Sim.count_cases (h : Sim cfg n none m E c) (hr : Proper r) :
    m.count r = c.count r ∨ 0 < m.stored r ∧ 2 ≤ c.count r := by
  by_cases hs : ∃ d, m.lent d r = true
  · obtain ⟨d, hl⟩ := hs
    obtain ⟨S, hS⟩ := h.of_lent hl hr
    exact .inr ⟨Sim.stored_pos hS, h.count_lent hr hl⟩
  · left
    have hbalance : m.count r + (m.account E r).slots = ∑ o, m.refs E ⟨r, o⟩ :=
      (h.accounts.balanced r hr).balance
    have hslots : (m.account E r).slots = 0 := by
      apply Finset.sum_eq_zero
      intro d _
      exact if_neg fun hl => hs ⟨d, hl⟩
    rw [h.accounts.total r hr]
    omega

theorem Sim.addGuard (h : Sim cfg n X m (g :: E) c) :
    Sim cfg n X (m.addGuard g) E (c.addGuard g.ref) := by
  have hc : c.addGuard g.ref = { c with guards := (g :: m.guards).map Guard.ref } := by
    rw [List.map_cons, h.guards]
    rfl
  rw [hc]
  exact h.regroup List.perm_middle

theorem Sim.takeGuard (h : Sim cfg n X m E c) (i : Nat) :
    (m.takeGuard i).Rel (fun x y => x.1.ref = y.1 ∧ Sim cfg n X x.2 (x.1 :: E) y.2)
      (c.takeGuard i) := by
  rw [Mem.takeGuard, Cell.takeGuard, ← h.guards, List.getElem?_map]
  cases hi : m.guards[i]? with
  | none => exact .none
  | some g =>
    refine .some ⟨rfl, ?_⟩
    have hperm : m.guards.Perm (g :: m.guards.eraseIdx i) := by
      obtain ⟨hlt, rfl⟩ := List.getElem?_eq_some_iff.1 hi
      exact (List.getElem_cons_eraseIdx_perm hlt).symm
    have hperm' : (m.guards ++ E).Perm (m.guards.eraseIdx i ++ g :: E) :=
      (hperm.append_right E).trans List.perm_middle.symm
    have hsim := h.regroup hperm'
    rw [← List.eraseIdx_map] at hsim
    exact hsim

theorem Sim.addHandle (h : Sim cfg n X m (held r :: E) c) :
    Sim cfg n X (m.map (·.addHandle r)) E (c.map (·.addHandle r)) := by
  have hmem : held r ∈ m.guards ++ held r :: E := mem_middle.2 (.inl rfl)
  apply h.handle (m.toHeap.addHandle_only r) (c.toHeap.addHandle_only r)
  · funext r'
    rw [addHandle_handles, addHandle_handles, h.handles]
  · intro r' hp
    rw [addHandle_handles, count_held_cons]
    by_cases hr : r' = r
    · subst hr
      rw [if_pos ⟨rfl, hp.1⟩, if_pos rfl]
      omega
    · rw [if_neg fun h => hr h.1, if_neg hr]
      omega
  · exact fun r' d => (count_some_cons ..).symm
  · intro r' hr
    by_cases he : r' = r
    · subst he
      exact .inr (h.aligned.guards _ hmem)
    · rw [addHandle_handles, if_neg fun h => he h.1] at hr
      exact .inl hr
  · exact fun g hg => .inl (mem_middle.2 (.inr hg))

theorem Sim.takeHandle (h : Sim cfg n X m E c) (r : Ref K) :
    (m.takeHandle r).Rel (fun m c => Sim cfg n X m (held r :: E) c) (c.takeHandle r) := by
  rw [Mem.takeHandle, Cell.takeHandle]
  cases hm : m.toHeap.takeHandle r with
  | none =>
    have hc : c.toHeap.takeHandle r = none := by
      rw [Heap.takeHandle_none, ← h.handles, ← Heap.takeHandle_none]
      exact hm
    rw [hc]
    exact .none
  | some h₁ =>
    cases hc : c.toHeap.takeHandle r with
    | none =>
      rw [Heap.takeHandle_none, ← h.handles, ← Heap.takeHandle_none, hm] at hc
      cases hc
    | some h₂ =>
      obtain ⟨hm₁, hm₂⟩ := Heap.takeHandle_only hm
      obtain ⟨hc₁, hc₂⟩ := Heap.takeHandle_only hc
      apply Option.Rel.some
      apply h.handle hm₁ hc₁
      · funext r'
        have he := congrFun h.handles r'
        rw [hm₂, hc₂] at he
        omega
      · intro r' hp
        rw [hm₂ r', count_held_cons]
        by_cases hr : r' = r
        · subst hr
          rw [if_pos rfl, if_pos ⟨rfl, hp.1⟩]
          omega
        · rw [if_neg hr, if_neg fun h => hr h.1]
          omega
      · exact fun r' d => count_some_cons ..
      · intro r' hr
        left
        rw [hm₂]
        omega
      · intro g hg
        rcases mem_middle.1 hg with rfl | hg
        · right
          by_cases h0 : r.2 = 0
          · exact congrArg (· % 4) h0
          · apply h.aligned.handles r
            rw [hm₂, if_pos ⟨rfl, h0⟩]
            exact Nat.succ_ne_zero _
        · exact .inl hg

theorem Sim.inc (h : Sim cfg n X m E c) (ha : r.2 % 4 = 0) :
    Sim cfg n X (m.map (·.inc r)) (held r :: E) (c.map (·.inc r)) := by
  have hm := m.toHeap.inc_counts r
  have hc := c.toHeap.inc_counts r
  constructor
  · exact hm.storage.trans (h.storage.trans hc.storage.symm)
  · exact hm.handles.trans (h.handles.trans hc.handles.symm)
  · exact h.guards
  · exact (Heap.inc_destroyed ..).trans (h.destroyed.trans (Heap.inc_destroyed ..).symm)
  · exact h.accounts.inc r
  · apply h.aligned.same hm.storage
    · intro r' hr
      left
      rw [← hm.handles]
      exact hr
    · intro g hg
      rcases mem_middle.1 hg with rfl | hg
      · exact .inr ha
      · exact .inl hg
  · refine h.slots.same hm.storage rfl rfl (fun _ => id) (fun _ _ => rfl) ?_
    intro r' d hg
    rcases mem_middle.1 hg with hg | hg
    · cases hg
    · exact hg
  · exact h.fuel

theorem Sim.count_one (h : Sim cfg n none m E c) (hg : held r ∈ m.guards ++ E) (hr : Proper r) :
    m.count r = 1 ↔ c.count r = 1 := by
  have hcounted := h.counted hr
  have hcount := List.count_pos_iff.2 hg
  rcases h.count_cases hr with he | ⟨hstored, htwo⟩
  · rw [he]
  · omega

theorem Sim.count_zero (h : Sim cfg n none m E c) (hr : Proper r) :
    m.count r = 0 ↔ c.count r = 0 := by
  have hcounted := h.counted hr
  rcases h.count_cases hr with he | ⟨hstored, htwo⟩
  · rw [he]
  · omega

theorem Sim.dec (h : Sim cfg n none m (held r :: E) c) :
    Sim cfg n none (m.map (·.dec r)) E (c.map (·.dec r)) := by
  have hm := m.toHeap.dec_counts r
  have hc := c.toHeap.dec_counts r
  have hmem : held r ∈ m.guards ++ held r :: E := mem_middle.2 (.inl rfl)
  constructor
  · exact hm.storage.trans (h.storage.trans hc.storage.symm)
  · exact hm.handles.trans (h.handles.trans hc.handles.symm)
  · exact h.guards
  · have hone : r.2 ≠ 0 → (m.count r = 1 ↔ c.count r = 1) := fun h0 =>
      h.count_one hmem (.of_aligned (h.aligned.guards _ hmem) h0)
    have hiff : (r.2 ≠ 0 ∧ m.count r = 1) ↔ (r.2 ≠ 0 ∧ c.count r = 1) :=
      and_congr_right hone
    refine (Heap.dec_destroyed ..).trans (Eq.trans ?_ (Heap.dec_destroyed ..).symm)
    simp only [hiff, h.destroyed]
  · exact h.accounts.dec
  · apply h.aligned.same hm.storage
    · intro r' hr
      left
      rw [← hm.handles]
      exact hr
    · exact fun g hg => .inl (mem_middle.2 (.inr hg))
  · refine h.slots.same hm.storage rfl rfl (fun _ => id) (fun _ _ => rfl) ?_
    exact fun r' d hg => mem_middle.2 (.inr hg)
  · exact h.fuel

end ArcSwap.Sequential
