import ArcSwap.Sequential.Steps

namespace ArcSwap.Sequential
set_option autoImplicit true

variable {K Thr Sto : Type}
variable {cfg : Config K Sto} {n : Nat} {X : Option (Ref K)} {m m' : Mem K Thr Sto}
  {E E' : List (Guard K Thr)} {c c' : Cell K Sto} {r : Ref K} {g : Guard K Thr} {d : Debt Thr}
  {S : Sto} {t : Thr}
variable [DecidableEq K]

theorem Cell.inc_dec (hc : r.2 ≠ 0 → 0 < c.count r) :
    (c.map (·.inc r)).map (·.dec r) = c := by
  have hheap : (c.toHeap.inc r).dec r = c.toHeap := Heap.inc_dec _ hc
  simp only [Cell.map, hheap]

variable [DecidableEq Thr] [Fintype Thr] [Fintype Sto]

theorem Sim.count_stored (h : Sim cfg n X m E c) (hS : m.storage S = some r) (h0 : r.2 ≠ 0) :
    0 < c.count r := by
  have hp := Proper.of_aligned (h.aligned.storage S r hS) h0
  have hstored := Sim.stored_pos hS
  rw [h.accounts.total _ hp, Fintype.sum_option]
  simp only [Mem.refs, if_true]
  omega

theorem Sim.lend (h : Sim cfg n X m E c) (hs : cfg.strategy S ≠ .rwLock)
    (hS : m.storage S = some r) (hd : m.debt d = debtNone) (h8 : ∀ t, d ≠ helpingSlot t)
    (ht : d.1 ∈ m.listHead) :
    Sim cfg n X (m.lend d r) (⟨r, some d⟩ :: E) (c.map (·.inc r)) := by
  have hc := c.toHeap.inc_counts r
  constructor
  · exact h.storage.trans hc.storage.symm
  · exact h.handles.trans hc.handles.symm
  · exact h.guards
  · exact h.destroyed.trans (Heap.inc_destroyed ..).symm
  · exact h.accounts.lend r hd
  · refine h.aligned.same rfl (fun _ => .inl) fun g hg => ?_
    rcases mem_middle.1 hg with rfl | hg
    · exact .inr (h.aligned.storage S r hS)
    · exact .inl hg
  · have hL : ∀ r', (m.lend d r).Lendable cfg X (⟨r, some d⟩ :: E) r' → m.Lendable cfg X E r' := by
      rintro r' (hX | hS' | ⟨d', hg⟩)
      · exact .inl hX
      · exact .inr (.inl hS')
      · rcases mem_middle.1 hg with hg | hg
        · cases hg
          exact .inr (.inl ⟨S, hs, hS⟩)
        · exact .inr (.inr ⟨d', hg⟩)
    constructor
    · intro x h3 h0
      by_cases hx : x = d
      · subst hx
        simp only [Mem.lend, Function.update_self]
        exact ⟨r.1, rfl, .inr ⟨S, hs, hS⟩⟩
      · simp only [Mem.lend, Function.update_of_ne hx] at h3 h0 ⊢
        exact h.slots.lent x h3 h0
    · intro t
      simp only [Mem.lend, Function.update_of_ne (h8 t).symm]
      exact h.slots.helping t
    · intro x h3
      by_cases hx : x = d
      · exact hx ▸ ht
      · simp only [Mem.lend, Function.update_of_ne hx] at h3
        exact h.slots.listed x h3
    · exact h.slots.idle
    · exact fun r' r'' hr hr' => h.slots.kindred r' r'' (hL r' hr) (hL r'' hr')
  · exact h.fuel

theorem Sim.paid (h : Sim cfg n X m (⟨r, some d⟩ :: E) c) (hd : m.debt d ≠ r.2) :
    Sim cfg n X m (held r :: E) c := by
  refine ⟨h.storage, h.handles, h.guards, h.destroyed, h.accounts.paid hd, ?_, ?_, h.fuel⟩
  · refine h.aligned.same rfl (fun _ => .inl) fun g hg => ?_
    rcases mem_middle.1 hg with rfl | hg
    · exact .inr (h.aligned.guards ⟨r, some d⟩ (mem_middle.2 (.inl rfl)))
    · exact .inl (mem_middle.2 (.inr hg))
  · refine h.slots.same rfl rfl rfl (fun _ => id) (fun _ _ => rfl) fun r' d' hg => ?_
    rcases mem_middle.1 hg with hg | hg
    · cases hg
    · exact mem_middle.2 (.inr hg)

theorem Sim.repay {o : Option (Debt Thr)} (h : Sim cfg n X m (⟨r, o⟩ :: E) c)
    (ho : o = none ∨ o = some d) (hd : m.debt d = r.2)
    (hL : m.Lendable cfg X (⟨r, o⟩ :: E) r) (hc : r.2 ≠ 0 → c.count r ≠ 1) :
    Sim cfg n X (m.clear d) E (c.map (·.dec r)) := by
  have hcounts := c.toHeap.dec_counts r
  constructor
  · exact h.storage.trans hcounts.storage.symm
  · exact h.handles.trans hcounts.handles.symm
  · exact h.guards
  · refine h.destroyed.trans ((Heap.dec_destroyed ..).trans (if_neg ?_)).symm
    exact fun hr => hc hr.1 hr.2
  · exact h.accounts.repay ho hd fun hp => h.lender hL hd hp
  · exact h.aligned.same rfl (fun _ => .inl) fun g hg => .inl (mem_middle.2 (.inr hg))
  · have hL' : ∀ r', (m.clear d).Lendable cfg X E r' → m.Lendable cfg X (⟨r, o⟩ :: E) r' := by
      rintro r' (hX | hS | ⟨d', hg⟩)
      · exact .inl hX
      · exact .inr (.inl hS)
      · exact .inr (.inr ⟨d', mem_middle.2 (.inr hg)⟩)
    constructor
    · intro x h3 h0
      by_cases hx : x = d
      · subst hx
        simp only [Mem.clear, Function.update_self, ne_eq, not_true] at h3
      · simp only [Mem.clear, Function.update_of_ne hx] at h3 h0 ⊢
        exact h.slots.lent x h3 h0
    · intro t
      by_cases hx : helpingSlot t = d
      · simp only [Mem.clear, hx, Function.update_self]
      · simp only [Mem.clear, Function.update_of_ne hx]
        exact h.slots.helping t
    · intro x h3
      by_cases hx : x = d
      · subst hx
        simp only [Mem.clear, Function.update_self, ne_eq, not_true] at h3
      · simp only [Mem.clear, Function.update_of_ne hx] at h3
        exact h.slots.listed x h3
    · exact h.slots.idle
    · exact fun r' r'' hr hr' => h.slots.kindred r' r'' (hL' r' hr) (hL' r'' hr')
  · exact h.fuel

theorem Sim.guardDrop (h : Sim cfg n none m (g :: E) c) :
    Sim cfg n none (m.guardDrop g) E (c.map (·.dec g.ref)) := by
  obtain ⟨r, o⟩ := g
  have hg : (⟨r, o⟩ : Guard K Thr) ∈ m.guards ++ ⟨r, o⟩ :: E := mem_middle.2 (.inl rfl)
  cases o with
  | none => exact h.dec
  | some d =>
    by_cases hd : m.debt d = r.2
    · have hL : m.Lendable cfg none (⟨r, some d⟩ :: E) r := .inr (.inr ⟨d, hg⟩)
      have hdrop : m.guardDrop ⟨r, some d⟩ = m.clear d := by
        simp only [Mem.guardDrop, Mem.pay, hd, if_true]
      rw [hdrop]
      apply h.repay (.inr rfl) hd hL
      intro h0 hone
      have hp := Proper.of_aligned (h.aligned.guards _ hg) h0
      have htwo : 2 ≤ c.count r := h.count_lent hp (decide_eq_true ⟨hd, h.lender hL hd hp⟩)
      omega
    · have hdrop : m.guardDrop ⟨r, some d⟩ = m.map (·.dec r) := by
        simp only [Mem.guardDrop, Mem.pay, hd, if_false, Bool.false_eq_true]
      rw [hdrop]
      exact (h.paid hd).dec

theorem Sim.intoInner (h : Sim cfg n none m (g :: E) c) :
    Sim cfg n none (m.intoInner g) (held g.ref :: E) c := by
  obtain ⟨r, o⟩ := g
  have hg : (⟨r, o⟩ : Guard K Thr) ∈ m.guards ++ ⟨r, o⟩ :: E := mem_middle.2 (.inl rfl)
  cases o with
  | none => exact h
  | some d =>
    have hinner : m.intoInner ⟨r, some d⟩ = (m.map (·.inc r)).guardDrop ⟨r, some d⟩ := rfl
    have hinc := (h.inc (h.aligned.guards _ hg)).perm (.swap ..)
    have hdrop := hinc.guardDrop
    rw [hinner, ← Cell.inc_dec (h.count_pos hg)]
    exact hdrop

end ArcSwap.Sequential
