import ArcSwap.Sequential.Storages

namespace ArcSwap.Sequential
set_option autoImplicit true

variable {K Thr Sto : Type}
variable {cfg : Config K Sto} {n : Nat} {m m' : Mem K Thr Sto} {E E' : List (Guard K Thr)}
  {c c' : Cell K Sto} {r old : Ref K} {S : Sto} {t : Thr}
variable [DecidableEq K]

theorem Cell.takeHandle_inc (c : Cell K Sto) (r r' : Ref K) :
    (c.map (·.inc r)).takeHandle r' = (c.takeHandle r').map (·.map (·.inc r)) := by
  simp only [Cell.takeHandle, Cell.map, Heap.takeHandle, Heap.inc]
  by_cases h0 : r.2 = 0
  · simp only [h0, if_true, Option.map_map]
    rfl
  · by_cases h0' : r'.2 = 0
    · simp only [h0, h0', if_true, if_false, Option.map_some]
    · by_cases hh : c.handles r' = 0
      · simp only [h0, h0', hh, if_true, if_false, Option.map_none]
      · simp only [h0, h0', hh, if_false, Option.map_some]

theorem Cell.inc_storage (c : Cell K Sto) (r : Ref K) : (c.map (·.inc r)).storage = c.storage :=
  (c.toHeap.inc_counts r).storage

theorem Cell.takeHandle_only (h : c.takeHandle r = some c') : c'.storage = c.storage ∧
    c'.count = c.count := by
  rw [Cell.takeHandle, Option.map_eq_some_iff] at h
  obtain ⟨h', ht, rfl⟩ := h
  have honly := (Heap.takeHandle_only ht).1
  exact ⟨honly.storage, honly.count⟩

variable [Fintype Sto]

theorem Cell.Separate.same (h : c.Separate cfg) (hs : c'.storage = c.storage)
    (hg : ∀ r ∈ c'.guards, r ∈ c.guards) : c'.Separate cfg := by
  have hlent : ∀ r ∈ c'.lent cfg, r ∈ c.lent cfg := by
    intro r hr
    rw [Cell.mem_lent, hs] at hr
    exact Cell.mem_lent.2 (hr.imp_right (hg r))
  exact fun r hr r' hr' => h r (hlent r hr) r' (hlent r' hr')

variable [DecidableEq Thr] [Fintype Thr]

theorem Sim.alloc [Fintype K] (h : Sim cfg n none m [] c) (r : Ref K) :
    (m.toHeap.alloc r).Rel (fun x y => Sim cfg n none { m with toHeap := x } [] { c with toHeap := y })
      (c.toHeap.alloc r) := by
  by_cases ha : r.2 ≠ 0 ∧ r.2 % 4 = 0
  · have hcount : (∀ k, m.count (k, r.2) = 0) ↔ ∀ k, c.count (k, r.2) = 0 :=
      forall_congr' fun k => h.count_zero (.of_aligned (r := (k, r.2)) ha.2 ha.1)
    by_cases hfree : ∀ k, c.count (k, r.2) = 0
    · rw [Heap.alloc, Heap.alloc, if_pos ⟨ha.1, ha.2, hcount.2 hfree⟩, if_pos ⟨ha.1, ha.2, hfree⟩]
      exact .some (h.inc ha.2).addHandle
    · rw [Heap.alloc, Heap.alloc, if_neg fun h => hfree (hcount.1 h.2.2), if_neg fun h => hfree h.2.2]
      exact .none
  · rw [Heap.alloc, Heap.alloc, if_neg fun h => ha ⟨h.1, h.2.1⟩, if_neg fun h => ha ⟨h.1, h.2.1⟩]
    exact .none

theorem Sim.derive (h : Sim cfg n none m E c) (ha : r.2 % 4 = 0) (upgrades : K → Bool) (k : K) :
    (m.toHeap.derive upgrades r k).1 = (c.toHeap.derive upgrades r k).1 ∧
      Sim cfg n none (m.map fun h => (h.derive upgrades r k).2) E
        (c.map fun h => (h.derive upgrades r k).2) := by
  by_cases h0 : r.2 = 0
  · have hderive : ∀ h : Heap K Sto, h.derive upgrades r k = (0, h) := by
      intro h
      simp only [Heap.derive, h0, Heap.inc, Heap.addHandle, if_true, ite_self]
    simp only [hderive, Mem.map, Cell.map]
    exact ⟨trivial, h⟩
  · have hcount := h.count_zero (.of_aligned (r := (k, r.2)) ha h0)
    by_cases hup : upgrades k = true ∧ c.count (k, r.2) = 0
    · have hup' : upgrades k = true ∧ m.count (k, r.2) = 0 := ⟨hup.1, hcount.2 hup.2⟩
      simp only [Heap.derive, Mem.map, Cell.map, if_pos hup, if_pos hup']
      exact ⟨trivial, h⟩
    · have hup' : ¬(upgrades k = true ∧ m.count (k, r.2) = 0) :=
        fun hm => hup ⟨hm.1, hcount.1 hm.2⟩
      simp only [Heap.derive, Mem.map, Cell.map, if_neg hup, if_neg hup']
      exact ⟨trivial, (h.inc (r := (k, r.2)) ha).addHandle⟩

variable [DecidableEq Sto]

/-- What `compare_and_swap` makes of the cell, but for its guard. -/
def Cell.exchange (c : Cell K Sto) (S : Sto) (old : Ref K) (current new : Nat) : Cell K Sto :=
  if old.2 = current then c.map (·.setStorage S (some (old.1, new)))
  else c.map fun h => (h.inc old).dec (old.1, new)

section
omit [Fintype Sto] [DecidableEq Thr] [Fintype Thr]

theorem Heap.setStorage_inc (h : Heap K Sto) (S : Sto) (x : Option (Ref K)) (r : Ref K) :
    (h.inc r).setStorage S x = (h.setStorage S x).inc r := by
  by_cases h0 : r.2 = 0
  · simp only [Heap.inc, h0, if_true]
  · simp only [Heap.inc, h0, if_false, Heap.setStorage]

/-- The reference of a guard comes and goes around an exchange. -/
theorem Cell.inc_set_dec (x : Option (Ref K)) (hc : r.2 ≠ 0 → 0 < c.count r) :
    ((c.map (·.inc r)).map (·.setStorage S x)).map (·.dec r) = c.map (·.setStorage S x) := by
  have hswap : (c.map (·.inc r)).map (·.setStorage S x) =
      (c.map (·.setStorage S x)).map (·.inc r) := by
    simp only [Cell.map, Heap.setStorage_inc]
  have hc' : r.2 ≠ 0 → 0 < (c.map (·.setStorage S x)).count r := hc
  rw [hswap, Cell.inc_dec hc']

end

theorem Sim.swap {new : Nat} (h : Sim cfg n none m [held (old.1, new)] c)
    (hS : m.storage S = some old) (hsep : (c.map (·.setStorage S (some (old.1, new)))).Separate cfg)
    (t : Thr) : ∃ m', m.swap cfg t S new = some (old, m') ∧
      Sim cfg n none m' [held old] (c.map (·.setStorage S (some (old.1, new)))) := by
  have hinstall := h.install hS (fun g hg => absurd hg List.not_mem_nil) hsep
  have hpos : old.2 ≠ 0 → 0 < (c.map (·.setStorage S (some (old.1, new)))).count old :=
    h.count_stored hS
  obtain ⟨m', he, hsim⟩ := hinstall.waitForReaders (h.aligned.storage S old hS) hpos t
  refine ⟨m', ?_, hsim⟩
  rw [Mem.swap, hS, Option.bind_some, he]
  rfl

theorem Sim.remove (h : Sim cfg n none m [] c) (hS : m.storage S = some r) (t : Thr) :
    ∃ m', m.remove cfg t S = some (r, m') ∧
      Sim cfg n none m' [held r] (c.map (·.setStorage S none)) := by
  cases hs : cfg.strategy S with
  | rwLock =>
    refine ⟨m.map (·.setStorage S none), ?_, h.emptied hS fun hne => absurd hs hne⟩
    simp only [Mem.remove, hS, Option.bind_some, Mem.waitForReaders, hs, Option.map_some]
  | hybrid useFast =>
    have hne : cfg.strategy S ≠ .rwLock := by
      rw [hs]
      exact Strategy.noConfusion
    have hX : ∀ r', none = some r' → r' = r := fun r' hr => absurd hr.symm (Option.some_ne_none r')
    obtain ⟨m', he, hsim, hd⟩ := h.payAll (.inr ⟨S, hne, hS⟩) hX (h.aligned.storage S r hS)
      (h.count_stored hS) t
    have hS' : m'.storage S = some r := by rw [hsim.storage, ← h.storage, hS]
    refine ⟨m'.map (·.setStorage S none), ?_, hsim.emptied hS' fun _ => hd⟩
    simp only [Mem.remove, hS, Option.bind_some, Mem.waitForReaders, hs, he, Option.map_some]

/-- `HybridStrategy::compare_and_swap`: only the last of its exchanges counts. -/
theorem Sim.hybridCas {current new spurious : Nat}
    (h : Sim cfg (spurious + 1 + n) none m (held (old.1, new) :: E) c)
    (hS : m.storage S = some old) (hE : ∀ g ∈ E, g.debt ≠ none → g.ref = old)
    (hsep : old.2 = current → (c.map (·.setStorage S (some (old.1, new)))).Separate cfg) (t : Thr) :
    ∃ o m', Mem.hybridCas cfg t S current new spurious m = some (⟨old, o⟩, m') ∧
      Sim cfg n none m' (⟨old, o⟩ :: E) (c.exchange S old current new) := by
  induction spurious generalizing m with
  | zero =>
    obtain ⟨o, m₁, he, hload⟩ := (h.mono (by omega : n + 1 ≤ 0 + 1 + n)).load hS t
    have hheld := hload.perm (.swap ..)
    have hS₁ : m₁.storage S = some old := by
      rw [hload.storage, Cell.inc_storage, ← h.storage, hS]
    by_cases hcur : old.2 = current
    · have hsep' : ((c.map (·.inc old)).map (·.setStorage S (some (old.1, new)))).Separate cfg := by
        apply (hsep hcur).same
        · simp only [Cell.map, Heap.setStorage_inc]
          exact (Heap.inc_counts ..).storage
        · exact fun _ => id
      have hE' : ∀ g ∈ ⟨old, o⟩ :: E, g.debt ≠ none → g.ref = old := by
        intro g hg hd
        rcases List.mem_cons.1 hg with rfl | hg
        · rfl
        · exact hE g hg hd
      have hinstall := hheld.install hS₁ hE' hsep'
      have hpos := h.count_stored hS
      obtain ⟨m₂, he₂, hwait⟩ := hinstall.waitForReaders (h.aligned.storage S old hS)
        (hinstall.count_pos (mem_middle.2 (.inl rfl))) t
      refine ⟨o, m₂.map (·.dec old), ?_, ?_⟩
      · have hS' : m₁.storage S = some (old.1, current) := by rw [hS₁, ← hcur]
        simp only [Mem.hybridCas, he, Option.bind_some, hcur, ne_eq, not_true, if_false, hS',
          if_true, he₂, Option.map_some]
      · rw [Cell.exchange, if_pos hcur, ← Cell.inc_set_dec _ hpos]
        exact hwait.dec
    · refine ⟨o, m₁.map (·.dec (old.1, new)), ?_, ?_⟩
      · simp only [Mem.hybridCas, he, Option.bind_some, hcur, ne_eq, not_false_eq_true, if_true]
      · rw [Cell.exchange, if_neg hcur]
        exact hheld.dec
  | succ k ih =>
    obtain ⟨o, m₁, he, hload⟩ := (h.mono (by omega : k + 1 + n + 1 ≤ k + 1 + 1 + n)).load hS t
    by_cases hcur : old.2 = current
    · have hpos := h.count_stored hS
      have hdrop := hload.guardDrop
      rw [Cell.inc_dec hpos] at hdrop
      have hS₁ : (m₁.guardDrop ⟨old, o⟩).storage S = some old := by
        rw [hdrop.storage, ← h.storage, hS]
      obtain ⟨o', m₂, he₂, hsim⟩ := ih hdrop hS₁
      refine ⟨o', m₂, ?_, hsim⟩
      rw [Mem.hybridCas, he, Option.bind_some]
      exact (if_neg (not_not.2 hcur)).trans he₂
    · refine ⟨o, m₁.map (·.dec (old.1, new)), ?_, ?_⟩
      · rw [Mem.hybridCas, he, Option.bind_some]
        exact if_pos hcur
      · rw [Cell.exchange, if_neg hcur]
        exact ((hload.perm (.swap ..)).dec).mono (by omega)

theorem Sim.cas {current new spurious : Nat}
    (h : Sim cfg (spurious + 1 + n) none m (held (old.1, new) :: E) c)
    (hS : m.storage S = some old) (hE : ∀ g ∈ E, g.debt ≠ none → g.ref = old)
    (hsep : old.2 = current → (c.map (·.setStorage S (some (old.1, new)))).Separate cfg) (t : Thr) :
    ∃ o m', m.cas cfg t S current new spurious = some (⟨old, o⟩, m') ∧
      Sim cfg n none m' (⟨old, o⟩ :: E) (c.exchange S old current new) := by
  cases hs : cfg.strategy S with
  | rwLock =>
    by_cases hcur : old.2 = current
    · have hinstall := h.install hS hE (hsep hcur)
      rw [Config.taken, if_pos hs] at hinstall
      refine ⟨none, m.map (·.setStorage S (some (old.1, new))), ?_, ?_⟩
      · simp only [Mem.cas, hs, Mem.rwLockCas, hS, Option.map_some, hcur, if_true]
      · rw [Cell.exchange, if_pos hcur]
        exact hinstall.mono (by omega)
    · refine ⟨none, m.map fun h => (h.inc old).dec (old.1, new), ?_, ?_⟩
      · simp only [Mem.cas, hs, Mem.rwLockCas, hS, Option.map_some, hcur, if_false]
      · rw [Cell.exchange, if_neg hcur]
        exact (((h.inc (h.aligned.storage S old hS)).perm (.swap ..)).dec).mono (by omega)
  | hybrid useFast =>
    obtain ⟨o, m', he, hsim⟩ := h.hybridCas hS hE hsep t
    exact ⟨o, m', by simp only [Mem.cas, hs, he], hsim⟩

/-- `ArcSwapAny::rcu` needs one round when it is alone. -/
theorem Sim.rcu {f : Nat → Nat} {spurious : Nat} (h : Sim cfg (spurious + 2 + n) none m [] c)
    (hS : m.storage S = some old)
    (hsep : ∀ c', c.takeHandle (old.1, f old.2) = some c' →
      (c'.map (·.setStorage S (some (old.1, f old.2)))).Separate cfg) (rounds : Nat) (t : Thr) :
    ((m.load cfg t S).bind fun x => Mem.rcuLoop cfg t S f spurious (rounds + 1) x.1 x.2).Rel
      (fun x c' => x.1 = old ∧ Sim cfg n none x.2 [held old]
        (c'.map (·.setStorage S (some (old.1, f old.2)))))
      (c.takeHandle (old.1, f old.2)) := by
  obtain ⟨o, m₁, he, hload⟩ := (h.mono (by omega : spurious + 1 + n + 1 ≤ _)).load hS t
  have hpos := h.count_stored hS
  have htake := hload.takeHandle (old.1, f old.2)
  rw [he, Option.bind_some, Mem.rcuLoop]
  rw [Cell.takeHandle_inc] at htake
  cases hc : c.takeHandle (old.1, f old.2) with
  | none =>
    rw [hc] at htake
    cases hm : m₁.takeHandle (old.1, f old.2) with
    | none => exact .none
    | some m₂ =>
      rw [hm] at htake
      cases htake
  | some c' =>
    rw [hc] at htake
    cases hm : m₁.takeHandle (old.1, f old.2) with
    | none =>
      rw [hm] at htake
      cases htake
    | some m₂ =>
      rw [hm, Option.map_some] at htake
      cases htake with
      | some hsim =>
        obtain ⟨hstorage, hcount⟩ := Cell.takeHandle_only hc
        have hS₂ : m₂.storage S = some old := by
          rw [hsim.storage, Cell.inc_storage, hstorage, ← h.storage, hS]
        have hE : ∀ g ∈ [(⟨old, o⟩ : Guard K Thr)], g.debt ≠ none → g.ref = old := by
          intro g hg _
          rw [List.mem_singleton.1 hg]
        have hsep' : old.2 = old.2 → ((c'.map (·.inc old)).map
            (·.setStorage S (some (old.1, f old.2)))).Separate cfg := by
          intro _
          apply (hsep c' hc).same
          · simp only [Cell.map, Heap.setStorage_inc]
            exact (Heap.inc_counts ..).storage
          · exact fun _ => id
        obtain ⟨o', m₃, he₃, hcas⟩ := hsim.cas hS₂ hE hsep' t
        rw [Cell.exchange, if_pos rfl] at hcas
        have hdrop := (hcas.intoInner.perm (.swap ..)).guardDrop
        rw [Cell.inc_set_dec _ (by rw [hcount]; exact hpos)] at hdrop
        rw [Option.bind_some, he₃, Option.bind_some]
        simp only [if_true]
        exact .some ⟨rfl, hdrop⟩

end ArcSwap.Sequential
