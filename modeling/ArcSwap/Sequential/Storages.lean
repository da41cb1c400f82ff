import ArcSwap.Sequential.Writers

namespace ArcSwap.Sequential
set_option autoImplicit true

variable {K Thr Sto : Type}
variable {cfg : Config K Sto} {n : Nat} {X : Option (Ref K)} {m m' : Mem K Thr Sto}
  {E E' : List (Guard K Thr)} {c c' : Cell K Sto} {r old : Ref K} {S : Sto} {t : Thr}
variable [DecidableEq Sto]

theorem Mem.setStorage_ne (m : Mem K Thr Sto) {S S' : Sto} (hS : S' ≠ S) (x : Option (Ref K)) :
    (m.map (·.setStorage S x)).storage S' = m.storage S' :=
  Function.update_of_ne hS ..

theorem Mem.setStorage_self (m : Mem K Thr Sto) (S : Sto) (x : Option (Ref K)) :
    (m.map (·.setStorage S x)).storage S = x :=
  Function.update_self ..

variable [DecidableEq K] [Fintype Sto]

/-- The pointers of a cell that can be lent: those in storages that lend them, and those in guards. -/
def Cell.lent (cfg : Config K Sto) (c : Cell K Sto) : Finset (Ref K) :=
  ((Finset.univ.filter fun S => cfg.strategy S ≠ .rwLock).biUnion fun S =>
    (c.storage S).toFinset) ∪ c.guards.toFinset

/-- Equal pointers that can be lent are counted alike. -/
def Cell.Separate (cfg : Config K Sto) (c : Cell K Sto) : Prop :=
  ∀ r ∈ c.lent cfg, ∀ r' ∈ c.lent cfg, r.2 = r'.2 → r.2 ≠ 0 → r = r'

variable [DecidableEq Thr] [Fintype Thr]

instance : Decidable (Cell.Separate cfg c) :=
  inferInstanceAs (Decidable (∀ r ∈ c.lent cfg, ∀ r' ∈ c.lent cfg, r.2 = r'.2 → r.2 ≠ 0 → r = r'))

section
omit [DecidableEq Sto] [DecidableEq Thr] [Fintype Thr]

theorem Cell.mem_lent : r ∈ c.lent cfg ↔
    (∃ S, cfg.strategy S ≠ .rwLock ∧ c.storage S = some r) ∨ r ∈ c.guards := by
  simp only [Cell.lent, Finset.mem_union, Finset.mem_biUnion, Finset.mem_filter, Finset.mem_univ,
    true_and, Option.mem_toFinset, Option.mem_def, List.mem_toFinset]

end

theorem Heap.stored_set (h : Heap K Sto) (S : Sto) (x : Option (Ref K)) (r : Ref K) :
    (h.setStorage S x).stored r + (if h.storage S = some r then 1 else 0) =
      h.stored r + if x = some r then 1 else 0 := by
  simp only [Heap.stored, Finset.card_filter]
  exact Concurrent.sum_update_add h.storage (fun x => if x = some r then 1 else 0) S x

theorem Sim.setStorage {x : Option (Ref K)} (h : Sim cfg n none m E c)
    (hheld : ∀ r, (m.guards ++ E').count (held r) + (if x = some r then 1 else 0) =
      (m.guards ++ E).count (held r) + if m.storage S = some r then 1 else 0)
    (hdebt : ∀ r d, (m.guards ++ E').count ⟨r, some d⟩ = (m.guards ++ E).count ⟨r, some d⟩)
    (hx : ∀ r, x = some r → r.2 % 4 = 0) (ha : ∀ g ∈ E', g ∈ E ∨ g.ref.2 % 4 = 0)
    (hslots : Slots cfg X (m.map (·.setStorage S x)) E') :
    Sim cfg n X (m.map (·.setStorage S x)) E' (c.map (·.setStorage S x)) := by
  constructor
  · simp only [Cell.map, Mem.map, Heap.setStorage, h.storage]
  · exact h.handles
  · exact h.guards
  · exact h.destroyed
  · refine h.accounts.same rfl (fun _ _ _ => rfl) ?_ fun _ _ => rfl
    intro r o _
    cases o with
    | none =>
      have hh := hheld r
      have hs := m.toHeap.stored_set S x r
      have hh' : (m.map (·.setStorage S x)).refs E' ⟨r, none⟩ =
          (m.guards ++ E').count (held r) +
            (m.handles r + (m.toHeap.setStorage S x).stored r) := rfl
      rw [hh', Mem.refs, if_pos rfl]
      simp only [held] at hh ⊢
      omega
    | some d => exact congrArg (· + 0) (hdebt r d)
  · constructor
    · intro S' r hr
      by_cases hS : S' = S
      · subst hS
        exact hx r ((m.setStorage_self S' x).symm.trans hr)
      · exact h.aligned.storage S' r ((m.setStorage_ne hS x).symm.trans hr)
    · exact h.aligned.handles
    · intro g hg
      rcases List.mem_append.1 hg with hg | hg
      · exact h.aligned.guards g (List.mem_append_left _ hg)
      · rcases ha g hg with hg | hg
        · exact h.aligned.guards g (List.mem_append_right _ hg)
        · exact hg
  · exact hslots
  · exact h.fuel

theorem Sim.lent_set {x : Option (Ref K)} (h : Sim cfg n none m E c)
    (hL : (∃ S', cfg.strategy S' ≠ .rwLock ∧ (m.map (·.setStorage S x)).storage S' = some r) ∨
      ∃ d, (⟨r, some d⟩ : Guard K Thr) ∈ m.guards) :
    r ∈ (c.map (·.setStorage S x)).lent cfg := by
  rw [Cell.mem_lent]
  rcases hL with ⟨S', hs, hS'⟩ | ⟨d, hg⟩
  · have he : (c.map (·.setStorage S x)).storage = (m.map (·.setStorage S x)).storage := by
      simp only [Cell.map, Mem.map, Heap.setStorage, h.storage]
    rw [he]
    exact .inl ⟨S', hs, hS'⟩
  · have hmem : r ∈ m.guards.map Guard.ref := List.mem_map.2 ⟨_, hg, rfl⟩
    rw [h.guards] at hmem
    exact .inr hmem

theorem Sim.install {new : Nat} (h : Sim cfg n none m (held (old.1, new) :: E) c)
    (hS : m.storage S = some old) (hE : ∀ g ∈ E, g.debt ≠ none → g.ref = old)
    (hsep : (c.map (·.setStorage S (some (old.1, new)))).Separate cfg) :
    Sim cfg n (cfg.taken S old) (m.map (·.setStorage S (some (old.1, new)))) (held old :: E)
      (c.map (·.setStorage S (some (old.1, new)))) := by
  have hnew : new % 4 = 0 := h.aligned.guards _ (mem_middle.2 (.inl rfl))
  apply h.setStorage
  · intro r
    simp only [count_held_cons, hS, Option.some.injEq, eq_comm (a := r)]
    omega
  · exact fun r d => (count_some_cons ..).trans (count_some_cons ..).symm
  · rintro r hr
    cases hr
    exact hnew
  · intro g hg
    rcases List.mem_cons.1 hg with rfl | hg
    · exact .inr (h.aligned.storage S old hS)
    · exact .inl (List.mem_cons_of_mem _ hg)
  · have hbefore : ∀ r, (m.map (·.setStorage S (some (old.1, new)))).Lendable cfg
        (cfg.taken S old) (held old :: E) r → (r = (old.1, new) ∧ cfg.strategy S ≠ .rwLock) ∨
          m.Lendable cfg none (held (old.1, new) :: E) r := by
      rintro r (hX | ⟨S', hs, hS'⟩ | ⟨d, hg⟩)
      · rw [Config.taken] at hX
        split at hX
        · cases hX
        · rename_i hs
          cases hX
          exact .inr (.inr (.inl ⟨S, hs, hS⟩))
      · by_cases he : S' = S
        · subst he
          rw [Mem.setStorage_self] at hS'
          exact .inl ⟨(Option.some.inj hS').symm, hs⟩
        · rw [Mem.setStorage_ne m he] at hS'
          exact .inr (.inr (.inl ⟨S', hs, hS'⟩))
      · rcases mem_middle.1 hg with hg | hg
        · cases hg
        · exact .inr (.inr (.inr ⟨d, mem_middle.2 (.inr hg)⟩))
    have hafter : ∀ r, (m.map (·.setStorage S (some (old.1, new)))).Lendable cfg
        (cfg.taken S old) (held old :: E) r → r = old ∨
          r ∈ (c.map (·.setStorage S (some (old.1, new)))).lent cfg := by
      rintro r (hX | ⟨S', hs, hS'⟩ | ⟨d, hg⟩)
      · rw [Config.taken] at hX
        split at hX
        · cases hX
        · exact .inl (Option.some.inj hX).symm
      · exact .inr (h.lent_set (.inl ⟨S', hs, hS'⟩))
      · rcases mem_middle.1 hg with hg | hg
        · cases hg
        · rcases List.mem_append.1 hg with hg | hg
          · exact .inr (h.lent_set (.inr ⟨d, hg⟩))
          · exact .inl (hE _ hg (Option.some_ne_none d))
    have hlent : cfg.strategy S ≠ .rwLock →
        (old.1, new) ∈ (c.map (·.setStorage S (some (old.1, new)))).lent cfg := fun hs =>
      Cell.mem_lent.2 (.inl ⟨S, hs, Function.update_self ..⟩)
    refine ⟨fun d h3 h0 => ?_, h.slots.helping, h.slots.listed, h.slots.idle, ?_⟩
    · obtain ⟨k, hk, hX | ⟨S', hs, hS'⟩⟩ := h.slots.lent d h3 h0
      · cases hX
      · refine ⟨k, hk, ?_⟩
        by_cases he : S' = S
        · subst he
          rw [hS] at hS'
          rw [Config.taken, if_neg hs]
          exact .inl hS'
        · exact .inr ⟨S', hs, (m.setStorage_ne he _).trans hS'⟩
    · intro r r' hr hr' h2 h0
      rcases hbefore r hr with ⟨rfl, hs⟩ | hb
      · rcases hafter r' hr' with rfl | ha
        · exact Prod.ext rfl h2
        · exact hsep _ (hlent hs) _ ha h2 h0
      · rcases hbefore r' hr' with ⟨rfl, hs⟩ | hb'
        · rcases hafter r hr with rfl | ha
          · exact Prod.ext rfl h2
          · exact hsep _ ha _ (hlent hs) h2 h0
        · exact h.slots.kindred r r' hb hb' h2 h0

theorem Sim.create (h : Sim cfg n none m [held r] c) (hS : m.storage S = none)
    (hsep : (c.map (·.setStorage S (some r))).Separate cfg) :
    Sim cfg n none (m.map (·.setStorage S (some r))) [] (c.map (·.setStorage S (some r))) := by
  have hr : r.2 % 4 = 0 := h.aligned.guards _ (mem_middle.2 (.inl rfl))
  apply h.setStorage
  · intro r'
    simp only [count_held_cons, hS, reduceCtorEq, if_false, Option.some.injEq, eq_comm (a := r')]
    omega
  · exact fun r d => (count_some_cons ..).symm
  · rintro r' hr'
    cases hr'
    exact hr
  · exact fun g hg => absurd hg List.not_mem_nil
  · have hlent : ∀ r', (m.map (·.setStorage S (some r))).Lendable cfg none [] r' →
        r' ∈ (c.map (·.setStorage S (some r))).lent cfg := by
      rintro r' (hX | ⟨S', hs, hS'⟩ | ⟨d, hg⟩)
      · cases hX
      · exact h.lent_set (.inl ⟨S', hs, hS'⟩)
      · rw [List.append_nil] at hg
        exact h.lent_set (.inr ⟨d, hg⟩)
    refine ⟨fun d h3 h0 => ?_, h.slots.helping, h.slots.listed, h.slots.idle, ?_⟩
    · obtain ⟨k, hk, hX | ⟨S', hs, hS'⟩⟩ := h.slots.lent d h3 h0
      · cases hX
      · have he : S' ≠ S := by
          rintro rfl
          rw [hS] at hS'
          cases hS'
        exact ⟨k, hk, .inr ⟨S', hs, (m.setStorage_ne he _).trans hS'⟩⟩
    · exact fun r r' hr hr' => hsep r (hlent r hr) r' (hlent r' hr')

theorem Sim.emptied (h : Sim cfg n none m E c) (hS : m.storage S = some r)
    (hd : cfg.strategy S ≠ .rwLock → ∀ d, m.debt d ≠ r.2) :
    Sim cfg n none (m.map (·.setStorage S none)) (held r :: E)
      (c.map (·.setStorage S none)) := by
  apply h.setStorage
  · intro r'
    simp only [count_held_cons, hS, reduceCtorEq, if_false, Option.some.injEq, eq_comm (a := r')]
    omega
  · exact fun r d => count_some_cons ..
  · exact fun r' hr => absurd hr.symm (Option.some_ne_none r')
  · intro g hg
    rcases List.mem_cons.1 hg with rfl | hg
    · exact .inr (h.aligned.storage S r hS)
    · exact .inl hg
  · have hL : ∀ r', (m.map (·.setStorage S none)).Lendable cfg none (held r :: E) r' →
        m.Lendable cfg none E r' := by
      rintro r' (hX | ⟨S', hs, hS'⟩ | ⟨d, hg⟩)
      · cases hX
      · by_cases he : S' = S
        · subst he
          rw [Mem.setStorage_self] at hS'
          cases hS'
        · rw [Mem.setStorage_ne m he] at hS'
          exact .inr (.inl ⟨S', hs, hS'⟩)
      · rcases mem_middle.1 hg with hg | hg
        · cases hg
        · exact .inr (.inr ⟨d, hg⟩)
    refine ⟨fun d h3 h0 => ?_, h.slots.helping, h.slots.listed, h.slots.idle, ?_⟩
    · obtain ⟨k, hk, hX | ⟨S', hs, hS'⟩⟩ := h.slots.lent d h3 h0
      · cases hX
      · have he : S' ≠ S := by
          rintro rfl
          rw [hS] at hS'
          exact hd hs d (congrArg Prod.snd (Option.some.inj hS')).symm
        exact ⟨k, hk, .inr ⟨S', hs, (m.setStorage_ne he _).trans hS'⟩⟩
    · exact fun r r' hr hr' => h.slots.kindred r r' (hL r hr) (hL r' hr')

end ArcSwap.Sequential
