import ArcSwap.Sequential.Lending

namespace ArcSwap.Sequential
set_option autoImplicit true

variable {K Thr Sto : Type}
variable {cfg : Config K Sto} {n : Nat} {X : Option (Ref K)} {m m' : Mem K Thr Sto}
  {E E' : List (Guard K Thr)} {c c' : Cell K Sto} {r old : Ref K} {g : Guard K Thr} {d : Debt Thr}
  {S : Sto} {t : Thr}

theorem fastSlot_ne (t t' : Thr) (k : Nat) : fastSlot t k ≠ helpingSlot t' := by
  intro h
  have h8 : k % 8 = 8 := congrArg (fun d : Debt Thr => d.2.val) h
  omega

variable [DecidableEq Thr]

theorem Mem.mem_enter (m : Mem K Thr Sto) (t : Thr) : t ∈ (m.enter t).listHead := by
  rw [Mem.enter]
  split
  · assumption
  · exact List.mem_cons_self

theorem Mem.enter_storage (m : Mem K Thr Sto) (t : Thr) : (m.enter t).storage = m.storage := by
  rw [Mem.enter]
  split <;> rfl

theorem Mem.newFast_some (h : m.newFast t r = some (d, m')) :
    m.debt d = debtNone ∧ d.1 = t ∧ (∀ t', d ≠ helpingSlot t') ∧
      ∃ offset, m' = { m.lend d r with offset := offset } := by
  rw [Mem.newFast, Option.map_eq_some_iff] at h
  obtain ⟨i, hfind, he⟩ := h
  have hfree := List.find?_some hfind
  rw [decide_eq_true_eq] at hfree
  cases he
  exact ⟨hfree, rfl, fun t' => fastSlot_ne t t' _, _, rfl⟩

variable [DecidableEq K]

theorem Mem.load_none (hS : m.storage S = none) (t : Thr) : m.load cfg t S = none := by
  have hSent : (m.enter t).storage S = none := by rw [Mem.enter_storage, hS]
  have hfallback : (m.enter t).fallback cfg.width t S = none := by
    simp only [Mem.fallback, Mem.newHelping, hSent, Option.bind_none]
  cases hs : cfg.strategy S with
  | rwLock => simp only [Mem.load, hs, hS, Option.map_none]
  | hybrid useFast =>
    cases useFast with
    | false => simp only [Mem.load, hs, hfallback]
    | true => simp only [Mem.load, hs, Mem.attempt, hSent, Option.map_none, Option.bind_none]

variable [Fintype Thr] [Fintype Sto]

theorem Sim.mono (h : Sim cfg n X m E c) (hn : n' ≤ n) : Sim cfg n' X m E c := by
  refine h.same rfl rfl rfl rfl (fun _ => id) (fun _ _ => rfl) fun t => ?_
  have hf := h.fuel t
  omega

theorem Sim.enter (h : Sim cfg n X m E c) (t : Thr) : Sim cfg n X (m.enter t) E c := by
  rw [Mem.enter]
  split
  · exact h
  · exact h.same rfl rfl rfl rfl (fun _ => List.mem_cons_of_mem _) (fun _ _ => rfl) h.fuel

theorem Sim.fallback (h : Sim cfg (n + 1) X m E c) (hS : m.storage S = some r) (t : Thr) :
    ∃ m', m.fallback cfg.width t S = some (⟨r, none⟩, m') ∧
      Sim cfg n X m' (held r :: E) (c.map (·.inc r)) := by
  have hf := h.fuel t
  have hnext : nextGeneration cfg.width (m.generation t) = m.generation t + 4 :=
    Nat.mod_eq_of_lt (by omega)
  have hne : nextGeneration cfg.width (m.generation t) ≠ 0 := by omega
  have he : m.fallback cfg.width t S = some (⟨r, none⟩,
      ((m.newHelping t (nextGeneration cfg.width (m.generation t) ||| genTag)
        (nextGeneration cfg.width (m.generation t))).confirm t r).intoInner
          ⟨r, some (helpingSlot t)⟩) := by
    simp only [Mem.fallback, getDebt, Mem.newHelping, hS, Option.bind_some, hne, decide_false,
      Bool.false_eq_true, Function.update_self, ne_eq, not_true, or_self, if_false]
  refine ⟨_, he, ?_⟩
  have hinner : ∀ m : Mem K Thr Sto, (m.confirm t r).intoInner ⟨r, some (helpingSlot t)⟩ =
      ((m.confirm t r).map (·.inc r)).clear (helpingSlot t) := by
    intro m
    simp only [Mem.intoInner, Mem.pay, Mem.map, Mem.confirm, Mem.lend, Function.update_self,
      if_true]
  rw [hinner]
  refine (h.inc (h.aligned.storage S r hS)).same rfl ?_ ?_ ?_ ?_ ?_ ?_
  · simp only [Mem.clear, Mem.confirm, Mem.lend, Mem.map, Mem.newHelping, Function.update_idem]
    exact Function.update_eq_self_iff.2 (h.slots.helping t).symm
  · simp only [Mem.clear, Mem.confirm, Mem.lend, Mem.map, Mem.newHelping, Function.update_idem]
    exact Function.update_eq_self_iff.2 (h.slots.idle t).symm
  · rfl
  · exact fun _ => id
  · intro d hd
    have hne : d ≠ helpingSlot t := fun he => hd (he ▸ h.slots.helping t)
    simp only [Mem.clear, Mem.confirm, Mem.lend, Mem.map, Mem.newHelping,
      Function.update_of_ne hne]
  · intro t'
    have hf' := h.fuel t'
    by_cases ht : t' = t
    · subst ht
      simp only [Mem.clear, Mem.confirm, Mem.lend, Mem.map, Mem.newHelping, Function.update_self]
      omega
    · simp only [Mem.clear, Mem.confirm, Mem.lend, Mem.map, Mem.newHelping,
        Function.update_of_ne ht]
      omega

theorem Sim.load (h : Sim cfg (n + 1) X m E c) (hS : m.storage S = some r) (t : Thr) :
    ∃ o m', m.load cfg t S = some (⟨r, o⟩, m') ∧
      Sim cfg n X m' (⟨r, o⟩ :: E) (c.map (·.inc r)) := by
  have hent := h.enter t
  have hSent : (m.enter t).storage S = some r := by rw [Mem.enter_storage, hS]
  obtain ⟨m', he, hsim⟩ := hent.fallback hSent t
  cases hs : cfg.strategy S with
  | rwLock =>
    refine ⟨none, m.map (·.inc r), ?_, (h.inc (h.aligned.storage S r hS)).mono (Nat.le_succ n)⟩
    simp only [Mem.load, hs, hS, Option.map_some]
  | hybrid useFast =>
    have hne : cfg.strategy S ≠ .rwLock := by
      rw [hs]
      exact Strategy.noConfusion
    cases useFast with
    | false =>
      refine ⟨none, m', ?_, hsim⟩
      simp only [Mem.load, hs, he]
    | true =>
      cases hfast : (m.enter t).newFast t r with
      | none =>
        refine ⟨none, m', ?_, hsim⟩
        simp only [Mem.load, hs, Mem.attempt, hSent, hfast, Option.map_some, Option.bind_some, he]
      | some p =>
        obtain ⟨d, m₁⟩ := p
        obtain ⟨hfree, rfl, h8, offset, rfl⟩ := Mem.newFast_some hfast
        refine ⟨some d, { (m.enter d.1).lend d r with offset := offset }, ?_, ?_⟩
        · simp only [Mem.load, hs, Mem.attempt, hSent, hfast, Option.map_some, Mem.lend, if_true,
            Option.bind_some]
        · have hlend := hent.lend hne hSent hfree h8 (m.mem_enter d.1)
          refine hlend.same rfl rfl rfl rfl (fun _ => id) (fun _ _ => rfl) fun t' => ?_
          have hf : (m.enter d.1).generation t' + 4 * (n + 1) < 2 ^ cfg.width := hent.fuel t'
          change (m.enter d.1).generation t' + 4 * n < 2 ^ cfg.width
          omega

end ArcSwap.Sequential
