import ArcSwap.Registry.Reservations

namespace ArcSwap.Registry
set_option autoImplicit true

/-- The control word a writer goes by, and whose it is. -/
def Writer.word (y : Writer Node Sto) : Option (Node × Nat) :=
  match y.pc with
  | .addr n c | .recheck n c | .offer n c => some (n, c)
  | _ => none

variable {Node L W Sto : Type} {m m' : Shared Node L Sto} {x x' : Local Node Sto}
  {y y' : Writer Node Sto} {σ σ' : State Node L W Sto}

/-- An exchange that ends a cooldown takes place in the one in which its thread has read that there
are no writers, and a claim finds the control word idle. -/
def inTime (a : Action Node L W Sto) (σ : State Node L W Sto) : Bool :=
  match a with
  | .run l _ =>
    match (σ.locals l).pc with
    | .exchange n e => σ.shared.inUse n ≠ nodeCooldown || e = σ.shared.cooldowns n
    | .claim n => σ.shared.inUse n ≠ nodeUnused || σ.shared.control n = idle
    | _ => true
  | _ => true

theorem Writer.word_reservation (h : y.word = some (n, c)) : y.reservation = some (n, y.since) := by
  cases hpc : y.pc with
  | addr | recheck | offer =>
    simp only [word, hpc] at h
    cases h
    simp only [reservation, hpc]
  | _ =>
    simp only [word, hpc] at h
    cases h

theorem Writer.look_word {c : Nat} (h : (look m y n).word = some (k, c)) :
    k = n ∧ c = m.control n ∧ tagOf c = genTag ∧ (look m y n).publisher = m.publisher n := by
  simp only [look, word] at h
  split_ifs at h with htag
  cases h
  exact ⟨rfl, rfl, htag, rfl⟩

variable [DecidableEq Node]

/-- What a step of a `LocalNode` does to the control words. -/
inductive Local.Controlling (m m' : Shared Node L Sto) (x : Local Node Sto) : Prop
  | keep (hc : m'.control = m.control) (hp : m'.publisher = m.publisher)
  | publish (n : Node) (w : Nat) (d : Bool) (hpc : x.pc = .setControl w d) (ho : x.owns = some n)
    (hc : m'.control = Function.update m.control n w)
    (hp : m'.publisher = Function.update m.publisher n (m.claims n))
  | clear (n : Node) (gen ptr : Nat) (hpc : x.pc = .setIdle gen ptr) (ho : x.owns = some n)
    (hc : m'.control = Function.update m.control n idle) (hp : m'.publisher = m.publisher)
  | alloc (n : Node) (hn : m.allocated n = false)
    (hc : m'.control = Function.update m.control n idle) (hp : m'.publisher = m.publisher)

theorem Local.step_controlling (hs : x.step w l i m = some (m', x')) :
    Local.Controlling m m' x := by
  cases hpc : x.pc with
  | rest | assertion =>
    simp only [Local.step, hpc] at hs
    cases hs
  | head | inUse | writers | next | loadHead | link | wrongControl | panic =>
    simp only [Local.step, hpc, Option.some.injEq] at hs
    cases hs
    exact .keep rfl rfl
  | exchange | confirm | setSlot =>
    simp only [Local.step, hpc, Option.some.injEq] at hs
    split at hs <;> cases hs <;> exact .keep rfl rfl
  | claim | prepend | candidate =>
    simp only [Local.step, hpc] at hs
    split at hs <;> cases hs <;> exact .keep rfl rfl
  | alloc =>
    simp only [Local.step, hpc] at hs
    split at hs
    · cases hs
    · rename_i hfree
      cases hs
      exact .alloc i.fresh (by simpa using hfree) rfl rfl
  | scan | take | setAddr | reserve | cooldown | release =>
    simp only [Local.step, hpc, Option.map_eq_some_iff] at hs
    obtain ⟨n, _, hs⟩ := hs
    cases hs
    exact .keep rfl rfl
  | settle d ptr =>
    simp only [Local.step, hpc, Option.some.injEq] at hs
    cases hs
    simp only [Shared.settle]
    split <;> exact .keep rfl rfl
  | setControl gen discard =>
    obtain ⟨n, pc, hn, rfl, rfl, _⟩ := Local.step_setControl hpc hs
    exact .publish n gen discard hpc (by simpa only [owns, hpc] using hn) rfl rfl
  | setIdle gen ptr =>
    simp only [Local.step, hpc, Option.map_eq_some_iff] at hs
    obtain ⟨n, hn, hs⟩ := hs
    cases hs
    exact .clear n gen ptr hpc (by simpa only [owns, hpc] using hn) rfl rfl

theorem Shared.cooldowns_claimed {l : L}
    (ht : m'.turns = Function.update m.turns n (.claimed l :: m.turns n)) (k : Node) :
    m'.cooldowns k = m.cooldowns k := by
  simp only [cooldowns, ht, Function.update_apply]
  split
  · rename_i he
    simp [he, Turn.isClaim]
  · rfl

theorem Shared.claims_released {l : L}
    (ht : m'.turns = Function.update m.turns n (.released l :: m.turns n)) (k : Node) :
    m'.claims k = m.claims k := by
  simp only [claims, ht, Function.update_apply]
  split
  · rename_i he
    simp [he, Turn.isClaim]
  · rfl

theorem Shared.cooldowns_released {l : L}
    (ht : m'.turns = Function.update m.turns n (.released l :: m.turns n)) :
    m'.cooldowns n = m.cooldowns n + 1 := by
  simp [cooldowns, ht, Turn.isClaim]

theorem Local.Controlling.at (h : Local.Controlling m m' x) (n : Node) :
    m'.control n = m.control n ∧ m'.publisher n = m.publisher n ∨
      x.owns = some n ∧ (m'.control n = idle ∨ m'.publisher n = m.claims n) ∨
      m.allocated n = false ∧ m'.control n = idle := by
  cases h with
  | keep hc hp => exact .inl ⟨congrFun hc n, congrFun hp n⟩
  | publish k w _ _ ho hc hp =>
    by_cases hk : n = k
    · subst hk
      exact .inr (.inl ⟨ho, .inr (by rw [hp, Function.update_self])⟩)
    · exact .inl ⟨by rw [hc, Function.update_of_ne hk], by rw [hp, Function.update_of_ne hk]⟩
  | clear k _ _ _ ho hc hp =>
    by_cases hk : n = k
    · subst hk
      exact .inr (.inl ⟨ho, .inl (by rw [hc, Function.update_self])⟩)
    · exact .inl ⟨by rw [hc, Function.update_of_ne hk], congrFun hp n⟩
  | alloc k hn hc hp =>
    by_cases hk : n = k
    · subst hk
      exact .inr (.inr ⟨hn, by rw [hc, Function.update_self]⟩)
    · exact .inl ⟨by rw [hc, Function.update_of_ne hk], congrFun hp n⟩

/-- A word in a control is that of the node's last claim, and a writer that goes by one holds a
reservation that keeps the node from being claimed again before the word is gone. -/
structure State.Published (σ : State Node L W Sto) : Prop where
  fresh : ∀ n, σ.shared.allocated n = false → σ.shared.control n = idle
  current : ∀ n, σ.shared.control n ≠ idle → σ.shared.publisher n = σ.shared.claims n
  read : ∀ w n c, (σ.writers w).word = some (n, c) → tagOf c = genTag ∧
    (σ.writers w).publisher = σ.shared.claims n ∧
    (σ.shared.inUse n = nodeUnused ∨
      σ.shared.inUse n = nodeCooldown ∧ (σ.writers w).since = σ.shared.cooldowns n →
      σ.shared.control n ≠ idle)

theorem Writer.step_word [DecidableEq Sto] {c : Nat} (hs : y.step i m = some (m', y'))
    (h : y'.word = some (n, c)) :
    y.word = some (n, c) ∧ y'.publisher = y.publisher ∧ y'.since = y.since ∨
      c = m.control n ∧ tagOf c = genTag ∧ y'.publisher = m.publisher n := by
  cases hpc : y.pc with
  | rest | done =>
    simp only [Writer.step, hpc] at hs
    cases hs
  | head | next =>
    simp only [Writer.step, hpc, Option.some.injEq] at hs
    cases hs
    simp only [visit] at h
    split at h <;> cases h
  | reserve | unwind =>
    simp only [Writer.step, hpc, Option.some.injEq] at hs
    cases hs
    cases h
  | load k =>
    simp only [Writer.step, hpc, Option.some.injEq] at hs
    cases hs
    obtain ⟨rfl, hc⟩ := look_word h
    exact .inr hc
  | addr k w =>
    simp only [Writer.step, hpc, Option.some.injEq] at hs
    cases hs
    refine .inl ⟨?_, rfl, rfl⟩
    rw [← h]
    by_cases ha : m.activeAddr k = y.storage <;>
      simp only [word, goto, hpc, ha, if_true, if_false]
  | recheck k w =>
    simp only [Writer.step, hpc, Option.some.injEq] at hs
    cases hs
    split at h
    · cases h
    · rename_i hne
      obtain ⟨rfl, hc⟩ := look_word h
      rw [if_neg hne]
      exact .inr hc
  | offer k w =>
    simp only [Writer.step, hpc] at hs
    split at hs
    · simp only [Option.some.injEq] at hs
      split at hs
      · cases hs
        cases h
      · cases hs
        obtain ⟨rfl, hc⟩ := look_word h
        exact .inr hc
    · cases hs
  | pay k todo =>
    cases todo <;> simp only [Writer.step, hpc, Option.some.injEq] at hs <;> cases hs <;> cases h

theorem Writer.step_control [DecidableEq Sto] (hs : y.step i m = some (m', y')) :
    m'.publisher = m.publisher ∧ (m'.control = m.control ∨ ∃ n a, y.pc = .offer n (m.control n) ∧
      tagOf a = replacementTag ∧ m'.control = Function.update m.control n a ∧ y'.word = none) := by
  cases hpc : y.pc with
  | rest | done =>
    simp only [Writer.step, hpc] at hs
    cases hs
  | head | load | addr | next | reserve | unwind | recheck =>
    simp only [Writer.step, hpc, Option.some.injEq] at hs
    cases hs
    exact ⟨rfl, .inl rfl⟩
  | offer n c =>
    simp only [Writer.step, hpc] at hs
    split at hs
    · rename_i hword
      simp only [Option.some.injEq] at hs
      split at hs
      · rename_i hc
        cases hs
        refine ⟨rfl, .inr ⟨n, _, by rw [hc], ?_, rfl, rfl⟩⟩
        rw [replacementTag_or hword, tagOf_eq, replacementTag]
        omega
      · cases hs
        exact ⟨rfl, .inl rfl⟩
    · cases hs
  | pay n todo =>
    cases todo with
    | nil =>
      simp only [Writer.step, hpc, Option.some.injEq] at hs
      cases hs
      exact ⟨rfl, .inl rfl⟩
    | cons j js =>
      simp only [Writer.step, hpc, Option.some.injEq] at hs
      cases hs
      simp only [Shared.pay]
      split <;> exact ⟨rfl, .inl rfl⟩

theorem genTag_ne_idle (h : tagOf c = genTag) : c ≠ idle := by
  rintro rfl
  cases h

variable [DecidableEq W] [DecidableEq Sto]

theorem State.Published.setWriter (h : σ.Published)
    (hs : (σ.writers w).step i σ.shared = some (m', y')) : (σ.setWriter w (m', y')).Published := by
  obtain ⟨ht, hu⟩ := Writer.step_owning hs
  have ha := (Writer.step_list hs).2.2.2
  obtain ⟨hp, hc⟩ := Writer.step_control hs
  have hcl : ∀ n, m'.claims n = σ.shared.claims n := fun n => by simp only [Shared.claims, ht]
  have hcd : ∀ n, m'.cooldowns n = σ.shared.cooldowns n := fun n => by
    simp only [Shared.cooldowns, ht]
  -- a word is replaced by another one
  have hidle : ∀ n, σ.shared.control n ≠ idle ↔ m'.control n ≠ idle := by
    intro n
    rcases hc with hc | ⟨k, a, hpc, htag, hc, _⟩
    · rw [hc]
    · have hne : a ≠ idle := by
        rintro rfl
        cases htag
      have hword : (σ.writers w).word = some (k, σ.shared.control k) := by
        simp only [Writer.word, hpc]
      rw [hc, Function.update_apply]
      split
      · rename_i he
        subst he
        exact ⟨fun _ => hne, fun _ => genTag_ne_idle (h.read w n _ hword).1⟩
      · exact Iff.rfl
  refine ⟨fun n hn => ?_, fun n hn => ?_, fun v n c hv => ?_⟩
  · have hn : m'.allocated n = false := hn
    rw [ha] at hn
    by_contra hne
    exact (hidle n).2 hne (h.fresh n hn)
  · change m'.publisher n = m'.claims n
    rw [hp, hcl]
    exact h.current n ((hidle n).2 hn)
  · change (Function.update σ.writers w y' v).word = some (n, c) at hv
    change tagOf c = genTag ∧ (Function.update σ.writers w y' v).publisher = m'.claims n ∧
      (m'.inUse n = nodeUnused ∨ m'.inUse n = nodeCooldown ∧
        (Function.update σ.writers w y' v).since = m'.cooldowns n → m'.control n ≠ idle)
    rw [hu, hcl, hcd, ← hidle n]
    by_cases hvw : v = w
    · subst hvw
      rw [Function.update_self] at hv ⊢
      have hnew : c = σ.shared.control n ∧ tagOf c = genTag ∧ y'.publisher = σ.shared.publisher n →
          tagOf c = genTag ∧ y'.publisher = σ.shared.claims n ∧ (σ.shared.inUse n = nodeUnused ∨
            σ.shared.inUse n = nodeCooldown ∧ y'.since = σ.shared.cooldowns n →
              σ.shared.control n ≠ idle) := by
        rintro ⟨rfl, htag, hpub⟩
        have hne := genTag_ne_idle htag
        exact ⟨htag, hpub.trans (h.current n hne), fun _ => hne⟩
      rcases Writer.step_word hs hv with ⟨hold, hpub, hsince⟩ | hread
      · rw [hsince, hpub]
        exact h.read v n c hold
      · exact hnew hread
    · rw [Function.update_of_ne hvw] at hv ⊢
      exact h.read v n c hv

variable [DecidableEq L]

theorem State.step_inUse (hL : σ.Listed) (hO : σ.Owned) (hs : σ.step width a = some σ') :
    σ'.shared.inUse = σ.shared.inUse ∧ σ'.shared.allocated = σ.shared.allocated ∨
      ∃ l i x', a = .run l i ∧ Local.Owning l σ.shared σ'.shared (σ.locals l) x' ∧
        ∀ n, σ.shared.allocated n = true → σ'.shared.allocated n = true := by
  cases a with
  | begin | payAll | abort =>
    simp only [State.step, Option.map_eq_some_iff] at hs
    obtain ⟨_, _, rfl⟩ := hs
    exact .inl ⟨rfl, rfl⟩
  | run l i =>
    simp only [State.step, Option.map_eq_some_iff] at hs
    obtain ⟨⟨m', x'⟩, hx', rfl⟩ := hs
    exact .inr ⟨l, i, x', rfl, (Local.step_owning hL.shared (hL.locals l) (hO.inUse l) hx').1,
      ((hL.locals l).step hL.shared hx').extends_.allocated⟩
  | walk w i =>
    simp only [State.step, Option.map_eq_some_iff] at hs
    obtain ⟨⟨m', y'⟩, hy', rfl⟩ := hs
    exact .inl ⟨(Writer.step_owning hy').2, (Writer.step_list hy').2.2.2⟩
  | dropGuard d ptr =>
    simp only [State.step] at hs
    split at hs <;> cases hs
    left
    simp only [Shared.settle]
    split <;> exact ⟨rfl, rfl⟩

theorem allocated_of_cooldown (hr : (registry width Node L W Sto).Reach ok σ)
    (hn : σ.shared.inUse n = nodeCooldown) : σ.shared.allocated n = true := by
  refine hr.invariant_of (Q := fun σ => σ.Listed ∧ σ.Owned)
    (P := fun σ => ∀ n, σ.shared.inUse n = nodeCooldown → σ.shared.allocated n = true)
    (fun _ h => ⟨State.Listed.reach h, State.Owned.reach h⟩) ?_ ?_ n hn
  · rintro σ rfl n h
    cases h
  intro a σ σ' hQ h _ hs n hcool
  rcases State.step_inUse hQ.1 hQ.2 hs with ⟨hu, ha⟩ | ⟨l, i, x', _, ho, hext⟩
  · rw [ha]
    exact h n (hu ▸ hcool)
  have hsame : ∀ k u, u ≠ nodeCooldown → σ'.shared.inUse = Function.update σ.shared.inUse k u →
      σ'.shared.allocated n = true := by
    intro k u hu he
    rw [he, Function.update_apply] at hcool
    split at hcool
    · exact absurd hcool hu
    · exact hext n (h n hcool)
  cases ho with
  | keep _ hu _ => exact hext n (h n (hu ▸ hcool))
  | free k _ _ _ _ hu _ => exact hsame k _ (by decide) hu
  | claim k _ _ hu _ _ _ => exact hsame k _ (by decide) hu
  | release k _ hu hown _ _ =>
    by_cases hk : n = k
    · subst hk
      refine hext n (Bool.eq_true_of_not_eq_false fun hfree => ?_)
      have hturns := (hQ.2.owner l n).1 hown
      rw [hQ.2.fresh n hfree] at hturns
      cases hturns
    · rw [hu, Function.update_of_ne hk] at hcool
      exact hext n (h n hcool)

/-- Only the exchange of `check_cooldown` ends a cooldown. -/
theorem ends_cooldown (hr : (registry width Node L W Sto).Reach ok σ)
    (hs : σ.step width a = some σ') (hcool : σ.shared.inUse n = nodeCooldown)
    (hleft : σ'.shared.inUse n ≠ nodeCooldown) :
    σ'.shared.inUse n = nodeUnused ∧
      ∃ l i e, a = .run l i ∧ (σ.locals l).pc = .exchange n e := by
  have hkeep : σ'.shared.inUse n ≠ σ.shared.inUse n := by
    rw [hcool]
    exact hleft
  have hupdate : ∀ k u, σ'.shared.inUse = Function.update σ.shared.inUse k u → n = k := by
    intro k u hu
    by_contra hk
    exact hkeep (by rw [hu, Function.update_of_ne hk])
  rcases State.step_inUse (State.Listed.reach hr) (State.Owned.reach hr) hs with
    ⟨hu, _⟩ | ⟨l, i, x', ha, ho, _⟩
  · exact absurd (congrFun hu n) hkeep
  cases ho with
  | keep _ hu _ => exact absurd (congrFun hu n) hkeep
  | free k e hpc _ _ hu _ =>
    obtain rfl := hupdate k _ hu
    exact ⟨by rw [hu, Function.update_self], l, i, e, ha, hpc⟩
  | claim k hn _ hu _ _ _ =>
    obtain rfl := hupdate k _ hu
    rcases hn with ⟨_, hunused, _⟩ | hfree
    · cases hunused.symm.trans hcool
    · cases hfree.symm.trans (allocated_of_cooldown hr hcool)
  | release k _ hu _ _ _ =>
    obtain rfl := hupdate k _ hu
    exact absurd (by rw [hu, Function.update_self]) hleft

variable [Fintype L] [Fintype W]

section
omit [DecidableEq W] [DecidableEq Sto] [DecidableEq L]

/-- When a cooldown ends in time, the reservations that were taken before it have been dropped. -/
theorem State.Reserved.ended (h : σ.Reserved) (hpc : (σ.locals l).pc = .exchange n e)
    (he : e = σ.shared.cooldowns n) (hs : σ.Outstanding n s) : s = σ.shared.cooldowns n := by
  have hle := (h.zero l n e hpc).2 s hs
  have hge := h.since n s hs
  omega

end

section
omit [DecidableEq W] [DecidableEq Sto]

theorem State.Published.setLocal (h : σ.Published) (hL : σ.Listed) (hO : σ.Owned) (hR : σ.Reserved)
    (hok : inTime (.run l i) σ = true)
    (ha : ∀ n, σ.shared.allocated n = true → m'.allocated n = true)
    (ho : Local.Owning l σ.shared m' (σ.locals l) x')
    (hc : Local.Controlling σ.shared m' (σ.locals l)) : (σ.setLocal l (m', x')).Published := by
  -- a claim changes the number of claims, but only where the control is idle
  have hclaims : ∀ n, m'.claims n = σ.shared.claims n ∨ (σ.locals l).owns = none ∧
      σ.shared.control n = idle ∧
        (σ.shared.inUse n = nodeUnused ∨ σ.shared.allocated n = false) := by
    intro n
    cases ho with
    | keep ht _ _ | free _ _ _ _ ht _ _ => exact .inl (by simp only [Shared.claims, ht])
    | claim k hk ht _ _ hnone _ =>
      by_cases hkn : n = k
      · subst hkn
        right
        rcases hk with ⟨hpc, hu, _⟩ | hk
        · simp only [inTime, hpc, hu, ne_eq, not_true, decide_false, Bool.false_or,
            decide_eq_true_eq] at hok
          exact ⟨hnone, hok, .inl hu⟩
        · exact ⟨hnone, h.fresh n hk, .inr hk⟩
      · left
        simp only [Shared.claims, ht, Function.update_of_ne hkn]
    | release k ht _ _ _ _ => exact .inl (Shared.claims_released ht n)
  refine ⟨fun n hn => ?_, fun n hne => ?_, fun w n c hw => ?_⟩
  · have hn : m'.allocated n = false := hn
    have hf : σ.shared.allocated n = false := by
      cases hn' : σ.shared.allocated n with
      | false => rfl
      | true => cases hn.symm.trans (ha n hn')
    have hidle := h.fresh n hf
    rcases hc.at n with ⟨he, _⟩ | ⟨ho, _⟩ | ⟨_, he⟩
    · exact he.trans hidle
    · have ht := (hO.owner l n).1 ho
      rw [hO.fresh n hf] at ht
      cases ht
    · exact he
  · have hne : m'.control n ≠ idle := hne
    change m'.publisher n = m'.claims n
    rcases hc.at n with ⟨he, hp⟩ | ⟨ho, he | hp⟩ | ⟨_, he⟩
    · rw [he] at hne
      rcases hclaims n with hcl | ⟨_, hidle, _⟩
      · rw [hp, hcl]
        exact h.current n hne
      · exact absurd hidle hne
    · exact absurd he hne
    · rcases hclaims n with hcl | ⟨hnone, _⟩
      · rw [hp, hcl]
      · cases ho.symm.trans hnone
    · exact absurd he hne
  · have hw : (σ.writers w).word = some (n, c) := hw
    obtain ⟨htag, hpub, hcond⟩ := h.read w n c hw
    have hout : σ.Outstanding n (σ.writers w).since := .inr ⟨w, Writer.word_reservation hw⟩
    have hsince := hR.since n _ hout
    have halloc : σ.shared.allocated n = true := by
      cases hn : σ.shared.allocated n with
      | true => rfl
      | false => exact absurd hout (hL.unreserved hn)
    refine ⟨htag, ?_, fun hprem => ?_⟩
    · change (σ.writers w).publisher = m'.claims n
      rcases hclaims n with hcl | ⟨_, hidle, hu | hf⟩
      · rw [hcl]
        exact hpub
      · exact absurd hidle (hcond (.inl hu))
      · cases hf.symm.trans halloc
    · change m'.control n ≠ idle
      have hprem : m'.inUse n = nodeUnused ∨
          m'.inUse n = nodeCooldown ∧ (σ.writers w).since = m'.cooldowns n := hprem
      have hself : ¬ (σ.locals l).owns = some n := by
        intro hown
        have hused := hO.inUse l n hown
        cases ho with
        | keep ht hu _ =>
          rw [hu, hused] at hprem
          rcases hprem with hp | ⟨hp, _⟩ <;> cases hp
        | free k _ _ hk ht hu _ =>
          have hkn : n ≠ k := by
            rintro rfl
            cases hk.symm.trans hused
          rw [hu, Function.update_of_ne hkn, hused] at hprem
          rcases hprem with hp | ⟨hp, _⟩ <;> cases hp
        | claim _ _ _ _ _ hnone _ => cases hown.symm.trans hnone
        | release k ht hu hk _ _ =>
          cases hk.symm.trans hown
          rw [hu, Function.update_self, Shared.cooldowns_released ht] at hprem
          rcases hprem with hp | ⟨_, hp⟩
          · cases hp
          · omega
      rcases hc.at n with ⟨he, _⟩ | ⟨hown, _⟩ | ⟨hf, _⟩
      · rw [he]
        apply hcond
        cases ho with
        | keep ht hu _ =>
          simpa only [hu, Shared.cooldowns, ht] using hprem
        | free k e hpc hk ht hu _ =>
          by_cases hkn : n = k
          · -- the cooldown ends in time, so that the writer's reservation was taken in it
            subst hkn
            simp only [inTime, hpc, hk, ne_eq, not_true, decide_false, Bool.false_or,
              decide_eq_true_eq] at hok
            exact .inr ⟨hk, hR.ended hpc hok hout⟩
          · rw [hu, Function.update_of_ne hkn] at hprem
            simpa only [Shared.cooldowns, ht] using hprem
        | claim k hk ht hu _ _ _ =>
          by_cases hkn : n = k
          · subst hkn
            rcases hk with ⟨_, hk, _⟩ | hk
            · exact .inl hk
            · cases hk.symm.trans halloc
          · rwa [hu, Function.update_of_ne hkn, Shared.cooldowns_claimed ht] at hprem
        | release k ht hu hk _ _ =>
          have hkn : n ≠ k := by
            rintro rfl
            exact hself hk
          rw [hu, Function.update_of_ne hkn] at hprem
          simpa only [Shared.cooldowns, ht, Function.update_of_ne hkn] using hprem
      · exact absurd hown hself
      · cases hf.symm.trans halloc

end

theorem State.Published.step (h : σ.Published) (hL : σ.Listed) (hO : σ.Owned) (hR : σ.Reserved)
    (hok : inTime a σ = true) (hs : σ.step width a = some σ') : σ'.Published := by
  cases a with
  | begin l op =>
    simp only [State.step, Option.map_eq_some_iff] at hs
    obtain ⟨x', _, rfl⟩ := hs
    exact ⟨h.fresh, h.current, h.read⟩
  | run l i =>
    simp only [State.step, Option.map_eq_some_iff] at hs
    obtain ⟨⟨m', x'⟩, hx', rfl⟩ := hs
    exact h.setLocal hL hO hR hok ((hL.locals l).step hL.shared hx').extends_.allocated
      (Local.step_owning hL.shared (hL.locals l) (hO.inUse l) hx').1 (Local.step_controlling hx')
  | payAll w S ptr =>
    simp only [State.step, Option.map_eq_some_iff] at hs
    obtain ⟨y', hy', rfl⟩ := hs
    refine ⟨h.fresh, h.current, fun v n c hv => ?_⟩
    by_cases hvw : v = w
    · subst hvw
      simp only [State.setWriter, Function.update_self] at hv
      simp only [Writer.begin] at hy'
      split at hy'
      · split at hy' <;> cases hy'
        cases hv
      · split at hy' <;> cases hy'
        cases hv
      · cases hy'
    · simp only [State.setWriter, Function.update_of_ne hvw] at hv ⊢
      exact h.read v n c hv
  | walk w i =>
    simp only [State.step, Option.map_eq_some_iff] at hs
    obtain ⟨⟨m', y'⟩, hy', rfl⟩ := hs
    exact h.setWriter hy'
  | abort w =>
    simp only [State.step, Option.map_eq_some_iff] at hs
    obtain ⟨y', hy', rfl⟩ := hs
    obtain ⟨k, _, rfl⟩ := Writer.abort_pc hy'
    refine ⟨h.fresh, h.current, fun v n c hv => ?_⟩
    by_cases hvw : v = w
    · subst hvw
      simp only [State.setWriter, Function.update_self] at hv
      cases hv
    · simp only [State.setWriter, Function.update_of_ne hvw] at hv ⊢
      exact h.read v n c hv
  | dropGuard d ptr =>
    simp only [State.step] at hs
    split at hs <;> cases hs
    simp only [Shared.settle]
    split <;> exact ⟨h.fresh, h.current, h.read⟩

theorem State.Published.reach
    (hr : (registry width Node L W Sto).Reach (fun a σ => inTime a σ = true) σ) :
    σ.Published := by
  refine hr.invariant_of (Q := fun σ => σ.Listed ∧ σ.Owned ∧ σ.Reserved)
    (fun _ h => ⟨State.Listed.reach h, State.Owned.reach h, State.Reserved.reach h⟩) ?_
    fun _ _ _ hQ h hok hs => h.step hQ.1 hQ.2.1 hQ.2.2 hok hs
  rintro σ rfl
  exact ⟨fun _ _ => rfl, fun n hn => absurd rfl hn, fun w n c hw => by cases hw⟩

/-- The count of writers of a node is the number of reservations that are held, and none of those
that are held at the end of a cooldown was taken before its thread has found a count of zero. -/
theorem reservations_counted (hr : (registry width Node L W Sto).Reach ok σ) :
    (∀ n, σ.shared.activeWriters n =
      ∑ l, holds n (σ.locals l).reservation + ∑ w, holds n (σ.writers w).reservation) ∧
    (∀ n s, σ.Outstanding n s → 0 < σ.shared.activeWriters n ∧ s ≤ σ.shared.cooldowns n) ∧
    ∀ a σ' n, σ.step width a = some σ' → σ.shared.inUse n = nodeCooldown →
      σ'.shared.inUse n ≠ nodeCooldown → σ'.shared.inUse n = nodeUnused ∧
        ∃ l i e, a = .run l i ∧ (σ.locals l).pc = .exchange n e ∧
          e ≤ σ.shared.cooldowns n ∧ ∀ s, σ.Outstanding n s → e ≤ s := by
  have hR := State.Reserved.reach hr
  refine ⟨hR.counted, fun n s hs => ⟨?_, hR.since n s hs⟩, fun a σ' n hs hcool hleft => ?_⟩
  · exact Nat.pos_of_ne_zero fun h0 => hR.none_outstanding h0 hs
  · obtain ⟨hunused, l, i, e, ha, hpc⟩ := ends_cooldown hr hs hcool hleft
    exact ⟨hunused, l, i, e, ha, hpc, hR.zero l n e hpc⟩

theorem reservations_counted_owner : ∃ σ,
    (registry 64 Nat Bool Unit Unit).Reach (fun _ _ => True) σ ∧
      (σ.locals false).reservation = some (0, 0) ∧ (σ.writers ()).reservation = some (0, 0) ∧
      σ.shared.activeWriters 0 = ∑ l, holds 0 (σ.locals l).reservation +
        ∑ w, holds 0 (σ.writers w).reservation := by
  obtain ⟨σ, hr, hp⟩ := reach_after 64 (fun _ _ => True)
    (getFirst false 0 ++ [.begin false .drop] ++ steps false 0 1 ++ [.payAll () () 8] ++
      List.replicate 2 (.walk () ⟨0, 8, false⟩))
    (fun σ => (σ.locals false).reservation = some (0, 0) ∧
      (σ.writers ()).reservation = some (0, 0)) (by decide +kernel)
  rw [decide_eq_true_eq] at hp
  exact ⟨σ, hr, hp.1, hp.2, (reservations_counted hr).1 0⟩

/-- If every exchange that ends a cooldown takes place in the cooldown in which its thread has read
that there are no writers, and every claim finds the control word idle, then at the end of a
cooldown the reservations that were taken before it have been dropped, and the exchange of a
writer's `help` succeeds on a word only that was published in the claim of the node in which it was
read. -/
theorem cooldown_separates
    (hr : (registry width Node L W Sto).Reach (fun a σ => inTime a σ = true) σ) :
    (∀ a σ' n s, inTime a σ = true → σ.step width a = some σ' →
      σ.shared.inUse n = nodeCooldown → σ'.shared.inUse n ≠ nodeCooldown →
      s < σ.shared.cooldowns n → ¬ σ.Outstanding n s) ∧
    ∀ w n c, (σ.writers w).pc = .offer n c → σ.shared.control n = c →
      σ.shared.publisher n = (σ.writers w).publisher := by
  have hP := State.Published.reach hr
  constructor
  · intro a σ' n s hok hs hcool hleft hlt hout
    obtain ⟨_, l, i, e, rfl, hpc⟩ := ends_cooldown hr hs hcool hleft
    simp only [inTime, hpc, hcool, ne_eq, not_true, decide_false, Bool.false_or,
      decide_eq_true_eq] at hok
    exact Nat.ne_of_lt hlt ((State.Reserved.reach hr).ended hpc hok hout)
  · intro w n c hpc hc
    have hword : (σ.writers w).word = some (n, c) := by simp only [Writer.word, hpc]
    obtain ⟨htag, hpub, _⟩ := hP.read w n c hword
    rw [hpub]
    apply hP.current
    rw [hc]
    exact genTag_ne_idle htag

/-- The first owner exits after a load, another thread ends the cooldown in time and takes the node
over, and a writer offers it a replacement for the word that the first owner has used too. -/
theorem cooldown_separates_offer :
    (∃ σ σ', (registry 64 Nat Bool Unit Unit).Reach (fun a σ => inTime a σ = true) σ ∧
      (σ.locals true).pc = .exchange 0 1 ∧
      σ.step 64 (.run true ⟨0, 8, false⟩) = some σ' ∧ σ.shared.inUse 0 = nodeCooldown ∧
      σ'.shared.inUse 0 ≠ nodeCooldown ∧ ¬ σ.Outstanding 0 0) ∧
    ∃ σ, (registry 64 Nat Bool Unit Unit).Reach (fun a σ => inTime a σ = true) σ ∧
      σ.shared.turns 0 = [.claimed true, .released false, .claimed false] ∧
      (σ.writers ()).pc = .offer 0 6 ∧ σ.shared.control 0 = 6 ∧
      σ.shared.publisher 0 = (σ.writers ()).publisher := by
  constructor
  · obtain ⟨σ, hr, hp⟩ := reach_after 64 (fun a σ => inTime a σ = true)
      (getFirst false 0 ++ [.begin false (.fallback ())] ++ steps false 0 6 ++
        [.begin false .drop] ++ steps false 0 3 ++ [.begin true .get] ++ steps true 1 3)
      (fun σ => (σ.locals true).pc = .exchange 0 1 ∧ σ.shared.cooldowns 0 = 1 ∧
        σ.shared.inUse 0 = nodeCooldown ∧
        (σ.step 64 (.run true ⟨0, 8, false⟩)).any fun σ' => σ'.shared.inUse 0 ≠ nodeCooldown)
      (by decide +kernel)
    rw [decide_eq_true_eq, Option.any_eq_true] at hp
    obtain ⟨hpc, hcount, hcool, σ', hs, hleft⟩ := hp
    rw [decide_eq_true_eq] at hleft
    have hok : inTime (.run true ⟨0, 8, false⟩) σ = true := by
      simp only [inTime, hpc, hcount, decide_true, Bool.or_true]
    exact ⟨σ, σ', hr, hpc, hs, hcool, hleft,
      (cooldown_separates hr).1 _ σ' 0 0 hok hs hcool hleft (by rw [hcount]; decide)⟩
  · obtain ⟨σ, hr, hp⟩ := reach_after 64 (fun a σ => inTime a σ = true)
      (getFirst false 0 ++ [.begin false (.fallback ())] ++ steps false 0 6 ++
        [.begin false .drop] ++ steps false 0 3 ++ [.begin true .get] ++ steps true 1 5 ++
        [.begin true (.fallback ())] ++ steps true 0 2 ++ [.payAll () () 8] ++
        List.replicate 4 (.walk () ⟨0, 8, false⟩))
      (fun σ => σ.shared.turns 0 = [.claimed true, .released false, .claimed false] ∧
        (σ.writers ()).pc = .offer 0 6 ∧ σ.shared.control 0 = 6) (by decide +kernel)
    rw [decide_eq_true_eq] at hp
    obtain ⟨hturns, hpc, hc⟩ := hp
    exact ⟨σ, hr, hturns, hpc, hc, (cooldown_separates hr).2 () 0 6 hpc hc⟩

end ArcSwap.Registry
