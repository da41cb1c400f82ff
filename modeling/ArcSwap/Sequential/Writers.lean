import ArcSwap.Sequential.Calls

namespace ArcSwap.Sequential
set_option autoImplicit true

variable {K Thr Sto : Type}
variable {cfg : Config K Sto} {n : Nat} {X : Option (Ref K)} {m m' m'' : Mem K Thr Sto}
  {E E' : List (Guard K Thr)} {c c' : Cell K Sto} {r old : Ref K} {g : Guard K Thr} {d : Debt Thr}
  {S : Sto} {t : Thr}

/-- Debts are those of `r` as long as it is in a storage or has just been taken out of one. -/
def Mem.Owing (cfg : Config K Sto) (X : Option (Ref K)) (m : Mem K Thr Sto) (r : Ref K) : Prop :=
  X = some r ∨ ∃ S, cfg.strategy S ≠ .rwLock ∧ m.storage S = some r

theorem Mem.Owing.lendable (h : m.Owing cfg X r) : m.Lendable cfg X E r :=
  h.imp_right .inl

variable [DecidableEq K] [DecidableEq Thr] [Fintype Thr] [Fintype Sto]

/-- What a part of `Debt::pay_all` does for `r`. -/
structure Paying (cfg : Config K Sto) (n : Nat) (X : Option (Ref K)) (E : List (Guard K Thr))
    (c : Cell K Sto) (r : Ref K) (m m' : Mem K Thr Sto) : Prop where
  sim : Sim cfg n X m' (held r :: E) c
  storage : m'.storage = m.storage
  listHead : m'.listHead = m.listHead
  debts : ∀ d, m.debt d ≠ r.2 → m'.debt d ≠ r.2

theorem Paying.refl (h : Sim cfg n X m (held r :: E) c) : Paying cfg n X E c r m m :=
  ⟨h, rfl, rfl, fun _ => id⟩

theorem Paying.trans (h : Paying cfg n X E c r m m') (h' : Paying cfg n X E c r m' m'') :
    Paying cfg n X E c r m m'' :=
  ⟨h'.sim, h'.storage.trans h.storage, h'.listHead.trans h.listHead,
    fun d hd => h'.debts d (h.debts d hd)⟩

theorem Paying.owing (h : Paying cfg n X E c r m m') (hL : m.Owing cfg X r) : m'.Owing cfg X r := by
  rw [Mem.Owing, h.storage]
  exact hL

/-- Nothing is owed any more for what has been taken out of a storage. -/
theorem Sim.settled (h : Sim cfg n X m E c) (hX : ∀ r', X = some r' → r' = r)
    (hd : ∀ d, m.debt d ≠ r.2) : Sim cfg n none m E c := by
  refine ⟨h.storage, h.handles, h.guards, h.destroyed, h.accounts, h.aligned, ?_, h.fuel⟩
  refine ⟨fun d h3 h0 => ?_, h.slots.helping, h.slots.listed, h.slots.idle, ?_⟩
  · obtain ⟨k, hk, hX' | hS⟩ := h.slots.lent d h3 h0
    · exact (hd d (congrArg Prod.snd (hX _ hX'))).elim
    · exact ⟨k, hk, .inr hS⟩
  · have hL : ∀ r', m.Lendable cfg none E r' → m.Lendable cfg X E r' := by
      rintro r' (hX | h')
      · cases hX
      · exact .inr h'
    exact fun r r' hr hr' => h.slots.kindred r r' (hL r hr) (hL r' hr')

theorem Paying.slot (h : Sim cfg n X m (held r :: E) c) (hL : m.Owing cfg X r) (d : Debt Thr) :
    Paying cfg n X E c r m (Mem.paySlot r m d) ∧ (Mem.paySlot r m d).debt d ≠ r.2 := by
  have hg : held r ∈ m.guards ++ held r :: E := mem_middle.2 (.inl rfl)
  have ha : r.2 % 4 = 0 := h.aligned.guards _ hg
  have h3 : debtNone ≠ r.2 := by
    intro h3
    rw [← h3] at ha
    cases ha
  by_cases hd : m.debt d = r.2
  · have he : Mem.paySlot r m d = (m.map (·.inc r)).clear d := by
      simp only [Mem.paySlot, Mem.pay, hd, if_true]
      rfl
    have hs : (m.map (·.inc r)).storage = m.storage := (m.toHeap.inc_counts r).storage
    have hL' : (m.map (·.inc r)).Owing cfg X r := by
      rw [Mem.Owing, hs]
      exact hL
    have hpos : r.2 ≠ 0 → 0 < c.count r := h.count_pos hg
    have hrepay : Sim cfg n X ((m.map (·.inc r)).clear d) (held r :: E) c := by
      rw [← Cell.inc_dec hpos]
      apply (h.inc ha).repay (.inl rfl) hd hL'.lendable
      intro h0
      have hcount : (c.map (·.inc r)).count r = c.count r + 1 :=
        (inc_count ..).trans (by rw [if_pos ⟨rfl, h0⟩])
      have hpos := hpos h0
      omega
    rw [he]
    refine ⟨⟨hrepay, hs, rfl, ?_⟩, ?_⟩
    · intro x hx
      by_cases hxd : x = d
      · subst hxd
        simp only [Mem.clear, Function.update_self]
        exact h3
      · simp only [Mem.clear, Function.update_of_ne hxd]
        exact hx
    · simp only [Mem.clear, Function.update_self]
      exact h3
  · have he : Mem.paySlot r m d = m := by
      simp only [Mem.paySlot, Mem.pay, hd, if_false, Bool.false_eq_true]
    rw [he]
    exact ⟨.refl h, hd⟩

theorem Paying.slots (l : List (Debt Thr)) (h : Sim cfg n X m (held r :: E) c)
    (hL : m.Owing cfg X r) : Paying cfg n X E c r m (l.foldl (Mem.paySlot r) m) ∧
      ∀ d ∈ l, (l.foldl (Mem.paySlot r) m).debt d ≠ r.2 := by
  induction l generalizing m with
  | nil => exact ⟨.refl h, fun d hd => absurd hd List.not_mem_nil⟩
  | cons d l ih =>
    obtain ⟨hslot, hd⟩ := Paying.slot h hL d
    obtain ⟨hrest, hl⟩ := ih hslot.sim (hslot.owing hL)
    refine ⟨hslot.trans hrest, fun x hx => ?_⟩
    rcases List.mem_cons.1 hx with rfl | hx
    · exact hrest.debts x hd
    · exact hl x hx

theorem Paying.node (h : Sim cfg n X m (held r :: E) c) (hL : m.Owing cfg X r) (t : Thr) :
    ∃ m', Mem.payNode r m t = some m' ∧ Paying cfg n X E c r m m' ∧
      ∀ d : Debt Thr, d.1 = t → m'.debt d ≠ r.2 := by
  have hl : ∀ d : Debt Thr, d.1 = t → d ∈ (List.finRange 9).map fun j => (t, j) := fun d hd =>
    List.mem_map.2 ⟨d.2, List.mem_finRange d.2, by rw [← hd]⟩
  rw [Mem.payNode, if_pos (h.slots.idle t)]
  generalize (List.finRange 9).map (fun j => (t, j)) = l at hl ⊢
  obtain ⟨hpaying, hd⟩ := Paying.slots l h hL
  exact ⟨_, rfl, hpaying, fun d ht => hd d (hl d ht)⟩

theorem Paying.nodes (l : List Thr) (h : Sim cfg n X m (held r :: E) c) (hL : m.Owing cfg X r) :
    ∃ m', l.foldlM (Mem.payNode r) m = some m' ∧ Paying cfg n X E c r m m' ∧
      ∀ d : Debt Thr, d.1 ∈ l → m'.debt d ≠ r.2 := by
  induction l generalizing m with
  | nil => exact ⟨m, rfl, .refl h, fun d hd => absurd hd List.not_mem_nil⟩
  | cons t l ih =>
    obtain ⟨m₁, he, hnode, ht⟩ := Paying.node h hL t
    obtain ⟨m₂, he', hrest, hl⟩ := ih hnode.sim (hnode.owing hL)
    refine ⟨m₂, ?_, hnode.trans hrest, fun d hd => ?_⟩
    · rw [List.foldlM_cons, he]
      exact he'
    · rcases List.mem_cons.1 hd with hd | hd
      · exact hrest.debts d (ht d hd)
      · exact hl d hd

/-- `Debt::pay_all` pays every debt of `r`, and counts it as often as before. -/
theorem Sim.payAll (h : Sim cfg n X m E c) (hL : m.Owing cfg X r) (hX : ∀ r', X = some r' → r' = r)
    (ha : r.2 % 4 = 0) (hc : r.2 ≠ 0 → 0 < c.count r) (t : Thr) :
    ∃ m', m.payAll t r = some m' ∧ Sim cfg n none m' E c ∧ ∀ d, m'.debt d ≠ r.2 := by
  have hinc := (h.enter t).inc ha
  have hs : ((m.enter t).map (·.inc r)).storage = m.storage :=
    ((m.enter t).toHeap.inc_counts r).storage.trans (m.enter_storage t)
  have hL' : ((m.enter t).map (·.inc r)).Owing cfg X r := by
    rw [Mem.Owing, hs]
    exact hL
  obtain ⟨m', he, hpaying, hdebts⟩ := Paying.nodes (m.enter t).listHead hinc hL'
  have hd : ∀ d, m'.debt d ≠ r.2 := by
    intro d hd
    have h3 : m'.debt d ≠ debtNone := by
      intro h3
      rw [← hd, h3] at ha
      cases ha
    have hlisted := hpaying.sim.slots.listed d h3
    rw [hpaying.listHead] at hlisted
    exact hdebts d hlisted hd
  refine ⟨m'.map (·.dec r), ?_, ?_, hd⟩
  · rw [Mem.payAll, he]
    rfl
  · rw [← Cell.inc_dec hc]
    exact (hpaying.sim.settled hX hd).dec

/-- What an exchange takes out of a storage that lends pointers. -/
def Config.taken (cfg : Config K Sto) (S : Sto) (r : Ref K) : Option (Ref K) :=
  if cfg.strategy S = .rwLock then none else some r

theorem Sim.waitForReaders (h : Sim cfg n (cfg.taken S r) m E c) (ha : r.2 % 4 = 0)
    (hc : r.2 ≠ 0 → 0 < c.count r) (t : Thr) :
    ∃ m', m.waitForReaders cfg t S r = some m' ∧ Sim cfg n none m' E c := by
  cases hs : cfg.strategy S with
  | rwLock =>
    rw [Config.taken, if_pos hs] at h
    exact ⟨m, by rw [Mem.waitForReaders, hs], h⟩
  | hybrid useFast =>
    rw [Config.taken, if_neg (by rw [hs]; exact Strategy.noConfusion)] at h
    have hX : ∀ r', some r = some r' → r' = r := fun r' h => (Option.some.inj h).symm
    obtain ⟨m', he, hsim, _⟩ := h.payAll (.inl rfl) hX ha hc t
    exact ⟨m', by rw [Mem.waitForReaders, hs]; exact he, hsim⟩

end ArcSwap.Sequential
