import ArcSwap.Registry.Cooldown
import ArcSwap.Registry.Visits

namespace ArcSwap.Registry
set_option autoImplicit true

variable {Node L W Sto : Type} {m m' : Shared Node L Sto} {x x' : Local Node Sto}
  {y y' : Writer Node Sto} {σ₀ σ σ' : State Node L W Sto} {a : Action Node L W Sto}
  {tr : List (Happened Node L W Sto)}

/-- The node goes into cooldown. -/
abbrev Shared.Swap (m m' : Shared Node L Sto) (n : Node) : Prop :=
  m.inUse n = nodeUsed ∧ m'.inUse n = nodeCooldown

theorem Shared.Reserving.kept [DecidableEq Node] {r r' : Option (Node × Nat)}
    (h : m.Reserving m' r r') (hr : r = some q) : r' = some q ∨ r' = none := by
  cases h with
  | keep _ _ he => exact .inl (he.trans hr)
  | reserve _ _ _ hnone _ => cases hnone.symm.trans hr
  | unreserve _ _ _ _ hnone => exact .inr hnone

/-- As long as a writer goes by the same word it has not read it again. -/
theorem Writer.step_word_kept [DecidableEq Node] [DecidableEq Sto]
    (hs : y.step i m = some (m', y')) (h : y.word = some (n, c)) (h' : y'.word = some (n, c)) :
    y'.publisher = y.publisher := by
  rcases step_word hs h' with ⟨_, hp, _⟩ | ⟨hc, _⟩
  · exact hp
  cases hpc : y.pc with
  | addr k w =>
    simp only [Writer.step, hpc, Option.some.injEq] at hs
    cases hs
    rfl
  | recheck k w =>
    simp only [word, hpc, Option.some.injEq, Prod.mk.injEq] at h
    obtain ⟨rfl, rfl⟩ := h
    simp only [Writer.step, hpc, hc.symm, if_true, Option.some.injEq] at hs
    cases hs
    cases h'
  | offer k w =>
    simp only [word, hpc, Option.some.injEq, Prod.mk.injEq] at h
    obtain ⟨rfl, rfl⟩ := h
    simp only [Writer.step, hpc, hc.symm, if_true] at hs
    split at hs <;> cases hs
    cases h'
  | _ =>
    simp only [word, hpc] at h
    cases h

variable [DecidableEq Node] [DecidableEq L] [DecidableEq W] [DecidableEq Sto]

theorem writer_reservation_kept (hr : (registry width Node L W Sto).Reach ok σ)
    (hs : σ.step width a = some σ') (h : (σ.writers w).reservation = some q) :
    (σ'.writers w).reservation = some q ∨ (σ'.writers w).reservation = none := by
  cases ha : a.ofWriter w with
  | false =>
    rw [State.step_writer hs ha]
    exact .inl h
  | true =>
    cases a with
    | payAll v S p =>
      obtain rfl := of_decide_eq_true ha
      simp only [State.step, Option.map_eq_some_iff] at hs
      obtain ⟨y', hy', rfl⟩ := hs
      simp only [State.setWriter, Function.update_self, Writer.begin_reservation hy']
      exact .inl h
    | walk v i =>
      obtain rfl := of_decide_eq_true ha
      simp only [State.step, Option.map_eq_some_iff] at hs
      obtain ⟨⟨m', y'⟩, hy', rfl⟩ := hs
      simp only [State.setWriter, Function.update_self]
      exact (Writer.step_reserving ((State.Listed.reach hr).writers v) hy').kept h
    | abort v =>
      obtain rfl := of_decide_eq_true ha
      simp only [State.step, Option.map_eq_some_iff] at hs
      obtain ⟨y', hy', rfl⟩ := hs
      simp only [State.setWriter, Function.update_self, Writer.abort_reservation hy']
      exact .inl h
    | _ => cases ha

theorem local_reservation_kept (hr : (registry width Node L W Sto).Reach ok σ)
    (hs : σ.step width a = some σ') (h : (σ.locals l).reservation = some q) :
    (σ'.locals l).reservation = some q ∨ (σ'.locals l).reservation = none := by
  cases ha : a.ofLocal l with
  | false =>
    rw [State.step_local hs ha]
    exact .inl h
  | true =>
    cases a with
    | begin k op =>
      obtain rfl := of_decide_eq_true ha
      simp only [State.step, Option.map_eq_some_iff] at hs
      obtain ⟨x', hx', rfl⟩ := hs
      simp only [State.setLocal, Function.update_self, (Local.begin_reservation hx').1]
      exact .inl h
    | run k i =>
      obtain rfl := of_decide_eq_true ha
      simp only [State.step, Option.map_eq_some_iff] at hs
      obtain ⟨⟨m', x'⟩, hx', rfl⟩ := hs
      simp only [State.setLocal, Function.update_self]
      exact (Local.step_reserving ((State.Listed.reach hr).locals k)
        ((State.Owned.reach hr).inUse k) hx').kept h
    | _ => cases ha

theorem State.step_cooldowns (hr : (registry width Node L W Sto).Reach ok σ) (ha : ok a σ)
    (hs : σ.step width a = some σ') (n : Node) :
    σ.shared.cooldowns n ≤ σ'.shared.cooldowns n ∧
      (σ.shared.Swap σ'.shared n → σ.shared.cooldowns n < σ'.shared.cooldowns n) := by
  have hO := State.Owned.reach hr
  have hO' := State.Owned.reach (hr.step ha hs)
  have hholder : σ.shared.Swap σ'.shared n →
      (∃ l, holder (σ.shared.turns n) = some l) ∧ ¬ ∃ l, holder (σ'.shared.turns n) = some l := by
    rintro ⟨hused, hcool⟩
    refine ⟨(hO.used n).2 hused, fun h => ?_⟩
    cases ((hO'.used n).1 h).symm.trans hcool
  by_cases heq : σ'.shared.turns n = σ.shared.turns n
  · refine ⟨by simp only [Shared.cooldowns, heq, Nat.le_refl], fun hswap => ?_⟩
    obtain ⟨hsome, hnone⟩ := hholder hswap
    rw [heq] at hnone
    exact absurd hsome hnone
  · obtain ⟨l, i, _, ⟨_, _, ht⟩ | ⟨_, _, ht, _⟩⟩ :=
      hO.step_turns (State.Listed.reach hr) hs heq
    · have hcount : σ'.shared.cooldowns n = σ.shared.cooldowns n := by
        simp [Shared.cooldowns, ht, Turn.isClaim]
      refine ⟨Nat.le_of_eq hcount.symm, fun hswap => ?_⟩
      obtain ⟨_, hnone⟩ := hholder hswap
      rw [ht] at hnone
      exact absurd ⟨l, rfl⟩ hnone
    · have hcount : σ'.shared.cooldowns n = σ.shared.cooldowns n + 1 := by
        simp [Shared.cooldowns, ht, Turn.isClaim]
      exact ⟨by omega, fun _ => by omega⟩

theorem trace_cooldowns (hr : (registry width Node L W Sto).Reach ok σ₀)
    (ht : (registry width Node L W Sto).Trace ok σ₀ tr σ) (n : Node) :
    σ₀.shared.cooldowns n ≤ σ.shared.cooldowns n ∧
      ((∃ e ∈ tr, e.pre.shared.Swap e.post.shared n) →
        σ₀.shared.cooldowns n < σ.shared.cooldowns n) := by
  induction ht with
  | nil => exact ⟨Nat.le_refl _, by rintro ⟨e, he, _⟩; cases he⟩
  | step h ha hs ih =>
    obtain ⟨hle, hlt⟩ := ih
    obtain ⟨hle', hlt'⟩ := State.step_cooldowns (h.run.reach hr) ha hs n
    refine ⟨hle.trans hle', ?_⟩
    rintro ⟨e, he, hswap⟩
    rcases List.mem_cons.1 he with rfl | he
    · exact Nat.lt_of_le_of_lt hle (hlt' hswap)
    · exact Nat.lt_of_lt_of_le (hlt ⟨e, he, hswap⟩) hle'

theorem State.step_word_kept (hs : σ.step width a = some σ')
    (h : (σ.writers w).word = some (n, c)) (h' : (σ'.writers w).word = some (n, c)) :
    (σ'.writers w).publisher = (σ.writers w).publisher := by
  cases ha : a.ofWriter w with
  | false => rw [State.step_writer hs ha]
  | true =>
    cases a with
    | payAll v S p =>
      obtain rfl := of_decide_eq_true ha
      simp only [State.step, Option.map_eq_some_iff] at hs
      obtain ⟨y', hy', rfl⟩ := hs
      simp only [State.setWriter, Function.update_self]
      simp only [Writer.begin] at hy'
      split at hy'
      · split at hy' <;> cases hy'
        rfl
      · split at hy' <;> cases hy'
        rfl
      · cases hy'
    | walk v i =>
      obtain rfl := of_decide_eq_true ha
      simp only [State.step, Option.map_eq_some_iff] at hs
      obtain ⟨⟨m', y'⟩, hy', rfl⟩ := hs
      simp only [State.setWriter, Function.update_self] at h' ⊢
      exact Writer.step_word_kept hy' h h'
    | abort v =>
      obtain rfl := of_decide_eq_true ha
      simp only [State.step, Option.map_eq_some_iff] at hs
      obtain ⟨y', hy', rfl⟩ := hs
      obtain ⟨k, _, rfl⟩ := Writer.abort_pc hy'
      simp only [State.setWriter, Function.update_self]
      rfl
    | _ => cases ha

theorem trace_word_kept (ht : (registry width Node L W Sto).Trace ok σ₀ tr σ)
    (h : (σ₀.writers w).word = some (n, c))
    (hkept : ∀ e ∈ tr, (e.post.writers w).word = some (n, c)) :
    (σ.writers w).word = some (n, c) ∧ (σ.writers w).publisher = (σ₀.writers w).publisher := by
  induction ht with
  | nil => exact ⟨h, rfl⟩
  | step _ _ hs ih =>
    obtain ⟨hword, hpub⟩ := ih fun e he => hkept e (List.mem_cons_of_mem _ he)
    have hword' := hkept _ (List.mem_cons_self ..)
    exact ⟨hword', (State.step_word_kept hs hword hword').trans hpub⟩

variable [Fintype L] [Fintype W]

/-- In the runs in which every cooldown is ended in the cooldown in which the thread has read that
there are no writers, and every claim finds the control idle: when a cooldown ends, whoever held a
reservation of the node before it began has dropped it since; and as long as a writer goes by a word
that it has read the node is not claimed again, if its exchange then succeeds. -/
theorem handover_separates
    (hr : (registry width Node L W Sto).Reach (fun a σ => inTime a σ = true) σ₀)
    (ht : (registry width Node L W Sto).Trace (fun a σ => inTime a σ = true) σ₀ tr σ) :
    (∀ a σ' n, inTime a σ = true → σ.step width a = some σ' →
      σ.shared.inUse n = nodeCooldown → σ'.shared.inUse n ≠ nodeCooldown →
      (∃ e ∈ tr, e.pre.shared.Swap e.post.shared n) →
      (∀ w s, (σ₀.writers w).reservation = some (n, s) → ∃ e ∈ tr,
        (e.pre.writers w).reservation = some (n, s) ∧ (e.post.writers w).reservation = none) ∧
      ∀ l s, (σ₀.locals l).reservation = some (n, s) → ∃ e ∈ tr,
        (e.pre.locals l).reservation = some (n, s) ∧ (e.post.locals l).reservation = none) ∧
    ∀ w n c, (σ₀.writers w).word = some (n, c) →
      (∀ e ∈ tr, (e.post.writers w).word = some (n, c)) →
      (σ.writers w).pc = .offer n c → σ.shared.control n = c →
      σ.shared.publisher n = σ.shared.claims n ∧ σ.shared.claims n = σ₀.shared.claims n := by
  have hr' := ht.run.reach hr
  constructor
  · intro a σ' n hok hs hcool hleft hswap
    obtain ⟨_, l, i, e, rfl, hpc⟩ := ends_cooldown hr' hs hcool hleft
    simp only [inTime, hpc, hcool, ne_eq, not_true, decide_false, Bool.false_or,
      decide_eq_true_eq] at hok
    have hlt := (trace_cooldowns hr ht n).2 hswap
    have hold : ∀ s, σ₀.Outstanding n s → ¬ σ.Outstanding n s := by
      intro s hs hs'
      have hle := (State.Reserved.reach hr).since n s hs
      have heq := (State.Reserved.reach hr').ended hpc hok hs'
      omega
    refine ⟨fun w s hw => ?_, fun k s hk => ?_⟩
    · refine (ht.kept_or_dropped (f := fun σ => (σ.writers w).reservation) hr
        (fun _ _ _ hr hs h => writer_reservation_kept hr hs h) hw).resolve_left fun hw' => ?_
      exact hold s (.inr ⟨w, hw⟩) (.inr ⟨w, hw'⟩)
    · refine (ht.kept_or_dropped (f := fun σ => (σ.locals k).reservation) hr
        (fun _ _ _ hr hs h => local_reservation_kept hr hs h) hk).resolve_left fun hk' => ?_
      exact hold s (.inl ⟨k, hk⟩) (.inl ⟨k, hk'⟩)
  · intro w n c hword hkept hpc hc
    obtain ⟨hword', hpub⟩ := trace_word_kept ht hword hkept
    have hP := State.Published.reach hr'
    obtain ⟨htag, hread, _⟩ := hP.read w n c hword'
    obtain ⟨_, hread₀, _⟩ := (State.Published.reach hr).read w n c hword
    refine ⟨hP.current n ?_, hread.symm.trans (hpub.trans hread₀)⟩
    rw [hc]
    exact genTag_ne_idle htag

/-- The thread of the first owner claims a node again, whose control a writer then reads. It exits
once more, and another thread ends the cooldown after the writer is done. -/
theorem handover_separates_reclaimed :
    (∃ σ₀ tr σ, (registry 64 Nat Bool Unit Unit).Reach (fun a σ => inTime a σ = true) σ₀ ∧
      (registry 64 Nat Bool Unit Unit).Trace (fun a σ => inTime a σ = true) σ₀ tr σ ∧
      (σ₀.writers ()).reservation = some (0, 1) ∧ (σ.locals true).pc = .exchange 0 2 ∧
      σ.shared.inUse 0 = nodeCooldown ∧ ∃ e ∈ tr, (e.pre.writers ()).reservation = some (0, 1) ∧
        (e.post.writers ()).reservation = none) ∧
    ∃ σ₀ tr σ, (registry 64 Nat Bool Unit Unit).Reach (fun a σ => inTime a σ = true) σ₀ ∧
      (registry 64 Nat Bool Unit Unit).Trace (fun a σ => inTime a σ = true) σ₀ tr σ ∧
      (σ₀.writers ()).word = some (0, 6) ∧ (σ.writers ()).pc = .offer 0 6 ∧
      σ.shared.control 0 = 6 ∧ σ.shared.publisher 0 = σ.shared.claims 0 ∧
      σ.shared.claims 0 = σ₀.shared.claims 0 := by
  constructor
  · obtain ⟨_, σ₀, tr, σ, _, hr, _, ht, hp⟩ := trace_after 64 (fun a σ => inTime a σ = true)
      (getFirst false 0 ++ [.begin false .drop] ++ steps false 0 3 ++ [.begin false .get] ++
        steps false 1 5 ++ [.begin false (.fallback ())] ++ steps false 0 2 ++ [.payAll () () 8] ++
        List.replicate 3 (.walk () ⟨0, 8, false⟩))
      (.walk () ⟨0, 8, false⟩)
      (List.replicate 11 (.walk () ⟨0, 8, false⟩) ++ steps false 0 4 ++ [.begin false .drop] ++
        steps false 0 3 ++ [.begin true .get] ++ steps true 1 3)
      (fun _ σ₀ tr σ => (σ₀.writers ()).reservation = some (0, 1) ∧
        (∃ e ∈ tr, e.pre.shared.Swap e.post.shared 0) ∧ (σ.locals true).pc = .exchange 0 2 ∧
        inTime (.run true ⟨1, 8, false⟩) σ = true ∧ σ.shared.inUse 0 = nodeCooldown ∧
        (σ.step 64 (.run true ⟨1, 8, false⟩)).any fun σ' => σ'.shared.inUse 0 ≠ nodeCooldown)
      (by decide +kernel)
    rw [decide_eq_true_eq, Option.any_eq_true] at hp
    obtain ⟨hres, hswap, hpc, hok, hcool, σ', hs, hleft⟩ := hp
    rw [decide_eq_true_eq] at hleft
    exact ⟨σ₀, tr, σ, hr, ht, hres, hpc, hcool,
      ((handover_separates hr ht).1 _ σ' 0 hok hs hcool hleft hswap).1 () 1 hres⟩
  · obtain ⟨_, σ₀, tr, σ, _, hr, _, ht, hp⟩ := trace_after 64 (fun a σ => inTime a σ = true)
      (getFirst false 0 ++ [.begin false .drop] ++ steps false 0 3 ++ [.begin false .get] ++
        steps false 1 5 ++ [.begin false (.fallback ())] ++ steps false 0 2 ++ [.payAll () () 8] ++
        List.replicate 2 (.walk () ⟨0, 8, false⟩))
      (.walk () ⟨0, 8, false⟩) (steps false 0 2 ++ [.walk () ⟨0, 8, false⟩])
      (fun _ σ₀ tr σ => (σ₀.writers ()).word = some (0, 6) ∧
        (∀ e ∈ tr, (e.post.writers ()).word = some (0, 6)) ∧ (σ.writers ()).pc = .offer 0 6 ∧
        σ.shared.control 0 = 6) (by decide +kernel)
    rw [decide_eq_true_eq] at hp
    obtain ⟨hword, hkept, hpc, hc⟩ := hp
    exact ⟨σ₀, tr, σ, hr, ht, hword, hpc, hc,
      (handover_separates hr ht).2 () 0 6 hword hkept hpc hc⟩

/-- A thread reads that a node is in cooldown without writers and stops before its exchange. The
first owner's thread claims the node again and publishes a generation, which a writer reads. -/
def staleCheck : List (Action Nat Bool Unit Unit) :=
  getFirst false 0 ++ [.begin false .drop] ++ steps false 0 3 ++ [.begin true .get] ++
    steps true 1 3 ++ [.begin false .get] ++ steps false 1 5 ++ [.begin false (.fallback ())] ++
    steps false 0 2 ++ [.payAll () () 8] ++ List.replicate 3 (.walk () ⟨0, 8, false⟩)

/-- A thread reads that a node is in cooldown without writers and stops before its exchange.
Meanwhile the node is claimed by another thread, which publishes a generation that a writer reads,
and released again. The exchange ends this later cooldown while the writer holds its reservation.
The thread claims the node and publishes the same generation, and the writer's exchange succeeds. -/
theorem handover_overlaps :
    (∃ σ₀ tr σ σ', (registry 64 Nat Bool Unit Unit).Reach (fun _ _ => True) σ₀ ∧
      (registry 64 Nat Bool Unit Unit).Trace (fun _ _ => True) σ₀ tr σ ∧
      (σ₀.writers ()).reservation = some (0, 1) ∧
      (∃ e ∈ tr, e.pre.shared.Swap e.post.shared 0) ∧
      (∀ e ∈ tr, (e.post.writers ()).reservation = some (0, 1)) ∧
      σ.step 64 (.run true ⟨1, 8, false⟩) = some σ' ∧ σ.shared.inUse 0 = nodeCooldown ∧
      σ'.shared.inUse 0 = nodeUnused) ∧
    ∃ σ₀ tr σ σ', (registry 64 Nat Bool Unit Unit).Reach (fun _ _ => True) σ₀ ∧
      (registry 64 Nat Bool Unit Unit).Trace (fun _ _ => True) σ₀ tr σ ∧
      (σ₀.writers ()).word = some (0, 6) ∧ (∀ e ∈ tr, (e.post.writers ()).word = some (0, 6)) ∧
      σ₀.shared.turns 0 = [.claimed false, .released false, .claimed false] ∧
      σ.shared.turns 0 = .claimed true :: .released false :: σ₀.shared.turns 0 ∧
      (σ.locals true).pc = .candidate 6 ∧ (σ.locals true).node = some 0 ∧
      σ.step 64 (.walk () ⟨0, 8, false⟩) = some σ' ∧ σ.shared.control 0 = 6 ∧
      σ'.shared.control 0 = 8 ||| replacementTag := by
  constructor
  · obtain ⟨_, σ₀, tr, σ, _, hr, _, ht, hp⟩ := trace_after 64 (fun _ _ => True)
      staleCheck (.walk () ⟨0, 8, false⟩)
      (steps false 0 4 ++ [.begin false .drop] ++ steps false 0 3)
      (fun _ σ₀ tr σ => (σ₀.writers ()).reservation = some (0, 1) ∧
        (∃ e ∈ tr, e.pre.shared.Swap e.post.shared 0) ∧
        (∀ e ∈ tr, (e.post.writers ()).reservation = some (0, 1)) ∧
        σ.shared.inUse 0 = nodeCooldown ∧
        (σ.step 64 (.run true ⟨1, 8, false⟩)).any fun σ' => σ'.shared.inUse 0 = nodeUnused)
      (by decide +kernel)
    rw [decide_eq_true_eq, Option.any_eq_true] at hp
    obtain ⟨hres, hswap, hkept, hcool, σ', hs, hunused⟩ := hp
    rw [decide_eq_true_eq] at hunused
    exact ⟨σ₀, tr, σ, σ', hr, ht, hres, hswap, hkept, hs, hcool, hunused⟩
  · obtain ⟨_, σ₀, tr, σ, _, hr, _, ht, hp⟩ := trace_after 64 (fun _ _ => True)
      staleCheck (.walk () ⟨0, 8, false⟩)
      (steps false 0 4 ++ [.begin false .drop] ++ steps false 0 3 ++ steps true 1 2 ++
        [.begin true (.fallback ())] ++ steps true 1 2)
      (fun _ σ₀ tr σ => (σ₀.writers ()).word = some (0, 6) ∧
        (∀ e ∈ tr, (e.post.writers ()).word = some (0, 6)) ∧
        σ₀.shared.turns 0 = [.claimed false, .released false, .claimed false] ∧
        σ.shared.turns 0 = .claimed true :: .released false :: σ₀.shared.turns 0 ∧
        (σ.locals true).pc = .candidate 6 ∧ (σ.locals true).node = some 0 ∧
        σ.shared.control 0 = 6 ∧ (σ.step 64 (.walk () ⟨0, 8, false⟩)).any fun σ' =>
          σ'.shared.control 0 = 8 ||| replacementTag) (by decide +kernel)
    rw [decide_eq_true_eq, Option.any_eq_true] at hp
    obtain ⟨hword, hkept, hturns, hturns', hpc, hn, hc, σ', hs, hc'⟩ := hp
    rw [decide_eq_true_eq] at hc'
    exact ⟨σ₀, tr, σ, σ', hr, ht, hword, hkept, hturns, hturns', hpc, hn, hs, hc, hc'⟩

end ArcSwap.Registry
