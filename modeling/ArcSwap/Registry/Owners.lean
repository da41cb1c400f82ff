import ArcSwap.Registry.List

namespace ArcSwap.Registry
set_option autoImplicit true

open Concurrent (Linked Reachable)

/-- The node of which a `LocalNode` has the slots to itself: from the claim on, or from the
allocation, up to the swap of `start_cooldown`. -/
def Local.owns (x : Local Node Sto) : Option Node :=
  match x.pc with
  | .loadHead h | .link h _ | .prepend h _ => some h
  | .release _ _ | .assertion => none
  | _ => x.node

/-- Claims follow releases, and a node is released by the one who has claimed it. -/
def Alternating : List (Turn L) → Prop
  | [] => True
  | .claimed _ :: es => holder es = none ∧ Alternating es
  | .released l :: es => holder es = some l ∧ Alternating es

variable {Node L W Sto : Type} {m m' : Shared Node L Sto} {x x' : Local Node Sto}
  {y y' : Writer Node Sto} {σ σ' : State Node L W Sto}

/-- What a step of the `LocalNode` `l` does to who owns the nodes. -/
inductive Local.Owning [DecidableEq Node] (l : L) (m m' : Shared Node L Sto)
    (x x' : Local Node Sto) : Prop
  | keep (ht : m'.turns = m.turns) (hu : m'.inUse = m.inUse) (ho : x'.owns = x.owns)
  | free (n : Node) (e : Nat) (hpc : x.pc = .exchange n e) (hn : m.inUse n = nodeCooldown)
    (ht : m'.turns = m.turns) (hu : m'.inUse = Function.update m.inUse n nodeUnused)
    (ho : x'.owns = x.owns)
  | claim (n : Node)
    (hn : x.pc = .claim n ∧ m.inUse n = nodeUnused ∧ n ∈ m.published ∨ m.allocated n = false)
    (ht : m'.turns = Function.update m.turns n (.claimed l :: m.turns n))
    (hu : m'.inUse = Function.update m.inUse n nodeUsed) (ha : m'.allocated n = true)
    (ho : x.owns = none) (ho' : x'.owns = some n)
  | release (n : Node) (ht : m'.turns = Function.update m.turns n (.released l :: m.turns n))
    (hu : m'.inUse = Function.update m.inUse n nodeCooldown)
    (ho : x.owns = some n) (ho' : x'.owns = none) (hpc : ∃ why since, x.pc = .cooldown why since)

structure State.Owned (σ : State Node L W Sto) : Prop where
  owner : ∀ l n, (σ.locals l).owns = some n ↔ holder (σ.shared.turns n) = some l
  used : ∀ n, (∃ l, holder (σ.shared.turns n) = some l) ↔ σ.shared.inUse n = nodeUsed
  fresh : ∀ n, σ.shared.allocated n = false → σ.shared.turns n = []
  alternating : ∀ n, Alternating (σ.shared.turns n)
  asserted : ∀ l, (σ.locals l).pc ≠ .assertion

theorem State.Owned.inUse (h : σ.Owned) (l : L) (n : Node) (hn : (σ.locals l).owns = some n) :
    σ.shared.inUse n = nodeUsed :=
  (h.used n).1 ⟨l, (h.owner l n).1 hn⟩

theorem Local.owns_visit (x : Local Node Sto) (p : Option Node) : (x.visit p).owns = x.node := by
  cases p <;> rfl

theorem Local.begin_owns (hs : x.begin op = some x') :
    x'.owns = x.owns ∧ x'.pc ≠ .assertion := by
  cases hpc : x.pc with
  | rest =>
    cases op with
    | get | attempt | fallback =>
      simp only [Local.begin, hpc] at hs
      split at hs <;> cases hs
      exact ⟨by simp only [owns, hpc, goto], (by intro h; cases h)⟩
    | drop =>
      simp only [Local.begin, hpc, Option.some.injEq] at hs
      split at hs
      · cases hs
        exact ⟨by simp only [owns, hpc, goto], (by intro h; cases h)⟩
      · rename_i hnone
        cases hs
        rw [Option.not_isSome_iff_eq_none] at hnone
        exact ⟨by simp only [owns, hpc, hnone, fresh], (by intro h; cases h)⟩
  | _ =>
    simp only [Local.begin, hpc] at hs
    cases hs

theorem State.Owned.of_eq (h : σ.Owned) (hl : σ'.locals = σ.locals)
    (ht : σ'.shared.turns = σ.shared.turns) (hu : σ'.shared.inUse = σ.shared.inUse)
    (ha : σ'.shared.allocated = σ.shared.allocated) : σ'.Owned := by
  obtain ⟨h₁, h₂, h₃, h₄, h₅⟩ := h
  refine ⟨?_, ?_, ?_, ?_, ?_⟩
  · rw [hl, ht]
    exact h₁
  · rw [ht, hu]
    exact h₂
  · rw [ha, ht]
    exact h₃
  · rw [ht]
    exact h₄
  · rw [hl]
    exact h₅

variable [DecidableEq Node]

/-- The node that a step leaves a `LocalNode` with is the one it has had. -/
theorem Local.owning_same {l : L} (ht : m'.turns = m.turns) (hu : m'.inUse = m.inUse)
    (ho : x'.owns = x.owns) (hn : x'.pc ≠ .assertion) :
    Local.Owning l m m' x x' ∧ x'.pc ≠ .assertion :=
  ⟨.keep ht hu ho, hn⟩

theorem Local.step_owning (hm : m.Listed) (hx : x.Listed m)
    (hu : ∀ n, x.owns = some n → m.inUse n = nodeUsed) (hs : x.step w l i m = some (m', x')) :
    Local.Owning l m m' x x' ∧ x'.pc ≠ .assertion := by
  cases hpc : x.pc with
  | rest | assertion =>
    simp only [Local.step, hpc] at hs
    cases hs
  | head =>
    simp only [Local.step, hpc, Option.some.injEq] at hs
    cases hs
    refine owning_same rfl rfl ?_ (by cases m.listHead <;> intro h <;> cases h)
    rw [owns_visit]
    simp only [owns, hpc]
  | inUse n =>
    simp only [Local.step, hpc, Option.some.injEq] at hs
    cases hs
    split <;> exact owning_same rfl rfl (by simp only [owns, hpc, goto]) (by intro h; cases h)
  | writers n =>
    simp only [Local.step, hpc, Option.some.injEq] at hs
    cases hs
    split <;> exact owning_same rfl rfl (by simp only [owns, hpc, goto]) (by intro h; cases h)
  | exchange n epoch =>
    simp only [Local.step, hpc, Option.some.injEq] at hs
    split at hs
    · rename_i hn
      cases hs
      exact ⟨.free n epoch hpc hn rfl rfl (by simp only [owns, hpc, goto]), (by intro h; cases h)⟩
    · cases hs
      exact owning_same rfl rfl (by simp only [owns, hpc, goto]) (by intro h; cases h)
  | claim n =>
    have hnone : x.owns = none := by
      simp only [owns, hpc]
      exact hx.without (by rw [hpc]; rfl)
    have hv : x.pc.visiting = some n := by rw [hpc]; rfl
    obtain ⟨hp, _⟩ := hx.walking n hv
    simp only [Local.step, hpc] at hs
    split at hs
    · rename_i hn
      cases hs
      refine ⟨.claim n (.inl ⟨hpc, hn, hp⟩) rfl rfl (hm.allocated n hp) hnone rfl, ?_⟩
      intro h
      cases h
    · cases hs
      exact owning_same rfl rfl (by simp only [owns, hpc, goto]) (by intro h; cases h)
  | next n =>
    simp only [Local.step, hpc, Option.some.injEq] at hs
    cases hs
    refine owning_same rfl rfl ?_ (by cases m.next n <;> intro h <;> cases h)
    rw [owns_visit]
    simp only [owns, hpc]
  | alloc =>
    have hnone : x.owns = none := by
      simp only [owns, hpc]
      exact hx.without (by rw [hpc]; rfl)
    simp only [Local.step, hpc] at hs
    split at hs
    · cases hs
    · rename_i hfree
      cases hs
      exact ⟨.claim i.fresh (.inr (by simpa using hfree)) rfl rfl (Function.update_self ..) hnone
        rfl, (by intro h; cases h)⟩
  | loadHead h =>
    simp only [Local.step, hpc, Option.some.injEq] at hs
    cases hs
    exact owning_same rfl rfl (by simp only [owns, hpc, goto]) (by intro h; cases h)
  | link h head =>
    simp only [Local.step, hpc, Option.some.injEq] at hs
    cases hs
    exact owning_same rfl rfl (by simp only [owns, hpc, goto]) (by intro h; cases h)
  | prepend h head =>
    simp only [Local.step, hpc] at hs
    split at hs
    · cases hs
      exact owning_same rfl rfl (by simp only [owns, hpc]) (by intro h; cases h)
    · cases hs
      exact owning_same rfl rfl (by simp only [owns, hpc, goto]) (by intro h; cases h)
  | scan ptr k =>
    simp only [Local.step, hpc, Option.map_eq_some_iff] at hs
    obtain ⟨n, _, hs⟩ := hs
    cases hs
    refine owning_same rfl rfl ?_ ?_ <;> simp only [goto]
    · simp only [owns, hpc]
      split_ifs <;> rfl
    · split_ifs <;> intro h <;> cases h
  | take | setAddr | setIdle =>
    simp only [Local.step, hpc, Option.map_eq_some_iff] at hs
    obtain ⟨n, _, hs⟩ := hs
    cases hs
    exact owning_same rfl rfl (by simp only [owns, hpc, goto]) (by intro h; cases h)
  | setControl gen discard =>
    obtain ⟨n, pc, _, rfl, rfl, hpc'⟩ := Local.step_setControl hpc hs
    rcases hpc' with ⟨rfl, _⟩ | ⟨_, ⟨_, rfl⟩ | ⟨_, rfl⟩⟩ <;>
      exact owning_same rfl rfl (by simp only [owns, hpc, goto]) (by intro h; cases h)
  | reserve why =>
    simp only [Local.step, hpc, Option.map_eq_some_iff] at hs
    obtain ⟨n, _, hs⟩ := hs
    cases hs
    exact owning_same rfl rfl (by simp only [owns, hpc, goto]) (by intro h; cases h)
  | confirm d ptr =>
    simp only [Local.step, hpc, Option.some.injEq] at hs
    split at hs <;> cases hs <;>
      exact owning_same rfl rfl (by simp only [owns, hpc, goto]) (by intro h; cases h)
  | settle d ptr =>
    simp only [Local.step, hpc, Option.some.injEq] at hs
    cases hs
    simp only [Shared.settle]
    split <;> exact owning_same rfl rfl (by simp only [owns, hpc, goto]) (by intro h; cases h)
  | cooldown why since =>
    simp only [Local.step, hpc, Option.map_eq_some_iff] at hs
    obtain ⟨n, hn, hs⟩ := hs
    have howns : x.owns = some n := by simpa only [owns, hpc] using hn
    rw [if_pos (hu n howns)] at hs
    cases hs
    exact ⟨.release n rfl rfl howns rfl ⟨why, since, hpc⟩, (by intro h; cases h)⟩
  | release why since =>
    simp only [Local.step, hpc, Option.map_eq_some_iff] at hs
    obtain ⟨n, _, hs⟩ := hs
    have hnone : x.owns = none := by simp only [owns, hpc]
    cases why with
    | drop =>
      cases hs
      exact owning_same rfl rfl hnone.symm (by intro h; cases h)
    | discard gen =>
      cases hs
      exact owning_same rfl rfl hnone.symm (by intro h; cases h)
  | candidate gen =>
    simp only [Local.step, hpc] at hs
    split at hs <;> cases hs
    exact owning_same rfl rfl (by simp only [owns, hpc, goto]) (by intro h; cases h)
  | setSlot gen ptr =>
    simp only [Local.step, hpc, Option.some.injEq] at hs
    split at hs <;> cases hs <;>
      exact owning_same rfl rfl (by simp only [owns, hpc, goto]) (by intro h; cases h)
  | wrongControl | panic =>
    simp only [Local.step, hpc, Option.some.injEq] at hs
    cases hs
    exact owning_same rfl rfl (by simp only [owns, hpc, goto]) (by intro h; cases h)

theorem Writer.step_owning [DecidableEq Sto] (hs : y.step i m = some (m', y')) :
    m'.turns = m.turns ∧ m'.inUse = m.inUse := by
  cases hpc : y.pc with
  | rest | done =>
    simp only [Writer.step, hpc] at hs
    cases hs
  | head | load | addr | next | reserve | unwind | recheck =>
    simp only [Writer.step, hpc, Option.some.injEq] at hs
    cases hs
    exact ⟨rfl, rfl⟩
  | offer n c =>
    simp only [Writer.step, hpc] at hs
    split at hs
    · simp only [Option.some.injEq] at hs
      split at hs <;> cases hs <;> exact ⟨rfl, rfl⟩
    · cases hs
  | pay n todo =>
    cases todo with
    | nil =>
      simp only [Writer.step, hpc, Option.some.injEq] at hs
      cases hs
      exact ⟨rfl, rfl⟩
    | cons j js =>
      simp only [Writer.step, hpc, Option.some.injEq] at hs
      cases hs
      simp only [Shared.pay]
      split <;> exact ⟨rfl, rfl⟩

variable [DecidableEq L]

theorem State.Owned.setLocal (h : σ.Owned)
    (ha : ∀ n, σ.shared.allocated n = true → m'.allocated n = true)
    (hs : Local.Owning l σ.shared m' (σ.locals l) x') (hx' : x'.pc ≠ .assertion) :
    (σ.setLocal l (m', x')).Owned := by
  have hassert : ∀ k, (Function.update σ.locals l x' k).pc ≠ .assertion := by
    intro k
    by_cases hk : k = l
    · subst hk
      rwa [Function.update_self]
    · rw [Function.update_of_ne hk]
      exact h.asserted k
  have howns : x'.owns = (σ.locals l).owns →
      ∀ k, (Function.update σ.locals l x' k).owns = (σ.locals k).owns := by
    intro ho k
    by_cases hk : k = l
    · subst hk
      rwa [Function.update_self]
    · rw [Function.update_of_ne hk]
  have hfresh : m'.turns = σ.shared.turns → ∀ n, m'.allocated n = false → m'.turns n = [] := by
    intro ht n hn
    rw [ht]
    apply h.fresh
    cases hn' : σ.shared.allocated n with
    | false => rfl
    | true => cases hn.symm.trans (ha n hn')
  cases hs with
  | keep ht hu ho =>
    refine ⟨fun k n => ?_, ?_, hfresh ht, ?_, hassert⟩
    · simp only [State.setLocal, howns ho, ht]
      exact h.owner k n
    · simp only [State.setLocal, ht, hu]
      exact h.used
    · simp only [State.setLocal, ht]
      exact h.alternating
  | free n e hpc hn ht hu ho =>
    refine ⟨fun k n => ?_, fun k => ?_, hfresh ht, ?_, hassert⟩
    · simp only [State.setLocal, howns ho, ht]
      exact h.owner k n
    · simp only [State.setLocal, ht, hu, h.used, Function.update_apply]
      split
      · rename_i he
        rw [he, hn]
        exact ⟨(by intro h; cases h), (by intro h; cases h)⟩
      · exact Iff.rfl
    · simp only [State.setLocal, ht]
      exact h.alternating
  | claim n hn ht hu ha' ho ho' =>
    have hfree : holder (σ.shared.turns n) = none := by
      cases hh : holder (σ.shared.turns n) with
      | none => rfl
      | some k =>
        rcases hn with ⟨_, hn, _⟩ | hn
        · cases hn.symm.trans ((h.used n).1 ⟨k, hh⟩)
        · rw [h.fresh n hn] at hh
          cases hh
    refine ⟨fun k j => ?_, fun j => ?_, fun j hj => ?_, fun j => ?_, hassert⟩
    · simp only [State.setLocal, ht, Function.update_apply]
      by_cases hk : k = l <;> by_cases hj : j = n
      · subst hk hj
        simp only [if_pos, ho', holder_claimed]
      · subst hk
        simp only [if_pos, if_neg hj, ho', ← h.owner, ho]
        exact ⟨fun h => absurd (Option.some.inj h).symm hj, (by intro h; cases h)⟩
      · subst hj
        simp only [if_neg hk, if_pos, h.owner, hfree, holder_claimed]
        exact ⟨(by intro h; cases h), fun h => absurd (Option.some.inj h).symm hk⟩
      · simp only [if_neg hk, if_neg hj]
        exact h.owner k j
    · simp only [State.setLocal, ht, hu, Function.update_apply]
      split
      · exact ⟨fun _ => rfl, fun _ => ⟨l, rfl⟩⟩
      · exact h.used j
    · simp only [State.setLocal, ht, Function.update_apply] at hj ⊢
      split
      · rename_i he
        subst he
        cases hj.symm.trans ha'
      · apply h.fresh
        cases hn' : σ.shared.allocated j with
        | false => rfl
        | true => cases hj.symm.trans (ha j hn')
    · simp only [State.setLocal, ht, Function.update_apply]
      split
      · exact ⟨hfree, h.alternating n⟩
      · exact h.alternating j
  | release n ht hu ho ho' _ =>
    have hheld : holder (σ.shared.turns n) = some l := (h.owner l n).1 ho
    have halloc : σ.shared.allocated n = true := by
      cases hn : σ.shared.allocated n with
      | true => rfl
      | false =>
        rw [h.fresh n hn] at hheld
        cases hheld
    refine ⟨fun k j => ?_, fun j => ?_, fun j hj => ?_, fun j => ?_, hassert⟩
    · simp only [State.setLocal, ht, Function.update_apply]
      by_cases hk : k = l <;> by_cases hj : j = n
      · subst hk hj
        simp only [if_pos, ho', holder_released]
        exact ⟨(by intro h; cases h), (by intro h; cases h)⟩
      · subst hk
        simp only [if_pos, if_neg hj, ho', ← h.owner, ho]
        exact ⟨(by intro h; cases h), fun h => absurd (Option.some.inj h).symm hj⟩
      · subst hj
        simp only [if_neg hk, if_pos, h.owner, hheld, holder_released]
        exact ⟨fun h => absurd (Option.some.inj h).symm hk, (by intro h; cases h)⟩
      · simp only [if_neg hk, if_neg hj]
        exact h.owner k j
    · simp only [State.setLocal, ht, hu, Function.update_apply]
      split
      · refine ⟨?_, ?_⟩
        · rintro ⟨k, h⟩
          cases h
        · intro h
          cases h
      · exact h.used j
    · simp only [State.setLocal, ht, Function.update_apply] at hj ⊢
      split
      · rename_i he
        subst he
        cases hj.symm.trans (ha _ halloc)
      · apply h.fresh
        cases hn' : σ.shared.allocated j with
        | false => rfl
        | true => cases hj.symm.trans (ha j hn')
    · simp only [State.setLocal, ht, Function.update_apply]
      split
      · exact ⟨hheld, h.alternating n⟩
      · exact h.alternating j

variable [DecidableEq W] [DecidableEq Sto]

theorem State.Owned.step (h : σ.Owned) (hL : σ.Listed) (hs : σ.step width a = some σ') :
    σ'.Owned := by
  cases a with
  | begin l op =>
    simp only [State.step, Option.map_eq_some_iff] at hs
    obtain ⟨x', hx', rfl⟩ := hs
    obtain ⟨ho, hn⟩ := Local.begin_owns hx'
    exact h.setLocal (fun _ => id) (.keep rfl rfl ho) hn
  | run l i =>
    simp only [State.step, Option.map_eq_some_iff] at hs
    obtain ⟨⟨m', x'⟩, hx', rfl⟩ := hs
    obtain ⟨ho, hn⟩ := Local.step_owning hL.shared (hL.locals l) (h.inUse l) hx'
    exact h.setLocal ((hL.locals l).step hL.shared hx').extends_.allocated ho hn
  | payAll w S ptr =>
    simp only [State.step, Option.map_eq_some_iff] at hs
    obtain ⟨y', _, rfl⟩ := hs
    exact h.of_eq rfl rfl rfl rfl
  | walk w i =>
    simp only [State.step, Option.map_eq_some_iff] at hs
    obtain ⟨⟨m', y'⟩, hy', rfl⟩ := hs
    obtain ⟨ht, hu⟩ := Writer.step_owning hy'
    exact h.of_eq rfl ht hu (Writer.step_list hy').2.2.2
  | abort w =>
    simp only [State.step, Option.map_eq_some_iff] at hs
    obtain ⟨y', _, rfl⟩ := hs
    exact h.of_eq rfl rfl rfl rfl
  | dropGuard d ptr =>
    simp only [State.step] at hs
    split at hs <;> cases hs
    simp only [Shared.settle]
    split <;> exact h.of_eq rfl rfl rfl rfl

theorem State.Owned.reach (hr : (registry width Node L W Sto).Reach ok σ) : σ.Owned := by
  refine hr.invariant_of (Q := State.Listed) (fun _ => State.Listed.reach) ?_
    fun _ _ _ hL h _ hs => h.step hL hs
  rintro σ rfl
  refine ⟨fun l n => ⟨?_, ?_⟩, fun n => ⟨?_, ?_⟩, fun n _ => rfl, fun n => trivial, fun l => ?_⟩
  · intro h
    cases h
  · intro h
    cases h
  · rintro ⟨l, h⟩
    cases h
  · intro h
    cases h
  · intro h
    cases h

/-- The owner of a node changes only in its own claims and releases. -/
theorem State.Owned.step_turns (hO : σ.Owned) (hL : σ.Listed) (hs : σ.step width a = some σ')
    (hne : σ'.shared.turns n ≠ σ.shared.turns n) : ∃ l i, a = .run l i ∧
      ((σ.locals l).owns = none ∧ (σ'.locals l).owns = some n ∧
          σ'.shared.turns n = .claimed l :: σ.shared.turns n ∨
        (σ.locals l).owns = some n ∧ (σ'.locals l).owns = none ∧
          σ'.shared.turns n = .released l :: σ.shared.turns n ∧
          ∃ why since, (σ.locals l).pc = .cooldown why since) := by
  cases a with
  | begin | payAll | abort =>
    simp only [State.step, Option.map_eq_some_iff] at hs
    obtain ⟨_, _, rfl⟩ := hs
    exact absurd rfl hne
  | run l i =>
    simp only [State.step, Option.map_eq_some_iff] at hs
    obtain ⟨⟨m', x'⟩, hx', rfl⟩ := hs
    refine ⟨l, i, rfl, ?_⟩
    simp only [State.setLocal, Function.update_self] at hne ⊢
    cases (Local.step_owning hL.shared (hL.locals l) (hO.inUse l) hx').1 with
    | keep ht _ _ | free _ _ _ _ ht _ _ => exact absurd (congrFun ht n) hne
    | claim k _ ht _ _ ho ho' =>
      by_cases hkn : n = k
      · subst hkn
        exact .inl ⟨ho, ho', by rw [ht, Function.update_self]⟩
      · exact absurd (by rw [ht, Function.update_of_ne hkn]) hne
    | release k ht _ ho ho' hpc =>
      by_cases hkn : n = k
      · subst hkn
        exact .inr ⟨ho, ho', by rw [ht, Function.update_self], hpc⟩
      · exact absurd (by rw [ht, Function.update_of_ne hkn]) hne
  | walk w i =>
    simp only [State.step, Option.map_eq_some_iff] at hs
    obtain ⟨⟨m', y'⟩, hy', rfl⟩ := hs
    exact absurd (congrFun (Writer.step_owning hy').1 n) hne
  | dropGuard d ptr =>
    simp only [State.step] at hs
    split at hs <;> cases hs
    apply absurd _ hne
    simp only [Shared.settle]
    split <;> rfl

/-- Claims and releases of a node alternate, each release by the one who has claimed it, and a node
is in use exactly while somebody owns it. So the assertion of `start_cooldown` holds. -/
theorem nodes_claimed (hr : (registry width Node L W Sto).Reach ok σ) :
    (∀ n, Alternating (σ.shared.turns n) ∧
      (∀ l, (σ.locals l).owns = some n ↔ holder (σ.shared.turns n) = some l) ∧
      (σ.shared.inUse n = nodeUsed ↔ ∃ l, holder (σ.shared.turns n) = some l)) ∧
    (∀ a σ' n, σ.step width a = some σ' → σ'.shared.turns n ≠ σ.shared.turns n →
      ∃ l i, a = .run l i ∧
        ((σ.locals l).owns = none ∧ (σ'.locals l).owns = some n ∧
            σ'.shared.turns n = .claimed l :: σ.shared.turns n ∨
          (σ.locals l).owns = some n ∧ (σ'.locals l).owns = none ∧
            σ'.shared.turns n = .released l :: σ.shared.turns n)) ∧
    ∀ l, (σ.locals l).pc ≠ .assertion := by
  have hL := State.Listed.reach hr
  have hO := State.Owned.reach hr
  refine ⟨fun n => ⟨hO.alternating n, fun l => hO.owner l n, (hO.used n).symm⟩,
    fun a σ' n hs hne => ?_, hO.asserted⟩
  obtain ⟨l, i, ha, h | ⟨ho, ho', ht, _⟩⟩ := hO.step_turns hL hs hne
  · exact ⟨l, i, ha, .inl h⟩
  · exact ⟨l, i, ha, .inr ⟨ho, ho', ht⟩⟩

theorem nodes_claimed_again : ∃ σ, (registry 64 Nat Bool Unit Unit).Reach (fun _ _ => True) σ ∧
    (σ.locals true).owns = some 0 ∧
      σ.shared.turns 0 = [.claimed true, .released false, .claimed false] ∧
      σ.shared.inUse 0 = nodeUsed := by
  obtain ⟨σ, hr, hp⟩ := reach_after 64 (fun _ _ => True)
    (getFirst false 0 ++ [.begin false .drop] ++ steps false 0 3 ++ [.begin true .get] ++
      steps true 1 5)
    (fun σ => σ.shared.turns 0 = [.claimed true, .released false, .claimed false])
    (by decide +kernel)
  rw [decide_eq_true_eq] at hp
  obtain ⟨_, ho, hu⟩ := (nodes_claimed hr).1 0
  have hh : holder (σ.shared.turns 0) = some true := by rw [hp, holder_claimed]
  exact ⟨σ, hr, (ho true).2 hh, hp, hu.2 ⟨true, hh⟩⟩

end ArcSwap.Registry
