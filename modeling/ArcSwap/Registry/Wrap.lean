import ArcSwap.Registry.Cooldown
import ArcSwap.Registry.Debts

namespace ArcSwap.Registry
set_option autoImplicit true

/-- How the transactions of a `LocalNode` go on depends on whether its counter has wrapped. -/
def Local.Rolled (x : Local Node Sto) : Prop :=
  match x.pc with
  | .setControl _ discard => discard = true ↔ x.generation = 0
  | .reserve (.discard _) | .cooldown (.discard _) _ | .release (.discard _) _ => x.generation = 0
  | .candidate _ | .setSlot _ _ => x.node = none ↔ x.generation = 0
  | .setIdle _ _ => x.generation ≠ 0
  | .panic => x.node = none ∧ x.generation = 0
  | _ => True

/-- The tagged generation of the transaction a thread is in. -/
def LocalPc.transaction : LocalPc Node Sto → Option Nat
  | .setControl gen _ | .reserve (.discard gen) | .cooldown (.discard gen) _
  | .release (.discard gen) _ | .candidate gen | .setSlot gen _ | .setIdle gen _ => some gen
  | _ => none

def LocalPc.published : LocalPc Node Sto → Option Nat
  | .candidate gen | .setSlot gen _ | .setIdle gen _ => some gen
  | _ => none

/-- A thread gives its node up in the middle of a transaction, or a transaction has failed. -/
def LocalPc.discarding : LocalPc Node Sto → Bool
  | .setControl _ true | .reserve (.discard _) | .cooldown (.discard _) _ | .release (.discard _) _
  | .wrongControl | .panic => true
  | _ => false

def LocalPc.using : LocalPc Node Sto → Bool
  | .scan _ _ | .take _ _ | .setAddr _ | .setControl _ _ | .reserve _ | .cooldown _ _ | .release _ _
  | .setIdle _ _ => true
  | _ => false

/-- The steps that remain of a fallback. -/
def LocalPc.fallbackRank : LocalPc Node Sto → Nat
  | .setAddr _ => 8
  | .setControl _ _ => 7
  | .reserve (.discard _) => 6
  | .cooldown (.discard _) _ => 5
  | .release (.discard _) _ => 4
  | .candidate _ => 3
  | .setSlot _ _ => 2
  | .setIdle _ _ => 1
  | _ => 0

variable {Node L W Sto : Type} {m m' : Shared Node L Sto} {x x' : Local Node Sto}
  {y y' : Writer Node Sto} {σ σ' : State Node L W Sto}

/-- No transaction begins with the generation to which the counter wraps. -/
def noWrap (width : Nat) (a : Action Node L W Sto) (σ : State Node L W Sto) : Bool :=
  match a with
  | .run l _ =>
    match (σ.locals l).pc with
    | .setAddr _ => !(getDebt width (σ.locals l).generation).2.1
    | _ => true
  | _ => true

theorem Local.rolled_of_getting (h : x.pc.getting = true) : x.Rolled := by
  cases hpc : x.pc <;> simp only [Rolled, hpc] <;> rw [hpc] at h <;> cases h

theorem Local.rolled_visit (x : Local Node Sto) (o : Option Node) : (x.visit o).Rolled := by
  cases o <;> exact trivial

/-- What a step does to the generation of a `LocalNode` and of its transaction. -/
inductive Local.Turning (w : Nat) (x x' : Local Node Sto) : Prop
  | keep (hg : x'.generation = x.generation)
    (ht : x'.pc.transaction = x.pc.transaction ∨ x'.pc.transaction = none)
  | next (hg : x'.generation = nextGeneration w x.generation)
    (ht : x'.pc.transaction = some (x'.generation ||| genTag))
  | reset (hx : x' = fresh)

theorem Local.Turning.out (hg : x'.generation = x.generation) (ht : x'.pc.transaction = none) :
    Local.Turning w x x' :=
  .keep hg (.inr ht)

theorem Local.transaction_visit (x : Local Node Sto) (o : Option Node) :
    (x.visit o).pc.transaction = none ∧ (x.visit o).generation = x.generation := by
  cases o <;> exact ⟨rfl, rfl⟩

theorem LocalPc.transaction_of_getting {pc : LocalPc Node Sto} (h : pc.getting = true) :
    pc.transaction = none := by
  cases pc <;> first | rfl | cases h

/-- Counters are multiples of four, and a transaction has the generation of its counter. -/
structure Local.Counted (w : Nat) (x : Local Node Sto) : Prop where
  aligned : x.generation % 4 = 0
  bounded : x.generation < 2 ^ w
  current : ∀ gen, x.pc.transaction = some gen → gen = x.generation ||| genTag

theorem Local.Counted.fresh : (fresh : Local Node Sto).Counted w :=
  ⟨rfl, Nat.two_pow_pos w, fun _ h => by cases h⟩

theorem LocalPc.transaction_of_published {pc : LocalPc Node Sto} (h : pc.published = some gen) :
    pc.transaction = some gen := by
  cases pc <;> first | exact h | cases h

theorem Local.published_visit (x : Local Node Sto) (o : Option Node) :
    (x.visit o).pc.published = none ∧ (x.visit o).pc.discarding = false := by
  cases o <;> exact ⟨rfl, rfl⟩

theorem Writer.begin_word {S : Sto} (hs : y.begin S p = some y') : y'.word = none := by
  simp only [Writer.begin] at hs
  split at hs
  · split at hs <;> cases hs
    rfl
  · split at hs <;> cases hs
    rfl
  · cases hs

/-- A control word that is not idle is that of a transaction which the owner of the node is in. -/
structure State.Confirmed (σ : State Node L W Sto) : Prop where
  kept : ∀ l, (σ.locals l).pc.discarding = false
  held : ∀ l gen, (σ.locals l).pc.published = some gen → ∃ n, (σ.locals l).owns = some n
  current : ∀ n, σ.shared.control n ≠ idle → ∃ l gen, (σ.locals l).owns = some n ∧
    (σ.locals l).pc.published = some gen ∧
    (σ.shared.control n = gen ∨ tagOf (σ.shared.control n) = replacementTag)
  transacting : ∀ l n gen, (σ.locals l).owns = some n → (σ.locals l).pc.published = some gen →
    σ.shared.control n = gen ∨ tagOf (σ.shared.control n) = replacementTag

theorem State.Confirmed.finds_idle {discard : Bool} (h : σ.Confirmed) (hO : σ.Owned)
    (hpc : (σ.locals l).pc = .setControl gen discard) (hn : (σ.locals l).node = some n) :
    σ.shared.control n = idle := by
  by_contra hcontrol
  obtain ⟨k, gen', ho, hp, _⟩ := h.current n hcontrol
  have hl : (σ.locals l).owns = some n := by simpa only [Local.owns, hpc] using hn
  cases ((hO.owner k n).1 ho).symm.trans ((hO.owner l n).1 hl)
  rw [hpc] at hp
  cases hp

theorem Local.node_of_published (hp : x.pc.published = some gen) (ho : x.owns = some n) :
    x.node = some n := by
  cases hpc : x.pc with
  | candidate | setSlot | setIdle => simpa only [owns, hpc] using ho
  | _ =>
    rw [hpc] at hp
    cases hp

theorem Local.Rolled.begin (hs : x.begin op = some x') : x'.Rolled := by
  have hpc := begin_rest hs
  cases op with
  | get | attempt | fallback =>
    simp only [Local.begin, hpc] at hs
    split at hs <;> cases hs
    exact trivial
  | drop =>
    simp only [Local.begin, hpc, Option.some.injEq] at hs
    split at hs <;> cases hs <;> exact trivial

theorem Local.begin_using (hs : x.begin op = some x') (hu : x'.pc.using = true) :
    ∃ n, x'.node = some n := by
  have hpc := begin_rest hs
  cases op with
  | get =>
    simp only [Local.begin, hpc] at hs
    split at hs <;> cases hs
    cases hu
  | attempt =>
    simp only [Local.begin, hpc] at hs
    split at hs <;> cases hs
    rename_i hn
    exact Option.isSome_iff_exists.1 hn.1
  | fallback =>
    simp only [Local.begin, hpc] at hs
    split at hs <;> cases hs
    rename_i hn
    exact Option.isSome_iff_exists.1 hn
  | drop =>
    simp only [Local.begin, hpc, Option.some.injEq] at hs
    split at hs <;> cases hs
    · rename_i hn
      exact Option.isSome_iff_exists.1 hn
    · cases hu

theorem Local.Counted.step (h : x.Counted w) (hs : Local.Turning w x x') : x'.Counted w := by
  cases hs with
  | keep hg ht =>
    refine ⟨hg ▸ h.aligned, hg ▸ h.bounded, fun gen hgen => ?_⟩
    rcases ht with ht | ht
    · rw [hg]
      exact h.current gen (ht ▸ hgen)
    · cases ht.symm.trans hgen
  | next hg ht =>
    refine ⟨?_, hg ▸ nextGeneration_lt .., fun gen hgen => ?_⟩
    · have ha := h.aligned
      rcases nextGeneration_cases h.aligned h.bounded with hn | hn <;> rw [hg, hn]
      omega
    · cases ht.symm.trans hgen
      rfl
  | reset hx =>
    rw [hx]
    exact Counted.fresh

theorem Local.begin_counted (hs : x.begin op = some x') (h : x.Counted w) : x'.Counted w := by
  have hpc := begin_rest hs
  cases op with
  | get | attempt | fallback =>
    simp only [Local.begin, hpc] at hs
    split at hs <;> cases hs
    exact ⟨h.aligned, h.bounded, fun _ h => by cases h⟩
  | drop =>
    simp only [Local.begin, hpc, Option.some.injEq] at hs
    split at hs <;> cases hs
    · exact ⟨h.aligned, h.bounded, fun _ h => by cases h⟩
    · exact Counted.fresh

theorem Local.begin_unwrapped (hs : x.begin op = some x') :
    x.pc.published = none ∧ x'.pc.discarding = false ∧ x'.pc.published = none := by
  have hpc := begin_rest hs
  cases op with
  | get | attempt | fallback =>
    simp only [Local.begin, hpc] at hs
    split at hs <;> cases hs
    exact ⟨by rw [hpc]; rfl, rfl, rfl⟩
  | drop =>
    simp only [Local.begin, hpc, Option.some.injEq] at hs
    split at hs <;> cases hs <;> exact ⟨by rw [hpc]; rfl, rfl, rfl⟩

theorem Writer.abort_word (hs : y.abort = some y') : y'.word = none := by
  obtain ⟨k, _, rfl⟩ := Writer.abort_pc hs
  rfl

variable [DecidableEq Node]

theorem Local.Rolled.step (h : x.Rolled) (hs : x.step w l i m = some (m', x')) : x'.Rolled := by
  cases hpc : x.pc with
  | rest | assertion =>
    simp only [Local.step, hpc] at hs
    cases hs
  | head | next =>
    simp only [Local.step, hpc, Option.some.injEq] at hs
    cases hs
    exact rolled_visit ..
  | inUse n =>
    simp only [Local.step, hpc, Option.some.injEq] at hs
    cases hs
    exact rolled_of_getting (by simp only [goto]; split <;> rfl)
  | writers n =>
    simp only [Local.step, hpc, Option.some.injEq] at hs
    cases hs
    exact rolled_of_getting (by simp only [goto]; split <;> rfl)
  | exchange | loadHead | link =>
    simp only [Local.step, hpc, Option.some.injEq] at hs
    cases hs
    exact rolled_of_getting rfl
  | claim | alloc | prepend =>
    simp only [Local.step, hpc] at hs
    split at hs <;> cases hs <;> exact trivial
  | scan p k =>
    simp only [Local.step, hpc, Option.map_eq_some_iff] at hs
    obtain ⟨n, _, hs⟩ := hs
    cases hs
    by_cases h8 : k = 8
    · simp only [Rolled, goto, h8, if_true]
    · by_cases hd : m.debt (fastSlot n (k + x.offset)) = debtNone <;>
        simp only [Rolled, goto, h8, hd, if_true, if_false]
  | take | setIdle =>
    simp only [Local.step, hpc, Option.map_eq_some_iff] at hs
    obtain ⟨n, _, hs⟩ := hs
    cases hs
    exact trivial
  | confirm d p =>
    simp only [Local.step, hpc, Option.some.injEq] at hs
    split at hs <;> cases hs <;> exact trivial
  | settle | wrongControl | panic =>
    simp only [Local.step, hpc, Option.some.injEq] at hs
    cases hs
    exact trivial
  | setAddr S =>
    simp only [Local.step, hpc, Option.map_eq_some_iff] at hs
    obtain ⟨n, _, hs⟩ := hs
    cases hs
    simp only [Rolled, getDebt, decide_eq_true_eq]
  | setControl gen discard =>
    obtain ⟨n, pc, hn, rfl, _, hpc'⟩ := Local.step_setControl hpc hs
    simp only [Rolled, hpc] at h
    rcases hpc' with ⟨rfl, _⟩ | ⟨_, ⟨rfl, rfl⟩ | ⟨rfl, rfl⟩⟩
    · exact trivial
    · exact h.1 rfl
    · simpa [Rolled, goto, hn] using h
  | reserve why =>
    simp only [Local.step, hpc, Option.map_eq_some_iff] at hs
    obtain ⟨n, _, hs⟩ := hs
    cases hs
    cases why with
    | drop => exact trivial
    | discard gen => simpa only [Rolled, goto, hpc] using h
  | cooldown why since =>
    simp only [Local.step, hpc, Option.map_eq_some_iff] at hs
    obtain ⟨n, _, hs⟩ := hs
    cases hs
    by_cases hn : m.inUse n = nodeUsed
    · cases why with
      | drop => simp only [Rolled, goto, hn, if_true]
      | discard gen => simpa only [Rolled, goto, hn, if_true, hpc] using h
    · simp only [Rolled, goto, hn, if_false]
  | release why since =>
    simp only [Local.step, hpc, Option.map_eq_some_iff] at hs
    obtain ⟨n, _, hs⟩ := hs
    cases why with
    | drop =>
      cases hs
      exact trivial
    | discard gen =>
      cases hs
      simp only [Rolled, hpc] at h
      simp only [Rolled, h]
  | candidate gen =>
    simp only [Local.step, hpc] at hs
    split at hs <;> cases hs
    simpa only [Rolled, goto, hpc] using h
  | setSlot gen p =>
    simp only [Rolled, hpc] at h
    cases hn : x.node with
    | some n =>
      simp only [Local.step, hpc, hn, Option.some.injEq] at hs
      cases hs
      intro h0
      cases hn.symm.trans (h.2 h0)
    | none =>
      simp only [Local.step, hpc, hn, Option.some.injEq] at hs
      cases hs
      exact ⟨hn, h.1 hn⟩

theorem Local.step_using (hs : x.step w l i m = some (m', x')) (hu : x'.pc.using = true) :
    ∃ n, x'.node = some n := by
  cases hpc : x.pc with
  | rest | assertion =>
    simp only [Local.step, hpc] at hs
    cases hs
  | head | next =>
    simp only [Local.step, hpc, Option.some.injEq] at hs
    cases hs
    simp only [visit] at hu
    split at hu <;> cases hu
  | inUse | writers =>
    simp only [Local.step, hpc, Option.some.injEq] at hs
    cases hs
    simp only [goto] at hu
    split at hu <;> cases hu
  | exchange | loadHead | link | settle | wrongControl | panic =>
    simp only [Local.step, hpc, Option.some.injEq] at hs
    cases hs
    cases hu
  | claim | alloc | prepend | candidate =>
    simp only [Local.step, hpc] at hs
    split at hs <;> cases hs <;> cases hu
  | confirm =>
    simp only [Local.step, hpc, Option.some.injEq] at hs
    split at hs <;> cases hs <;> cases hu
  | scan | take | setAddr | reserve | cooldown | setIdle =>
    simp only [Local.step, hpc, Option.map_eq_some_iff] at hs
    obtain ⟨n, hn, hs⟩ := hs
    cases hs
    exact ⟨n, hn⟩
  | setControl gen discard =>
    obtain ⟨n, pc, hn, rfl, _, _⟩ := Local.step_setControl hpc hs
    exact ⟨n, hn⟩
  | release why =>
    simp only [Local.step, hpc, Option.map_eq_some_iff] at hs
    obtain ⟨n, _, hs⟩ := hs
    cases why <;> cases hs <;> cases hu
  | setSlot gen p =>
    cases hn : x.node with
    | some n =>
      simp only [Local.step, hpc, hn, Option.some.injEq] at hs
      cases hs
      exact ⟨n, hn⟩
    | none =>
      simp only [Local.step, hpc, hn, Option.some.injEq] at hs
      cases hs
      cases hu

theorem Local.step_turning (hs : x.step w l i m = some (m', x')) : Local.Turning w x x' := by
  cases hpc : x.pc with
  | rest | assertion =>
    simp only [Local.step, hpc] at hs
    cases hs
  | head | next =>
    simp only [Local.step, hpc, Option.some.injEq] at hs
    cases hs
    exact .out (transaction_visit ..).2 (transaction_visit ..).1
  | inUse n =>
    simp only [Local.step, hpc, Option.some.injEq] at hs
    cases hs
    exact .out rfl (LocalPc.transaction_of_getting (by simp only [goto]; split <;> rfl))
  | writers n =>
    simp only [Local.step, hpc, Option.some.injEq] at hs
    cases hs
    exact .out rfl (LocalPc.transaction_of_getting (by simp only [goto]; split <;> rfl))
  | exchange | loadHead | link | settle | wrongControl | panic =>
    simp only [Local.step, hpc, Option.some.injEq] at hs
    cases hs
    exact .out rfl rfl
  | claim | alloc | prepend =>
    simp only [Local.step, hpc] at hs
    split at hs <;> cases hs <;> exact .out rfl rfl
  | scan p k =>
    simp only [Local.step, hpc, Option.map_eq_some_iff] at hs
    obtain ⟨n, _, hs⟩ := hs
    cases hs
    refine .out rfl ?_
    by_cases h8 : k = 8
    · simp only [goto, h8, if_true, LocalPc.transaction]
    · by_cases hd : m.debt (fastSlot n (k + x.offset)) = debtNone <;>
        simp only [goto, h8, hd, if_true, if_false, LocalPc.transaction]
  | take =>
    simp only [Local.step, hpc, Option.map_eq_some_iff] at hs
    obtain ⟨n, _, hs⟩ := hs
    cases hs
    exact .out rfl rfl
  | setIdle =>
    simp only [Local.step, hpc, Option.map_eq_some_iff] at hs
    obtain ⟨n, _, hs⟩ := hs
    cases hs
    exact .out rfl rfl
  | confirm d p =>
    simp only [Local.step, hpc, Option.some.injEq] at hs
    split at hs <;> cases hs <;> exact .out rfl rfl
  | setAddr S =>
    simp only [Local.step, hpc, Option.map_eq_some_iff] at hs
    obtain ⟨n, _, hs⟩ := hs
    cases hs
    exact .next rfl rfl
  | setControl gen discard =>
    obtain ⟨n, pc, _, rfl, _, hpc'⟩ := Local.step_setControl hpc hs
    rcases hpc' with ⟨rfl, _⟩ | ⟨_, ⟨_, rfl⟩ | ⟨_, rfl⟩⟩
    · exact .out rfl rfl
    · exact .keep rfl (.inl (by rw [hpc]; rfl))
    · exact .keep rfl (.inl (by rw [hpc]; rfl))
  | reserve why =>
    simp only [Local.step, hpc, Option.map_eq_some_iff] at hs
    obtain ⟨n, _, hs⟩ := hs
    cases hs
    cases why <;> exact .keep rfl (.inl (by rw [hpc]; rfl))
  | cooldown why since =>
    simp only [Local.step, hpc, Option.map_eq_some_iff] at hs
    obtain ⟨n, _, hs⟩ := hs
    cases hs
    by_cases hn : m.inUse n = nodeUsed
    · refine .keep rfl (.inl ?_)
      cases why <;> simp only [goto, hn, if_true, hpc, LocalPc.transaction]
    · refine .out rfl ?_
      simp only [goto, hn, if_false, LocalPc.transaction]
  | release why since =>
    simp only [Local.step, hpc, Option.map_eq_some_iff] at hs
    obtain ⟨n, _, hs⟩ := hs
    cases why <;> cases hs
    · exact .reset rfl
    · exact .keep rfl (.inl (by rw [hpc]; rfl))
  | candidate gen =>
    simp only [Local.step, hpc] at hs
    split at hs <;> cases hs
    exact .keep rfl (.inl (by rw [hpc]; rfl))
  | setSlot gen p =>
    cases hn : x.node with
    | some n =>
      simp only [Local.step, hpc, hn, Option.some.injEq] at hs
      cases hs
      exact .keep rfl (.inl (by rw [hpc]; rfl))
    | none =>
      simp only [Local.step, hpc, hn, Option.some.injEq] at hs
      cases hs
      exact .out rfl rfl

/-- What a step does to the transaction a thread has published, as long as no generation wraps. -/
inductive Local.Transacting (m m' : Shared Node L Sto) (x x' : Local Node Sto) : Prop
  | keep (hc : m'.control = m.control) (hp : x'.pc.published = x.pc.published)
    (ho : x.pc.published ≠ none → x'.owns = x.owns)
  | alloc (n : Node) (hn : m.allocated n = false)
    (hc : m'.control = Function.update m.control n idle) (hx : x.pc.published = none)
    (hp : x'.pc.published = none)
  | publish (n : Node) (gen : Nat) (hx : x.pc.published = none) (ho : x.owns = some n)
    (ho' : x'.owns = some n) (hc : m'.control = Function.update m.control n gen)
    (hp : x'.pc.published = some gen)
  | clear (n : Node) (ho : x.owns = some n) (hc : m'.control = Function.update m.control n idle)
    (hp : x'.pc.published = none)

theorem Local.Transacting.none (hc : m'.control = m.control) (hx : x.pc.published = none)
    (hp : x'.pc.published = none) : Local.Transacting m m' x x' :=
  .keep hc (hp.trans hx.symm) fun h => absurd hx h

theorem Local.step_unwrapped (hd : x.pc.discarding = false)
    (hheld : x.pc.published ≠ none → x.node ≠ none)
    (hno : ∀ S, x.pc = .setAddr S → (getDebt w x.generation).2.1 = false)
    (hidle : ∀ gen discard n, x.pc = .setControl gen discard → x.node = some n →
      m.control n = idle)
    (hs : x.step w l i m = some (m', x')) :
    x'.pc.discarding = false ∧ Local.Transacting m m' x x' := by
  cases hpc : x.pc with
  | rest | assertion =>
    simp only [Local.step, hpc] at hs
    cases hs
  | head | next =>
    simp only [Local.step, hpc, Option.some.injEq] at hs
    cases hs
    exact ⟨(published_visit ..).2, .none rfl (by rw [hpc]; rfl) (published_visit ..).1⟩
  | inUse n =>
    simp only [Local.step, hpc, Option.some.injEq] at hs
    cases hs
    refine ⟨?_, .none rfl (by rw [hpc]; rfl) ?_⟩ <;> simp only [goto] <;> split <;> rfl
  | writers n =>
    simp only [Local.step, hpc, Option.some.injEq] at hs
    cases hs
    refine ⟨?_, .none rfl (by rw [hpc]; rfl) ?_⟩ <;> simp only [goto] <;> split <;> rfl
  | exchange n epoch =>
    simp only [Local.step, hpc, Option.some.injEq] at hs
    split at hs <;> cases hs <;> exact ⟨rfl, .none rfl (by rw [hpc]; rfl) rfl⟩
  | loadHead | link =>
    simp only [Local.step, hpc, Option.some.injEq] at hs
    cases hs
    exact ⟨rfl, .none rfl (by rw [hpc]; rfl) rfl⟩
  | claim | prepend =>
    simp only [Local.step, hpc] at hs
    split at hs <;> cases hs <;> exact ⟨rfl, .none rfl (by rw [hpc]; rfl) rfl⟩
  | alloc =>
    simp only [Local.step, hpc] at hs
    split at hs
    · cases hs
    · rename_i hfree
      cases hs
      exact ⟨rfl, .alloc i.fresh (by simpa using hfree) rfl (by rw [hpc]; rfl) rfl⟩
  | scan p k =>
    simp only [Local.step, hpc, Option.map_eq_some_iff] at hs
    obtain ⟨n, _, hs⟩ := hs
    cases hs
    refine ⟨?_, .none rfl (by rw [hpc]; rfl) ?_⟩ <;> simp only [goto] <;> split_ifs <;> rfl
  | take =>
    simp only [Local.step, hpc, Option.map_eq_some_iff] at hs
    obtain ⟨n, _, hs⟩ := hs
    cases hs
    exact ⟨rfl, .none rfl (by rw [hpc]; rfl) rfl⟩
  | confirm d p =>
    simp only [Local.step, hpc, Option.some.injEq] at hs
    split at hs <;> cases hs <;> exact ⟨rfl, .none rfl (by rw [hpc]; rfl) rfl⟩
  | settle d p =>
    simp only [Local.step, hpc, Option.some.injEq] at hs
    cases hs
    refine ⟨rfl, .none ?_ (by rw [hpc]; rfl) rfl⟩
    simp only [Shared.settle]
    split <;> rfl
  | setAddr S =>
    simp only [Local.step, hpc, Option.map_eq_some_iff] at hs
    obtain ⟨n, _, hs⟩ := hs
    cases hs
    rw [hno S hpc]
    exact ⟨rfl, .none rfl (by rw [hpc]; rfl) rfl⟩
  | setControl gen discard =>
    obtain ⟨n, pc, hn, rfl, rfl, hpc'⟩ := Local.step_setControl hpc hs
    rcases hpc' with ⟨_, _, hc⟩ | ⟨_, ⟨rfl, _⟩ | ⟨_, rfl⟩⟩
    · exact absurd (hidle gen discard n hpc hn) hc
    · rw [hpc] at hd
      cases hd
    · have ho : x.owns = some n := by simpa only [owns, hpc] using hn
      exact ⟨rfl, .publish n gen (by rw [hpc]; rfl) ho hn rfl rfl⟩
  | reserve why =>
    simp only [Local.step, hpc, Option.map_eq_some_iff] at hs
    obtain ⟨n, _, hs⟩ := hs
    cases hs
    cases why with
    | drop => exact ⟨rfl, .none rfl (by rw [hpc]; rfl) rfl⟩
    | discard gen =>
      rw [hpc] at hd
      cases hd
  | cooldown why since =>
    simp only [Local.step, hpc, Option.map_eq_some_iff] at hs
    obtain ⟨n, _, hs⟩ := hs
    cases hs
    cases why with
    | drop =>
      refine ⟨?_, .none rfl (by rw [hpc]; rfl) ?_⟩ <;> simp only [goto] <;> split <;> rfl
    | discard gen =>
      rw [hpc] at hd
      cases hd
  | release why since =>
    simp only [Local.step, hpc, Option.map_eq_some_iff] at hs
    obtain ⟨n, _, hs⟩ := hs
    cases why with
    | drop =>
      cases hs
      exact ⟨rfl, .none rfl (by rw [hpc]; rfl) rfl⟩
    | discard gen =>
      rw [hpc] at hd
      cases hd
  | candidate gen =>
    simp only [Local.step, hpc] at hs
    split at hs <;> cases hs
    exact ⟨rfl, .keep rfl (by rw [hpc]; rfl) fun _ => by simp only [owns, goto, hpc]⟩
  | setSlot gen p =>
    cases hn : x.node with
    | some n =>
      simp only [Local.step, hpc, hn, Option.some.injEq] at hs
      cases hs
      exact ⟨rfl, .keep rfl (by rw [hpc]; rfl) fun _ => by simp only [owns, goto, hpc]⟩
    | none => exact absurd hn (hheld (by rw [hpc]; intro h; cases h))
  | setIdle gen p =>
    simp only [Local.step, hpc, Option.map_eq_some_iff] at hs
    obtain ⟨n, hn, hs⟩ := hs
    cases hs
    exact ⟨rfl, .clear n (by simpa only [owns, hpc] using hn) rfl rfl⟩
  | wrongControl | panic =>
    rw [hpc] at hd
    cases hd

theorem locals_invariant {width : Nat} [DecidableEq L] [DecidableEq W] [DecidableEq Sto]
    {ok : Action Node L W Sto → State Node L W Sto → Prop} {P : Local Node Sto → Prop}
    (hr : (registry width Node L W Sto).Reach ok σ) (hinit : P .fresh)
    (hbegin : ∀ x op x', P x → x.begin op = some x' → P x')
    (hstep : ∀ (l : L) i m x m' x', P x → x.step width l i m = some (m', x') → P x') (l : L) :
    P (σ.locals l) := by
  refine hr.invariant (P := fun σ => ∀ l, P (σ.locals l)) ?_ ?_ l
  · rintro σ rfl l
    exact hinit
  intro a σ σ' h _ hs l
  have update : ∀ k x', P x' → P (Function.update σ.locals k x' l) := by
    intro k x' hx'
    by_cases hk : l = k
    · subst hk
      rwa [Function.update_self]
    · rw [Function.update_of_ne hk]
      exact h l
  cases a with
  | begin k op =>
    simp only [registry, State.step, Option.map_eq_some_iff] at hs
    obtain ⟨x', hx', rfl⟩ := hs
    exact update k x' (hbegin _ _ _ (h k) hx')
  | run k i =>
    simp only [registry, State.step, Option.map_eq_some_iff] at hs
    obtain ⟨⟨m', x'⟩, hx', rfl⟩ := hs
    exact update k x' (hstep _ _ _ _ _ _ (h k) hx')
  | payAll | walk | abort =>
    simp only [registry, State.step, Option.map_eq_some_iff] at hs
    obtain ⟨_, _, rfl⟩ := hs
    exact h l
  | dropGuard d ptr =>
    simp only [registry, State.step] at hs
    split at hs <;> cases hs
    exact h l

theorem Local.fallback_enabled (hf : 0 < x.pc.fallbackRank) (hi : i.word ≠ debtNone)
    (hnode : x.pc.using = true → ∃ n, x.node = some n) :
    ∃ r, x.step w l i m = some r := by
  cases hpc : x.pc with
  | setAddr | setControl | reserve | cooldown | release | setIdle =>
    obtain ⟨n, hn⟩ := hnode (by rw [hpc]; rfl)
    simp only [Local.step, hpc, hn, Option.map_some]
    exact ⟨_, rfl⟩
  | candidate =>
    simp only [Local.step, hpc, if_neg hi]
    exact ⟨_, rfl⟩
  | setSlot =>
    simp only [Local.step, hpc]
    exact ⟨_, rfl⟩
  | _ =>
    rw [hpc] at hf
    cases hf

/-- `get_debt` finds a word that is not `IDLE` although it checks for that. -/
def Local.Misled (i : Input Node) (m : Shared Node L Sto) (x : Local Node Sto) : Prop :=
  i.flag = true ∧ ∃ gen discard n, x.pc = .setControl gen discard ∧ x.node = some n ∧
    m.control n ≠ idle

/-- Where a fallback is after a step: nearer to its end, or at it. -/
theorem Local.fallback_step (hf : 0 < x.pc.fallbackRank) (hr : x.Rolled)
    (hu : ∀ n, x.owns = some n → m.inUse n = nodeUsed) (hs : x.step w l i m = some (m', x')) :
    x'.pc.fallbackRank < x.pc.fallbackRank ∧ (0 < x'.pc.fallbackRank ∨
      x.Misled i m ∧ x'.pc = .wrongControl ∨
      x.generation = 0 ∧ x'.generation = 0 ∧ x'.pc = .panic ∨
      x'.generation = x.generation ∧ ∃ gen n p, x.pc = .setIdle gen p ∧ x'.node = some n ∧
        x'.pc = .settle (helpingSlot n) p) := by
  cases hpc : x.pc with
  | setAddr S =>
    simp only [Local.step, hpc, Option.map_eq_some_iff] at hs
    obtain ⟨n, _, hs⟩ := hs
    cases hs
    exact ⟨Nat.lt_add_one 7, .inl (Nat.succ_pos 6)⟩
  | setControl gen discard =>
    obtain ⟨n, pc, hn, rfl, _, hpc'⟩ := Local.step_setControl hpc hs
    rcases hpc' with ⟨rfl, hc⟩ | ⟨_, ⟨_, rfl⟩ | ⟨_, rfl⟩⟩
    · exact ⟨Nat.succ_pos 6, .inr (.inl ⟨⟨hc.1, gen, discard, n, hpc, hn, hc.2⟩, rfl⟩)⟩
    · exact ⟨(by decide : 6 < 7), .inl (Nat.succ_pos 5)⟩
    · exact ⟨(by decide : 3 < 7), .inl (Nat.succ_pos 2)⟩
  | reserve why =>
    simp only [Local.step, hpc, Option.map_eq_some_iff] at hs
    obtain ⟨n, _, hs⟩ := hs
    cases hs
    cases why with
    | drop =>
      rw [hpc] at hf
      cases hf
    | discard gen => exact ⟨Nat.lt_add_one 5, .inl (Nat.succ_pos 4)⟩
  | cooldown why since =>
    simp only [Local.step, hpc, Option.map_eq_some_iff] at hs
    obtain ⟨n, hn, hs⟩ := hs
    rw [if_pos (hu n (by simpa only [owns, hpc] using hn))] at hs
    cases hs
    cases why with
    | drop =>
      rw [hpc] at hf
      cases hf
    | discard gen => exact ⟨Nat.lt_add_one 4, .inl (Nat.succ_pos 3)⟩
  | release why since =>
    simp only [Local.step, hpc, Option.map_eq_some_iff] at hs
    obtain ⟨n, _, hs⟩ := hs
    cases why with
    | drop =>
      rw [hpc] at hf
      cases hf
    | discard gen =>
      cases hs
      exact ⟨Nat.lt_add_one 3, .inl (Nat.succ_pos 2)⟩
  | candidate gen =>
    simp only [Local.step, hpc] at hs
    split at hs <;> cases hs
    exact ⟨Nat.lt_add_one 2, .inl (Nat.succ_pos 1)⟩
  | setSlot gen p =>
    simp only [Rolled, hpc] at hr
    cases hn : x.node with
    | some n =>
      simp only [Local.step, hpc, hn, Option.some.injEq] at hs
      cases hs
      exact ⟨Nat.lt_add_one 1, .inl Nat.one_pos⟩
    | none =>
      simp only [Local.step, hpc, hn, Option.some.injEq] at hs
      cases hs
      exact ⟨Nat.succ_pos 1, .inr (.inr (.inl ⟨hr.1 hn, hr.1 hn, rfl⟩))⟩
  | setIdle gen p =>
    simp only [Local.step, hpc, Option.map_eq_some_iff] at hs
    obtain ⟨n, hn, hs⟩ := hs
    cases hs
    exact ⟨Nat.one_pos, .inr (.inr (.inr ⟨rfl, gen, n, p, rfl, hn, rfl⟩))⟩
  | _ =>
    rw [hpc] at hf
    cases hf

theorem Local.step_wrongControl (hf : 0 < x.pc.fallbackRank)
    (hs : x.step w l i m = some (m', x')) : x'.pc = .wrongControl ↔ x.Misled i m := by
  constructor
  · intro hx
    cases hpc : x.pc with
    | setControl gen discard =>
      obtain ⟨n, pc, hn, rfl, _, hpc'⟩ := Local.step_setControl hpc hs
      rcases hpc' with ⟨_, hc⟩ | ⟨_, ⟨_, rfl⟩ | ⟨_, rfl⟩⟩
      · exact ⟨hc.1, gen, discard, n, hpc, hn, hc.2⟩
      · cases hx
      · cases hx
    | setAddr | reserve | setIdle =>
      simp only [Local.step, hpc, Option.map_eq_some_iff] at hs
      obtain ⟨n, _, hs⟩ := hs
      cases hs
      cases hx
    | cooldown why since =>
      simp only [Local.step, hpc, Option.map_eq_some_iff] at hs
      obtain ⟨n, _, hs⟩ := hs
      cases hs
      simp only [goto] at hx
      split at hx <;> cases hx
    | release why since =>
      simp only [Local.step, hpc, Option.map_eq_some_iff] at hs
      obtain ⟨n, _, hs⟩ := hs
      cases why <;> cases hs <;> cases hx
    | candidate gen =>
      simp only [Local.step, hpc] at hs
      split at hs <;> cases hs
      cases hx
    | setSlot gen p =>
      cases hn : x.node <;> simp only [Local.step, hpc, hn, Option.some.injEq] at hs <;> cases hs <;>
        cases hx
    | _ =>
      rw [hpc] at hf
      cases hf
  · rintro ⟨hflag, gen, discard, n, hpc, hn, hc⟩
    obtain ⟨k, pc, hk, rfl, _, hpc'⟩ := Local.step_setControl hpc hs
    cases hn.symm.trans hk
    rcases hpc' with ⟨rfl, _⟩ | ⟨hno, _⟩
    · rfl
    · exact absurd ⟨hflag, hc⟩ hno

theorem Local.step_setSlot (hpc : x.pc = .setSlot gen p) (hn : x.node = some n)
    (hs : x.step w l i m = some (m', x')) :
    m'.debt (helpingSlot n) = p ∧ x'.pc = .setIdle gen p ∧ x'.node = some n := by
  simp only [Local.step, hpc, hn, Option.some.injEq] at hs
  cases hs
  exact ⟨Function.update_self .., rfl, hn⟩

variable [DecidableEq L]

theorem State.Confirmed.setLocal (h : σ.Confirmed) (hO : σ.Owned)
    (hd : x'.pc.discarding = false)
    (ht : Local.Transacting σ.shared m' (σ.locals l) x') : (σ.setLocal l (m', x')).Confirmed := by
  have hself : ∀ k, k ≠ l → (Function.update σ.locals l x') k = σ.locals k :=
    fun k hk => Function.update_of_ne hk ..
  have hl : (Function.update σ.locals l x') l = x' := Function.update_self ..
  -- a step changes the control of the node its thread owns, which is no other thread's
  have hothers : ∀ k n, k ≠ l → (σ.locals k).owns = some n →
      m'.control n = σ.shared.control n := by
    intro k n hk ho
    have hne : (σ.locals l).owns ≠ some n := by
      intro hown
      have he := ((hO.owner k n).1 ho).symm.trans ((hO.owner l n).1 hown)
      exact hk (Option.some.inj he)
    have halloc : σ.shared.allocated n ≠ false := by
      intro hn
      have ht := (hO.owner k n).1 ho
      rw [hO.fresh n hn] at ht
      cases ht
    cases ht with
    | keep hc _ _ => rw [hc]
    | alloc j hn hc _ _ =>
      rw [hc, Function.update_of_ne]
      rintro rfl
      exact halloc hn
    | publish j gen _ ho' _ hc _ =>
      rw [hc, Function.update_of_ne]
      rintro rfl
      exact hne ho'
    | clear j ho' hc _ =>
      rw [hc, Function.update_of_ne]
      rintro rfl
      exact hne ho'
  refine ⟨fun k => ?_, fun k gen hp => ?_, fun n hn => ?_, fun k n gen ho hp => ?_⟩
  · by_cases hk : k = l
    · subst hk
      simpa only [State.setLocal, hl] using hd
    · simpa only [State.setLocal, hself k hk] using h.kept k
  · by_cases hk : k = l
    · subst hk
      simp only [State.setLocal, hl] at hp ⊢
      cases ht with
      | keep _ hp' ho =>
        rw [hp'] at hp
        rw [ho (by rw [hp]; intro h; cases h)]
        exact h.held k gen hp
      | alloc _ _ _ _ hp' => cases hp'.symm.trans hp
      | publish n _ _ _ ho' _ _ => exact ⟨n, ho'⟩
      | clear _ _ _ hp' => cases hp'.symm.trans hp
    · simp only [State.setLocal, hself k hk] at hp ⊢
      exact h.held k gen hp
  · change m'.control n ≠ idle at hn
    have hsame : m'.control n = σ.shared.control n → (∀ gen, (σ.locals l).owns = some n →
        (σ.locals l).pc.published = some gen → x'.owns = some n ∧ x'.pc.published = some gen) →
        ∃ k gen, (Function.update σ.locals l x' k).owns = some n ∧
          (Function.update σ.locals l x' k).pc.published = some gen ∧
          (m'.control n = gen ∨ tagOf (m'.control n) = replacementTag) := by
      intro he hx
      rw [he] at hn ⊢
      obtain ⟨k, gen, ho, hp, hc⟩ := h.current n hn
      refine ⟨k, gen, ?_⟩
      by_cases hk : k = l
      · subst hk
        rw [hl]
        obtain ⟨ho', hp'⟩ := hx gen ho hp
        exact ⟨ho', hp', hc⟩
      · rw [hself k hk]
        exact ⟨ho, hp, hc⟩
    cases ht with
    | keep hc hp ho =>
      refine hsame (congrFun hc n) fun gen hown hpub => ?_
      exact ⟨(ho (by rw [hpub]; intro h; cases h)).trans hown, hp.trans hpub⟩
    | alloc j _ hc hx _ =>
      by_cases hj : n = j
      · subst hj
        exact absurd (by rw [hc, Function.update_self]) hn
      · refine hsame (by rw [hc, Function.update_of_ne hj]) fun gen _ hpub => ?_
        cases hx.symm.trans hpub
    | publish j gen hx ho ho' hc hp =>
      by_cases hj : n = j
      · subst hj
        refine ⟨l, gen, ?_⟩
        simp only [State.setLocal, hl]
        exact ⟨ho', hp, .inl (by rw [hc, Function.update_self])⟩
      · refine hsame (by rw [hc, Function.update_of_ne hj]) fun gen _ hpub => ?_
        cases hx.symm.trans hpub
    | clear j ho hc hp =>
      by_cases hj : n = j
      · subst hj
        exact absurd (by rw [hc, Function.update_self]) hn
      · refine hsame (by rw [hc, Function.update_of_ne hj]) fun gen hown _ => ?_
        exact absurd (Option.some.inj (hown.symm.trans ho)) hj
  · change m'.control n = gen ∨ tagOf (m'.control n) = replacementTag
    by_cases hk : k = l
    · subst hk
      simp only [State.setLocal, hl] at ho hp
      cases ht with
      | keep hc hp' ho' =>
        rw [hp'] at hp
        rw [ho' (by rw [hp]; intro h; cases h)] at ho
        rw [hc]
        exact h.transacting k n gen ho hp
      | alloc _ _ _ _ hp' => cases hp'.symm.trans hp
      | publish j gen' _ _ ho' hc hp' =>
        cases ho'.symm.trans ho
        cases hp'.symm.trans hp
        exact .inl (by rw [hc, Function.update_self])
      | clear _ _ _ hp' => cases hp'.symm.trans hp
    · simp only [State.setLocal, hself k hk] at ho hp
      rw [hothers k n hk ho]
      exact h.transacting k n gen ho hp

variable [DecidableEq W] [DecidableEq Sto]

theorem Local.Counted.reach {ok : Action Node L W Sto → State Node L W Sto → Prop}
    (hr : (registry width Node L W Sto).Reach ok σ) (l : L) : (σ.locals l).Counted width :=
  locals_invariant hr Counted.fresh (fun _ _ _ h hs => begin_counted hs h)
    (fun _ _ _ _ _ _ h hs => h.step (step_turning hs)) l

theorem Local.Rolled.reach {ok : Action Node L W Sto → State Node L W Sto → Prop}
    (hr : (registry width Node L W Sto).Reach ok σ) (l : L) : (σ.locals l).Rolled :=
  locals_invariant hr trivial (fun _ _ _ _ hs => Rolled.begin hs)
    (fun _ _ _ _ _ _ h hs => h.step hs) l

theorem Local.node_of_using {ok : Action Node L W Sto → State Node L W Sto → Prop}
    (hr : (registry width Node L W Sto).Reach ok σ) (l : L) (hu : (σ.locals l).pc.using = true) :
    ∃ n, (σ.locals l).node = some n :=
  locals_invariant hr (P := fun x => x.pc.using = true → ∃ n, x.node = some n) (by intro h; cases h)
    (fun _ _ _ _ hs => begin_using hs) (fun _ _ _ _ _ _ _ hs => step_using hs) l hu

theorem word_tagged {ok : Action Node L W Sto → State Node L W Sto → Prop}
    (hr : (registry width Node L W Sto).Reach ok σ) (hw : (σ.writers w).word = some (n, c)) :
    tagOf c = genTag := by
  refine hr.invariant
    (P := fun σ => ∀ w n c, (σ.writers w).word = some (n, c) → tagOf c = genTag) ?_ ?_ w n c hw
  · rintro σ rfl w n c h
    cases h
  intro a σ σ' h _ hs w n c hw
  cases a with
  | begin | run =>
    simp only [registry, State.step, Option.map_eq_some_iff] at hs
    obtain ⟨_, _, rfl⟩ := hs
    exact h w n c hw
  | payAll v S ptr =>
    simp only [registry, State.step, Option.map_eq_some_iff] at hs
    obtain ⟨y', hy', rfl⟩ := hs
    by_cases hv : w = v
    · subst hv
      simp only [State.setWriter, Function.update_self] at hw
      rw [Writer.begin_word hy'] at hw
      cases hw
    · simp only [State.setWriter, Function.update_of_ne hv] at hw
      exact h w n c hw
  | walk v i =>
    simp only [registry, State.step, Option.map_eq_some_iff] at hs
    obtain ⟨⟨m', y'⟩, hy', rfl⟩ := hs
    by_cases hv : w = v
    · subst hv
      simp only [State.setWriter, Function.update_self] at hw
      rcases Writer.step_word hy' hw with ⟨hw, _⟩ | ⟨_, ht, _⟩
      · exact h w n c hw
      · exact ht
    · simp only [State.setWriter, Function.update_of_ne hv] at hw
      exact h w n c hw
  | abort v =>
    simp only [registry, State.step, Option.map_eq_some_iff] at hs
    obtain ⟨y', hy', rfl⟩ := hs
    by_cases hv : w = v
    · subst hv
      simp only [State.setWriter, Function.update_self] at hw
      rw [Writer.abort_word hy'] at hw
      cases hw
    · simp only [State.setWriter, Function.update_of_ne hv] at hw
      exact h w n c hw
  | dropGuard d ptr =>
    simp only [registry, State.step] at hs
    split at hs <;> cases hs
    exact h w n c hw

section
omit [DecidableEq L]

theorem State.Confirmed.setWriter (h : σ.Confirmed)
    (hword : ∀ n c, (σ.writers w).word = some (n, c) → tagOf c = genTag)
    (hs : (σ.writers w).step i σ.shared = some (m', y')) : (σ.setWriter w (m', y')).Confirmed := by
  obtain ⟨_, hc | ⟨n, a, hpc, htag, hc, _⟩⟩ := Writer.step_control hs
  · refine ⟨h.kept, h.held, ?_, ?_⟩ <;> simp only [State.setWriter, hc]
    · exact h.current
    · exact h.transacting
  · have hne : σ.shared.control n ≠ idle :=
      genTag_ne_idle (hword n _ (by simp only [Writer.word, hpc]))
    refine ⟨h.kept, h.held, fun k hk => ?_, fun l k gen ho hp => ?_⟩
    · simp only [State.setWriter, hc] at hk ⊢
      by_cases hkn : k = n
      · subst hkn
        obtain ⟨l, gen, ho, hp, _⟩ := h.current k hne
        refine ⟨l, gen, ho, hp, .inr ?_⟩
        rw [Function.update_self]
        exact htag
      · rw [Function.update_of_ne hkn] at hk ⊢
        exact h.current k hk
    · simp only [State.setWriter, hc]
      by_cases hkn : k = n
      · subst hkn
        rw [Function.update_self]
        exact .inr htag
      · rw [Function.update_of_ne hkn]
        exact h.transacting l k gen ho hp

end

theorem State.Confirmed.step (h : σ.Confirmed) (hO : σ.Owned)
    (hword : ∀ w n c, (σ.writers w).word = some (n, c) → tagOf c = genTag)
    (hok : noWrap width a σ = true) (hs : σ.step width a = some σ') : σ'.Confirmed := by
  cases a with
  | begin l op =>
    simp only [State.step, Option.map_eq_some_iff] at hs
    obtain ⟨x', hx', rfl⟩ := hs
    obtain ⟨hp, hd, hp'⟩ := Local.begin_unwrapped hx'
    exact h.setLocal hO hd (.none rfl hp hp')
  | run l i =>
    simp only [State.step, Option.map_eq_some_iff] at hs
    obtain ⟨⟨m', x'⟩, hx', rfl⟩ := hs
    have hnode : (σ.locals l).pc.published ≠ none → (σ.locals l).node ≠ none := by
      intro hp hnone
      obtain ⟨gen, hp⟩ := Option.ne_none_iff_exists'.1 hp
      obtain ⟨n, ho⟩ := h.held l gen hp
      cases hnone.symm.trans (Local.node_of_published hp ho)
    have hno : ∀ S, (σ.locals l).pc = .setAddr S →
        (getDebt width (σ.locals l).generation).2.1 = false := by
      intro S hpc
      simpa only [noWrap, hpc, Bool.not_eq_true'] using hok
    obtain ⟨hd, ht⟩ := Local.step_unwrapped (h.kept l) hnode hno
      (fun _ _ _ hpc hn => h.finds_idle hO hpc hn) hx'
    exact h.setLocal hO hd ht
  | payAll w S ptr =>
    simp only [State.step, Option.map_eq_some_iff] at hs
    obtain ⟨y', _, rfl⟩ := hs
    exact ⟨h.kept, h.held, h.current, h.transacting⟩
  | walk w i =>
    simp only [State.step, Option.map_eq_some_iff] at hs
    obtain ⟨⟨m', y'⟩, hy', rfl⟩ := hs
    exact h.setWriter (hword w) hy'
  | abort w =>
    simp only [State.step, Option.map_eq_some_iff] at hs
    obtain ⟨y', _, rfl⟩ := hs
    exact ⟨h.kept, h.held, h.current, h.transacting⟩
  | dropGuard d ptr =>
    simp only [State.step] at hs
    split at hs <;> cases hs
    simp only [Shared.settle]
    split <;> exact ⟨h.kept, h.held, h.current, h.transacting⟩

theorem State.Confirmed.reach
    (hr : (registry width Node L W Sto).Reach (fun a σ => noWrap width a σ = true) σ) :
    σ.Confirmed := by
  refine hr.invariant_of (Q := fun σ => σ.Owned ∧
      ∀ w n c, (σ.writers w).word = some (n, c) → tagOf c = genTag)
    (fun _ h => ⟨State.Owned.reach h, fun _ _ _ hw => word_tagged h hw⟩) ?_
    fun _ _ _ hQ h hok hs => h.step hQ.1 hQ.2 hok hs
  rintro σ rfl
  refine ⟨fun _ => rfl, fun l gen hp => ?_, fun n hn => absurd rfl hn, fun l n gen _ hp => ?_⟩
  · cases hp
  · cases hp

variable [Fintype L]

/-- Every step of a fallback is possible and brings it nearer to its end. Having written its debt to
the helping slot it ends with the debt there or paid, or it panics: in `get_debt` if that checks the
control word and finds it not idle, and in `confirm_helping` if the generation has wrapped with this
load. -/
theorem fallback_ends {ok : Action Node L W Sto → State Node L W Sto → Prop}
    (hr : (registry width Node L W Sto).Reach ok σ) (l : L) (i : Input Node)
    (hf : 0 < (σ.locals l).pc.fallbackRank) (hi : i.word ≠ debtNone) :
    ∃ m' x', (σ.locals l).step width l i σ.shared = some (m', x') ∧
      x'.pc.fallbackRank < (σ.locals l).pc.fallbackRank ∧
      (x'.pc = .wrongControl ↔ (σ.locals l).Misled i σ.shared) ∧
      (∀ gen p n, (σ.locals l).pc = .setSlot gen p → (σ.locals l).node = some n →
        m'.debt (helpingSlot n) = p ∧ x'.pc = .setIdle gen p ∧ x'.node = some n) ∧
      (x'.pc.fallbackRank = 0 → x'.pc ≠ .wrongControl →
        if x'.generation = 0 then x'.pc = .panic
        else ∃ gen n p, (σ.locals l).pc = .setIdle gen p ∧ x'.node = some n ∧
          x'.pc = .settle (helpingSlot n) p ∧ (m'.debt (helpingSlot n) = p ∨
            m'.consumed (helpingSlot n) p < m'.paid (helpingSlot n) p)) := by
  obtain ⟨⟨m', x'⟩, hs⟩ := Local.fallback_enabled hf hi (Local.node_of_using hr l)
    (w := width) (l := l) (m := σ.shared)
  have hroll := Local.Rolled.reach hr l
  have hO := State.Owned.reach hr
  obtain ⟨hlt, hend⟩ := Local.fallback_step hf hroll (hO.inUse l) hs
  refine ⟨m', x', hs, hlt, Local.step_wrongControl hf hs,
    fun gen p n hpc hn => Local.step_setSlot hpc hn hs, fun h0 hw => ?_⟩
  rcases hend with hpos | ⟨_, hpanic⟩ | ⟨_, hg, hp⟩ | ⟨hg, gen, n, p, hpc, hn, hp⟩
  · exact absurd hpos (by rw [h0]; exact Nat.lt_irrefl 0)
  · exact absurd hpanic hw
  · rw [if_pos hg]
    exact hp
  · have hne : x'.generation ≠ 0 := by
      simp only [Local.Rolled, hpc] at hroll
      rw [hg]
      exact hroll
    rw [if_neg hne]
    refine ⟨gen, n, p, hpc, hn, hp, ?_⟩
    have hS := (State.Settled.reach hr).run (State.Listed.reach hr) hO hs
    have hrec : 0 < (σ.setLocal l (m', x')).recorded (helpingSlot n) p := by
      apply State.recorded_pos (l := l)
      simp [State.setLocal, Local.unresolved, hp]
    exact (hS.paid_or_owed hrec).2

def secondLoad : List (Action Nat Bool Unit Unit) :=
  getFirst false 0 ++ [.begin false (.fallback ())] ++ steps false 0 6 ++
    [.begin false (.fallback ())] ++ steps false 0 6

/-- The first load of a thread ends with its debt. The second one wraps the generation and panics,
and so does, if it checks the control word, the first load of the thread that takes the node over. -/
theorem fallback_ends_wrapped :
    (∃ σ, (registry 3 Nat Bool Unit Unit).Reach (fun _ _ => True) σ ∧
      (σ.locals false).pc = .setIdle 6 8 ∧ ∃ m' x',
        (σ.locals false).step 3 false ⟨0, 8, true⟩ σ.shared = some (m', x') ∧
        ∃ n p, x'.pc = .settle (helpingSlot n) p ∧ (m'.debt (helpingSlot n) = p ∨
          m'.consumed (helpingSlot n) p < m'.paid (helpingSlot n) p)) ∧
    (∃ σ, (registry 3 Nat Bool Unit Unit).Reach (fun _ _ => True) σ ∧
      (σ.locals false).pc = .setSlot 2 8 ∧ (σ.locals false).node = none ∧ ∃ m' x',
        (σ.locals false).step 3 false ⟨0, 8, true⟩ σ.shared = some (m', x') ∧ x'.pc = .panic) ∧
    ∃ σ, (registry 3 Nat Bool Unit Unit).Reach (fun _ _ => True) σ ∧
      (σ.locals true).pc = .setControl 6 false ∧ σ.shared.control 0 = 2 ∧ ∃ m' x',
        (σ.locals true).step 3 true ⟨0, 8, true⟩ σ.shared = some (m', x') ∧
        x'.pc = .wrongControl := by
  refine ⟨?_, ?_, ?_⟩
  · obtain ⟨σ, hr, hp⟩ := reach_after 3 (fun _ _ => True)
      (getFirst false 0 ++ [.begin false (.fallback ())] ++ steps false 0 4)
      (fun σ => (σ.locals false).pc = .setIdle 6 8 ∧
        ((σ.locals false).step 3 false ⟨0, 8, true⟩ σ.shared).any fun r =>
          r.2.pc.fallbackRank = 0 ∧ r.2.generation = 4 ∧ r.2.pc ≠ .wrongControl)
      (by decide +kernel)
    rw [decide_eq_true_eq, Option.any_eq_true] at hp
    obtain ⟨hpc, r, hstep, hr'⟩ := hp
    rw [decide_eq_true_eq] at hr'
    obtain ⟨hrank, hgen, hne⟩ := hr'
    obtain ⟨m', x', hs, _, _, _, hend⟩ := fallback_ends hr false ⟨0, 8, true⟩
      (by rw [hpc]; decide) (by decide)
    cases hstep.symm.trans hs
    have hend := hend hrank hne
    rw [if_neg (by rw [hgen]; decide)] at hend
    obtain ⟨_, n, p, _, _, hpc', hpaid⟩ := hend
    exact ⟨σ, hr, hpc, m', x', hs, n, p, hpc', hpaid⟩
  · obtain ⟨σ, hr, hp⟩ := reach_after 3 (fun _ _ => True) secondLoad
      (fun σ => (σ.locals false).pc = .setSlot 2 8 ∧ (σ.locals false).node = none ∧
        ((σ.locals false).step 3 false ⟨0, 8, true⟩ σ.shared).any fun r =>
          r.2.pc.fallbackRank = 0 ∧ r.2.generation = 0 ∧ r.2.pc ≠ .wrongControl)
      (by decide +kernel)
    rw [decide_eq_true_eq, Option.any_eq_true] at hp
    obtain ⟨hpc, hn, r, hstep, hr'⟩ := hp
    rw [decide_eq_true_eq] at hr'
    obtain ⟨hrank, hgen, hne⟩ := hr'
    obtain ⟨m', x', hs, _, _, _, hend⟩ := fallback_ends hr false ⟨0, 8, true⟩
      (by rw [hpc]; decide) (by decide)
    cases hstep.symm.trans hs
    have hend := hend hrank hne
    rw [if_pos hgen] at hend
    exact ⟨σ, hr, hpc, hn, m', x', hs, hend⟩
  · obtain ⟨σ, hr, hp⟩ := reach_after 3 (fun _ _ => True)
      (secondLoad ++ steps false 0 2 ++ [.begin true .get] ++ steps true 1 5 ++
        [.begin true (.fallback ())] ++ steps true 0 1)
      (fun σ => (σ.locals true).pc = .setControl 6 false ∧ (σ.locals true).node = some 0 ∧
        σ.shared.control 0 = 2) (by decide +kernel)
    rw [decide_eq_true_eq] at hp
    obtain ⟨hpc, hn, hc⟩ := hp
    obtain ⟨m', x', hs, _, hwrong, _⟩ := fallback_ends hr true ⟨0, 8, true⟩
      (by rw [hpc]; decide) (by decide)
    refine ⟨σ, hr, hpc, hc, m', x', hs, hwrong.2 ⟨rfl, 6, false, 0, hpc, hn, ?_⟩⟩
    rw [hc]
    decide

/-- As long as no generation wraps, a control word is not idle exactly while the owner of its node
is in a transaction: the owner finds it idle when it begins one, and its generation or a replacement
at the end. A node that nobody owns has its control idle and no debt in its helping slot. A thread
has its node wherever it uses it, and no assertion or `expect` fails. -/
theorem transactions_confirmed
    (hr : (registry width Node L W Sto).Reach (fun a σ => noWrap width a σ = true) σ) :
    (∀ n, σ.shared.control n ≠ idle ↔
      ∃ l gen, (σ.locals l).owns = some n ∧ (σ.locals l).pc.published = some gen) ∧
    (∀ l n gen discard, (σ.locals l).pc = .setControl gen discard →
      (σ.locals l).node = some n → σ.shared.control n = idle) ∧
    (∀ l n gen ptr, (σ.locals l).pc = .setIdle gen ptr → (σ.locals l).node = some n →
      σ.shared.control n = gen ∨ tagOf (σ.shared.control n) = replacementTag) ∧
    (∀ n, (∀ l, (σ.locals l).owns ≠ some n) →
      σ.shared.control n = idle ∧ σ.shared.debt (helpingSlot n) = debtNone) ∧
    (∀ l, (σ.locals l).pc.using = true ∨ (∃ gen, (σ.locals l).pc.published = some gen) →
      ∃ n, (σ.locals l).node = some n) ∧
    (∀ l n, (σ.locals l).owns = some n → σ.shared.inUse n = nodeUsed) ∧
    ∀ l, (σ.locals l).pc ≠ .panic ∧ (σ.locals l).pc ≠ .wrongControl := by
  have hO := State.Owned.reach hr
  have hC := State.Confirmed.reach hr
  have hne : ∀ l gen, (σ.locals l).pc.published = some gen → gen ≠ idle := by
    intro l gen hp
    have hcount := Local.Counted.reach hr l
    rw [hcount.current gen (LocalPc.transaction_of_published hp), genTag_or hcount.aligned]
    exact Nat.succ_ne_zero _
  refine ⟨fun n => ⟨fun hn => ?_, fun hn => ?_⟩, fun l n gen discard hpc hn => hC.finds_idle hO hpc hn,
    fun l n gen ptr hpc hn => ?_, fun n hn => ⟨?_, ?_⟩, fun l hl => ?_, hO.inUse,
    fun l => ⟨?_, ?_⟩⟩
  · obtain ⟨l, gen, ho, hp, _⟩ := hC.current n hn
    exact ⟨l, gen, ho, hp⟩
  · obtain ⟨l, gen, ho, hp⟩ := hn
    rcases hC.transacting l n gen ho hp with hc | hc
    · rw [hc]
      exact hne l gen hp
    · rintro hidle
      rw [hidle] at hc
      cases hc
  · exact hC.transacting l n gen (by simpa only [Local.owns, hpc] using hn) (by rw [hpc]; rfl)
  · by_contra hcontrol
    obtain ⟨l, _, ho, _⟩ := hC.current n hcontrol
    exact hn l ho
  · by_contra hdebt
    obtain ⟨l, ho, _⟩ := (State.Settled.reach hr).helping n hdebt
    exact hn l ho
  · rcases hl with hu | ⟨gen, hp⟩
    · exact Local.node_of_using hr l hu
    · obtain ⟨n, ho⟩ := hC.held l gen hp
      exact ⟨n, Local.node_of_published hp ho⟩
  · intro hpc
    have hd := hC.kept l
    rw [hpc] at hd
    cases hd
  · intro hpc
    have hd := hC.kept l
    rw [hpc] at hd
    cases hd

theorem transactions_confirmed_helped : ∃ σ,
    (registry 64 Nat Bool Unit Unit).Reach (fun a σ => noWrap 64 a σ = true) σ ∧
      (σ.locals false).pc = .setIdle 6 8 ∧ (σ.locals false).node = some 0 ∧
      (σ.shared.control 0 = 6 ∨ tagOf (σ.shared.control 0) = replacementTag) := by
  obtain ⟨σ, hr, hp⟩ := reach_after 64 (fun a σ => noWrap 64 a σ = true)
    (getFirst false 0 ++ [.begin false (.fallback ())] ++ steps false 0 2 ++ [.payAll () () 8] ++
      List.replicate 5 (.walk () ⟨0, 8, false⟩) ++ steps false 0 2)
    (fun σ => (σ.locals false).pc = .setIdle 6 8 ∧ (σ.locals false).node = some 0)
    (by decide +kernel)
  rw [decide_eq_true_eq] at hp
  exact ⟨σ, hr, hp.1, hp.2, (transactions_confirmed hr).2.2.1 false 0 6 8 hp.1 hp.2⟩

end ArcSwap.Registry
