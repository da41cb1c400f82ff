import ArcSwap.Step

namespace ArcSwap
set_option autoImplicit true

/-- `helping::Slots::get_debt`: the tagged generation, whether the node is to be discarded, and the
counter that is left. -/
def getDebt (w : Nat) (generation : Nat) : Nat × Bool × Nat :=
  let gen := nextGeneration w generation
  (gen ||| genTag, gen = 0, gen)

structure LocalNode (Node : Type) where
  node : Option Node
  generation : Nat

/-- `LocalNode::with` before it runs its closure; `get` is what `Node::get` finds or allocates. -/
def LocalNode.enter (l : LocalNode Node) (get : Node) : LocalNode Node :=
  if l.node.isNone then { l with node := some get } else l

/-- `LocalNode::new_helping`, with whether it discards the node. It panics without a node. -/
def LocalNode.newHelping (w : Nat) (l : LocalNode Node) : Option (Nat × Bool × LocalNode Node) :=
  l.node.map fun n =>
    let (gen, discard, generation) := getDebt w l.generation
    (gen, discard, ⟨if discard then none else some n, generation⟩)

/-- A `LocalNode` with the results of its calls of `new_helping`: a list for each claim of a node,
both newest first. -/
structure Owner (Node : Type) where
  localNode : LocalNode Node
  claims : List (List (Nat × Bool))

inductive Request (Node : Type)
  | enter (get : Node)
  | newHelping

def Owner.step (w : Nat) : Request Node → Owner Node → Option (Owner Node)
  | .enter get, σ =>
    some ⟨σ.localNode.enter get, if σ.localNode.node.isNone then [] :: σ.claims else σ.claims⟩
  | .newHelping, σ =>
    (σ.localNode.newHelping w).map fun r =>
      ⟨r.2.2, match σ.claims with
        | c :: cs => ((r.1, r.2.1) :: c) :: cs
        | [] => []⟩

/-- `LocalNode`s begin with a counter of `0`: that of a thread without a node, the temporary one
with a node just claimed. -/
def ownership (w : Nat) (Node : Type) : Concurrent.Machine (Owner Node) (Request Node) where
  init σ := σ.localNode.generation = 0 ∧
    (σ.localNode.node = none ∧ σ.claims = [] ∨ σ.localNode.node.isSome ∧ σ.claims = [[]])
  step := Owner.step w

def issued (w : Nat) : Nat → List (Nat × Bool)
  | 0 => []
  | n + 1 => (4 * (n + 1) % 2 ^ w + 2, 4 * (n + 1) % 2 ^ w = 0) :: issued w n

theorem issued_length (w n : Nat) : (issued w n).length = n := by
  induction n with
  | zero => rfl
  | succ n ih => rw [issued, List.length_cons, ih]

variable {w : Nat} {σ σ' : Owner Node}

theorem pow_eq (hw : 3 ≤ w) : 2 ^ w = 4 * 2 ^ (w - 2) ∧ 2 ≤ 2 ^ (w - 2) := by
  obtain ⟨n, rfl⟩ := Nat.exists_eq_add_of_le hw
  have hn := Nat.one_le_two_pow (n := n)
  have he : 3 + n - 2 = n + 1 := by omega
  have hp : 2 ^ (3 + n) = 8 * 2 ^ n := by rw [Nat.pow_add]
  rw [he, hp, Nat.pow_succ]
  omega

theorem getDebt_eq (hw : 3 ≤ w) (n : Nat) :
    getDebt w (4 * n) =
      (4 * (n + 1) % 2 ^ w + 2, decide (4 * (n + 1) % 2 ^ w = 0), 4 * (n + 1) % 2 ^ w) := by
  have he := (pow_eq hw).1
  have hmod : 4 * (n + 1) % 2 ^ w % 4 = 0 := by
    rw [he, Nat.mul_mod_mul_left]
    exact Nat.mul_mod_right ..
  have hgen : nextGeneration w (4 * n) = 4 * (n + 1) % 2 ^ w := rfl
  simp only [getDebt, hgen, genTag_or hmod]

theorem loadStep_setAddr (cfg : Config Thr Sto) [DecidableEq Thr] [DecidableEq Sto] (t : Thr)
    (m : Shared Thr Sto) (S : Sto) (k : LoadPc Thr → Frame Thr Sto) (h : m.localNode t = true) :
    loadStep cfg t m S k .setAddr =
      some ({ m with
          generation := Function.update m.generation t (getDebt cfg.width (m.generation t)).2.2
          activeAddr := Function.update m.activeAddr t (some S) },
        [k (.setControl (getDebt cfg.width (m.generation t)).1
          (getDebt cfg.width (m.generation t)).2.1)]) := by
  simp only [loadStep, h, if_true, getDebt]

/-- A claim in which `n` transactions have taken place. -/
structure Owner.Counted (w : Nat) (σ : Owner Node) : Prop where
  current : σ.localNode.node.isSome → ∃ n cs, σ.claims = issued w n :: cs ∧ n < 2 ^ (w - 2) ∧
    σ.localNode.generation = 4 * n ∧ ∀ c ∈ cs, c = issued w (2 ^ (w - 2))
  ended : σ.localNode.node = none →
    σ.localNode.generation = 0 ∧ ∀ c ∈ σ.claims, c = issued w (2 ^ (w - 2))

theorem Owner.Counted.step (hw : 3 ≤ w) (h : σ.Counted w) (hs : Owner.step w r σ = some σ') :
    σ'.Counted w := by
  obtain ⟨hpow, hpos⟩ := pow_eq hw
  cases r with
  | enter get =>
    cases hs
    cases hn : σ.localNode.node with
    | none =>
      obtain ⟨hgen, hcs⟩ := h.ended hn
      constructor
      · intro _
        exact ⟨0, σ.claims, by simp [issued], by omega, by simp [LocalNode.enter, hn, hgen], hcs⟩
      · simp [LocalNode.enter, hn]
    | some n =>
      have he : σ.localNode.enter get = σ.localNode := by simp [LocalNode.enter, hn]
      simpa [he, hn] using h
  | newHelping =>
    simp only [Owner.step, Option.map_eq_some_iff] at hs
    obtain ⟨⟨gen, discard, l⟩, hl, rfl⟩ := hs
    simp only [LocalNode.newHelping, Option.map_eq_some_iff] at hl
    obtain ⟨node, hnode, hl⟩ := hl
    obtain ⟨n, cs, hcs, hn, hgen, hall⟩ := h.current (by rw [hnode]; rfl)
    rw [hgen, getDebt_eq hw] at hl
    cases hl
    simp only [hcs]
    by_cases hlast : n + 1 = 2 ^ (w - 2)
    · have hzero : 4 * (n + 1) % 2 ^ w = 0 := by rw [hlast, hpow, Nat.mod_self]
      constructor
      · simp [hzero]
      · intro _
        refine ⟨hzero, ?_⟩
        rw [List.forall_mem_cons]
        exact ⟨by rw [← hlast]; rfl, hall⟩
    · have hlt : 4 * (n + 1) % 2 ^ w = 4 * (n + 1) := Nat.mod_eq_of_lt (by omega)
      constructor
      · intro _
        refine ⟨n + 1, cs, rfl, by omega, hlt, hall⟩
      · simp [hlt]

theorem Owner.Counted.reach (hw : 3 ≤ w) (hr : (ownership w Node).Reach ok σ) : σ.Counted w := by
  have hpos := (pow_eq hw).2
  refine hr.invariant ?_ fun _ _ _ h _ hs => h.step hw hs
  rintro σ ⟨hgen, ⟨hnode, hcs⟩ | ⟨hnode, hcs⟩⟩
  · constructor
    · simp [hnode]
    · intro _
      simp [hgen, hcs]
  · constructor
    · intro _
      exact ⟨0, [], hcs, by omega, hgen, List.forall_mem_nil _⟩
    · intro h
      rw [h] at hnode
      cases hnode

theorem mod_eq (hw : 3 ≤ w) (n : Nat) (hn : n ≤ 2 ^ (w - 2)) :
    4 * n % 2 ^ w = if n = 2 ^ (w - 2) then 0 else 4 * n := by
  have hpow := (pow_eq hw).1
  split
  · rename_i he
    rw [he, hpow, Nat.mod_self]
  · exact Nat.mod_eq_of_lt (by omega)

/-- How many calls there were before it in its claim determines what a call gets. -/
theorem issued_split (h : issued w n = newer ++ x :: older) :
    older.length < n ∧ x = (4 * (older.length + 1) % 2 ^ w + 2,
      decide (4 * (older.length + 1) % 2 ^ w = 0)) := by
  induction newer generalizing n with
  | nil =>
    cases n with
    | zero => cases h
    | succ n =>
      obtain ⟨rfl, rfl⟩ := List.cons.inj h
      rw [issued_length]
      exact ⟨Nat.lt_succ_self n, rfl⟩
  | cons y newer ih =>
    cases n with
    | zero => cases h
    | succ n =>
      obtain ⟨hlt, hx⟩ := ih (List.cons.inj h).2
      exact ⟨Nat.lt_succ_of_lt hlt, hx⟩

theorem issued_nodup (hw : 3 ≤ w) (hn : n ≤ 2 ^ (w - 2)) : ((issued w n).map Prod.fst).Nodup := by
  induction n with
  | zero => exact List.nodup_nil
  | succ n ih =>
    rw [issued, List.map_cons, List.nodup_cons]
    refine ⟨?_, ih (by omega)⟩
    rw [List.mem_map]
    rintro ⟨x, hmem, heq⟩
    obtain ⟨newer, older, h⟩ := List.append_of_mem hmem
    obtain ⟨hlt, rfl⟩ := issued_split h
    simp only at heq
    rw [mod_eq hw (older.length + 1) (by omega), mod_eq hw (n + 1) hn] at heq
    split at heq <;> split at heq <;> omega

theorem Owner.Counted.claim (h : σ.Counted w) (hc : c ∈ σ.claims) :
    ∃ n, n ≤ 2 ^ (w - 2) ∧ c = issued w n := by
  cases hn : σ.localNode.node with
  | none => exact ⟨_, Nat.le_refl _, (h.ended hn).2 c hc⟩
  | some node =>
    obtain ⟨n, cs, hcs, hlt, _, hall⟩ := h.current (by rw [hn]; rfl)
    rw [hcs] at hc
    rcases List.mem_cons.1 hc with rfl | hc
    · exact ⟨n, Nat.le_of_lt hlt, rfl⟩
    · exact ⟨_, Nat.le_refl _, hall c hc⟩

theorem Owner.Counted.ends (h : σ.Counted w) (hc : σ.claims = c :: cs) :
    (∀ d ∈ cs, d.length = 2 ^ (w - 2)) ∧ (σ.localNode.node = none ↔ c.length = 2 ^ (w - 2)) := by
  cases hn : σ.localNode.node with
  | none =>
    have hall := (h.ended hn).2
    rw [hc] at hall
    refine ⟨fun d hd => ?_, fun _ => ?_, fun _ => rfl⟩
    · rw [hall d (List.mem_cons_of_mem c hd), issued_length]
    · rw [hall c (List.mem_cons_self ..), issued_length]
  | some node =>
    obtain ⟨n, cs', hcs, hlt, _, hall⟩ := h.current (by rw [hn]; rfl)
    obtain ⟨rfl, rfl⟩ := List.cons.inj (hc.symm.trans hcs)
    rw [issued_length]
    refine ⟨fun d hd => ?_, nofun, fun he => by omega⟩
    rw [hall d hd, issued_length]

/-- The tags of one claim, up to the one with which the node is discarded, are different; each is a
multiple of four but for its tag, and neither idle nor an envelope. The node is discarded when the
counter wraps to zero, which is at the same transaction in every claim, as every claim begins with a
counter of zero. -/
theorem tags_distinct (hw : 3 ≤ w) (hr : (ownership w Node).Reach ok σ) :
    (∀ c ∈ σ.claims, (c.map Prod.fst).Nodup ∧
      ∀ newer tag last older, c = newer ++ (tag, last) :: older →
        tag < 2 ^ w ∧ tag ≠ 0 ∧ tagOf tag = genTag ∧ tag ≠ idle ∧
        (∀ a, a % 4 = 0 → tag ≠ a ||| replacementTag) ∧
        clearTag tag = 4 * (older.length + 1) % 2 ^ w ∧ (last = true ↔ clearTag tag = 0) ∧
        (last = true ↔ older.length + 1 = 2 ^ (w - 2))) ∧
    (∀ a, a % 4 = 0 → clearTag (a ||| replacementTag) = a) ∧
    (∀ c cs, σ.claims = c :: cs → (∀ d ∈ cs, d.length = 2 ^ (w - 2)) ∧
      (σ.localNode.node = none ↔ c.length = 2 ^ (w - 2))) ∧
    (σ.localNode.node = none → σ.localNode.generation = 0) := by
  have hC := Owner.Counted.reach hw hr
  have hpow := (pow_eq hw).1
  refine ⟨?_, ?_, fun c cs hc => hC.ends hc, fun hn => (hC.ended hn).1⟩
  · intro c hc
    obtain ⟨n, hn, rfl⟩ := hC.claim hc
    refine ⟨issued_nodup hw hn, fun newer tag last older h => ?_⟩
    obtain ⟨hlt, he⟩ := issued_split h
    obtain ⟨rfl, rfl⟩ := Prod.mk.inj he
    have hmod := mod_eq hw (older.length + 1) (by omega)
    have hfour : 4 * (older.length + 1) % 2 ^ w % 4 = 0 := by
      rw [hmod]
      split <;> omega
    have hclear : clearTag (4 * (older.length + 1) % 2 ^ w + 2) =
        4 * (older.length + 1) % 2 ^ w := by
      rw [clearTag_eq]
      omega
    have hbound := Nat.mod_lt (4 * (older.length + 1)) (Nat.two_pow_pos w)
    refine ⟨by omega, by omega, ?_, Nat.succ_ne_zero _, ?_, hclear, ?_, ?_⟩
    · rw [tagOf_eq, genTag]
      omega
    · intro a ha
      rw [replacementTag_or ha]
      omega
    · rw [hclear, decide_eq_true_iff]
    · rw [decide_eq_true_iff, hmod]
      split <;> omega
  · intro a ha
    rw [replacementTag_or ha, clearTag_eq]
    omega

/-- With words of three bits the second transaction discards the node. -/
theorem tags_distinct_discard : ∃ σ : Owner (Fin 1),
    (ownership 3 (Fin 1)).Reach (fun _ _ => True) σ ∧ σ.claims = [[(2, true), (6, false)]] ∧
      σ.localNode.node = none ∧ σ.localNode.generation = 0 := by
  have hinit : (ownership 3 (Fin 1)).Reach (fun _ _ => True) ⟨⟨none, 0⟩, []⟩ :=
    .init ⟨rfl, .inl ⟨rfl, rfl⟩⟩
  have he : (ownership 3 (Fin 1)).exec (fun _ _ => True)
      ([.enter 0, .newHelping, .newHelping].map fun r _ => some r) ⟨⟨none, 0⟩, []⟩ =
        some ⟨⟨none, 0⟩, [[(2, true), (6, false)]]⟩ := rfl
  have hr := hinit.exec he
  exact ⟨_, hr, rfl, rfl, (tags_distinct (Nat.le_refl 3) hr).2.2.2 rfl⟩

end ArcSwap
