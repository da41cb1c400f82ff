import ArcSwap.Registry.Model

namespace ArcSwap.Registry
set_option autoImplicit true

open Concurrent (Linked Walk)

def LocalPc.visiting : LocalPc Node Sto → Option Node
  | .inUse n | .writers n | .exchange n _ | .claim n | .next n => some n
  | _ => none

/-- The node that is allocated but not in the list yet. -/
def LocalPc.creating : LocalPc Node Sto → Option Node
  | .loadHead h | .link h _ | .prepend h _ => some h
  | _ => none

/-- A thread in `Node::get` has no node. -/
def LocalPc.getting : LocalPc Node Sto → Bool
  | .head | .inUse _ | .writers _ | .exchange _ _ | .claim _ | .next _ | .alloc
  | .loadHead _ | .link _ _ | .prepend _ _ => true
  | _ => false

theorem LocalPc.getting_of_visiting {pc : LocalPc Node Sto} (h : pc.visiting = some n) :
    pc.getting = true := by
  cases pc <;> first | rfl | cases h

theorem LocalPc.getting_of_creating {pc : LocalPc Node Sto} (h : pc.creating = some n) :
    pc.getting = true := by
  cases pc <;> first | rfl | cases h

def WriterPc.visiting : WriterPc Node → Option Node
  | .reserve n | .load n | .addr n _ | .recheck n _ | .offer n _ | .pay n _ | .next n
  | .unwind n => some n
  | _ => none

variable {Node L W Sto : Type} {m m' : Shared Node L Sto} {x x' : Local Node Sto}
  {y y' : Writer Node Sto} {σ σ' : State Node L W Sto}

/-- `get_debt` publishes its word in any case, and goes on if it is not checked or replaces `IDLE`. -/
theorem Local.step_setControl [DecidableEq Node] {discard : Bool}
    (hpc : x.pc = .setControl gen discard)
    (hs : x.step w l i m = some (m', x')) :
    ∃ n pc, x.node = some n ∧ x' = x.goto pc ∧
      m' = { m.setControl n gen with publisher := Function.update m.publisher n (m.claims n) } ∧
      (pc = .wrongControl ∧ i.flag = true ∧ m.control n ≠ idle ∨
        ¬ (i.flag = true ∧ m.control n ≠ idle) ∧
          (discard = true ∧ pc = .reserve (.discard gen) ∨ discard = false ∧ pc = .candidate gen)) := by
  simp only [Local.step, hpc, Option.map_eq_some_iff] at hs
  obtain ⟨n, hn, hs⟩ := hs
  cases hs
  refine ⟨n, _, hn, rfl, rfl, ?_⟩
  by_cases hc : i.flag = true ∧ m.control n ≠ idle
  · exact .inl ⟨if_pos hc, hc⟩
  · rw [if_neg hc]
    cases discard with
    | true => exact .inr ⟨hc, .inl ⟨rfl, rfl⟩⟩
    | false => exact .inr ⟨hc, .inr ⟨rfl, rfl⟩⟩

/-- What a `LocalNode` knows of the list. -/
structure Local.Listed (m : Shared Node L Sto) (x : Local Node Sto) : Prop where
  walked : x.visited <+: x.snapshot ∧ x.snapshot <:+ m.published
  walking : ∀ n, x.pc.visiting = some n →
    n ∈ m.published ∧ Walk m.next m.published x.snapshot x.visited (m.next n)
  ended : x.pc = .alloc → x.visited = x.snapshot
  created : ∀ h, x.pc.creating = some h → m.allocated h = true ∧ h ∉ m.published ∧
    ∀ head, x.pc = .prepend h head → m.next h = head
  without : x.pc.getting = true → x.node = none
  node : ∀ n, x.node = some n → n ∈ m.published

/-- What a writer knows of the list. -/
structure Writer.Listed (m : Shared Node L Sto) (y : Writer Node Sto) : Prop where
  walked : y.visited <+: y.snapshot ∧ y.snapshot <:+ m.published
  walking : ∀ n, y.pc.visiting = some n →
    n ∈ m.published ∧ Walk m.next m.published y.snapshot y.visited (m.next n)
  ended : y.pc = .done → y.visited = y.snapshot

structure Shared.Listed (m : Shared Node L Sto) : Prop where
  linked : Linked m.next m.listHead m.published
  allocated : ∀ n ∈ m.published, m.allocated n = true

structure State.Listed (σ : State Node L W Sto) : Prop where
  shared : σ.shared.Listed
  locals : ∀ l, (σ.locals l).Listed σ.shared
  writers : ∀ w, (σ.writers w).Listed σ.shared
  creators : ∀ l k h, (σ.locals l).pc.creating = some h → (σ.locals k).pc.creating = some h → l = k

/-- What a step does to the list: it writes the links of the node `own` creates, and may publish
that node. -/
structure Shared.Extends (own : Option Node) (m m' : Shared Node L Sto) : Prop where
  next : ∀ n, m.allocated n = true → own ≠ some n → m'.next n = m.next n
  published : m'.published = m.published ∨ ∃ h, own = some h ∧ m'.published = h :: m.published
  allocated : ∀ n, m.allocated n = true → m'.allocated n = true

theorem Shared.Extends.of_eq (hn : m'.next = m.next) (hp : m'.published = m.published)
    (ha : m'.allocated = m.allocated) : m.Extends own m' := by
  refine ⟨fun n _ _ => ?_, .inl hp, fun n h => ?_⟩
  · rw [hn]
  · rw [ha]
    exact h

theorem Shared.Extends.suffix (h : m.Extends own m') : m.published <:+ m'.published := by
  rcases h.published with he | ⟨n, _, he⟩
  · exact he ▸ List.suffix_rfl
  · exact he ▸ List.suffix_cons ..

/-- A step outside of `Node::get` leaves the list alone. -/
structure Local.Outside (m m' : Shared Node L Sto) (x x' : Local Node Sto) : Prop where
  listHead : m'.listHead = m.listHead
  next : m'.next = m.next
  published : m'.published = m.published
  allocated : m'.allocated = m.allocated
  getting : x'.pc.getting = false
  node : x'.node = x.node ∨ x'.node = none
  walked : x'.snapshot = x.snapshot ∧ x'.visited = x.visited ∨ x'.snapshot = [] ∧ x'.visited = []

theorem Local.Listed.outside (hw : x.visited <+: x.snapshot ∧ x.snapshot <:+ m.published)
    (hg : x.pc.getting = false) (hn : ∀ n, x.node = some n → n ∈ m.published) : x.Listed m := by
  constructor
  · exact hw
  · intro n hv
    cases hg.symm.trans (LocalPc.getting_of_visiting hv)
  · intro hpc
    rw [hpc] at hg
    cases hg
  · intro h hc
    cases hg.symm.trans (LocalPc.getting_of_creating hc)
  · intro h
    cases hg.symm.trans h
  · exact hn

theorem Local.Listed.visit (hw : Walk m.next m.published x.snapshot x.visited p)
    (hn : x.node = none) : (x.visit p).Listed m := by
  cases p with
  | none =>
    have he := hw.ended
    refine ⟨⟨hw.visited_initial, hw.1⟩, ?_, fun _ => he, ?_, fun _ => hn, ?_⟩ <;> intro n h
    · cases h
    · cases h
    · cases hn.symm.trans h
  | some a =>
    obtain ⟨ha, hw⟩ := hw.visit
    refine ⟨⟨hw.visited_initial, hw.1⟩, ?_, ?_, ?_, fun _ => hn, ?_⟩
    · intro n h
      cases h
      exact ⟨ha, hw⟩
    · intro h
      cases h
    · intro k h
      cases h
    · intro n h
      cases hn.symm.trans h

theorem Local.Listed.create {pc : LocalPc Node Sto}
    (hw : x.visited <+: x.snapshot ∧ x.snapshot <:+ m.published) (hn : x.node = none)
    (hc : pc.creating = some h) (ha : m.allocated h = true) (hp : h ∉ m.published)
    (hnext : ∀ head, pc = .prepend h head → m.next h = head) : (x.goto pc).Listed m := by
  have hv : pc.visiting = none := by
    cases pc <;> first | rfl | cases hc
  refine ⟨hw, ?_, ?_, ?_, fun _ => hn, ?_⟩
  · intro n hk
    cases hv.symm.trans hk
  · rintro (rfl : pc = .alloc)
    cases hc
  · intro k hk
    cases hc.symm.trans hk
    exact ⟨ha, hp, hnext⟩
  · intro n hk
    cases hn.symm.trans hk

theorem Local.Listed.stay {pc : LocalPc Node Sto} (hx : x.Listed m)
    (hv : x.pc.visiting = some n) (hv' : pc.visiting = some n) : (x.goto pc).Listed m := by
  have hn : x.node = none := hx.without (LocalPc.getting_of_visiting hv)
  refine ⟨hx.walked, ?_, ?_, ?_, fun _ => hn, hx.node⟩
  · intro k hk
    exact hx.walking k (hv.trans (hv'.symm.trans hk))
  · rintro (rfl : pc = .alloc)
    cases hv'
  · intro h hc
    have hc : pc.creating = some h := hc
    cases pc <;> first | cases hc; done | cases hv'

theorem Local.Listed.of_eq (hx : x.Listed m) (hn : m'.next = m.next)
    (hp : m'.published = m.published) (ha : m'.allocated = m.allocated) : x.Listed m' := by
  obtain ⟨h₁, h₂, h₃, h₄, h₅, h₆⟩ := hx
  rw [← hp] at h₁ h₂ h₄ h₆
  rw [← hn] at h₂ h₄
  rw [← ha] at h₄
  exact ⟨h₁, h₂, h₃, h₄, h₅, h₆⟩

theorem Shared.Listed.of_eq (hm : m.Listed) (hl : m'.listHead = m.listHead) (hn : m'.next = m.next)
    (hp : m'.published = m.published) (ha : m'.allocated = m.allocated) : m'.Listed := by
  obtain ⟨h₁, h₂⟩ := hm
  rw [← hp] at h₁ h₂
  rw [← hn, ← hl] at h₁
  rw [← ha] at h₂
  exact ⟨h₁, h₂⟩

/-- What a step of a `LocalNode` keeps of the list and of what it knows of it. -/
structure Local.Kept (m m' : Shared Node L Sto) (x x' : Local Node Sto) : Prop where
  shared : m'.Listed
  self : x'.Listed m'
  extends_ : m.Extends x.pc.creating m'
  created : ∀ h, x'.pc.creating = some h → x.pc.creating = some h ∨ m.allocated h = false

theorem Local.Kept.of_eq (hm : m.Listed) (hx : x'.Listed m) (hc : x'.pc.creating = none) :
    Local.Kept m m x x' := by
  refine ⟨hm, hx, .of_eq rfl rfl rfl, fun h he => ?_⟩
  cases hc.symm.trans he

/-- What the steps of others do to the list does not matter to a `LocalNode`. -/
theorem Local.Listed.extend (hx : x.Listed m) (hm : m.Listed) (he : m.Extends own m')
    (hown : ∀ h, own = some h → x.pc.creating ≠ some h) (ho : ∀ h, own = some h → h ∉ m.published) :
    x.Listed m' := by
  have hnext : ∀ n ∈ m.published, m'.next n = m.next n := by
    intro n hn
    refine he.next n (hm.allocated n hn) fun h => ?_
    exact ho n h hn
  refine ⟨⟨hx.walked.1, hx.walked.2.trans he.suffix⟩, ?_, hx.ended, ?_, hx.without, ?_⟩
  · intro n hn
    obtain ⟨hp, hw⟩ := hx.walking n hn
    refine ⟨he.suffix.subset hp, ?_⟩
    rw [hnext n hp]
    exact hw.extend he.suffix hnext
  · intro h hc
    obtain ⟨ha, hp, hhead⟩ := hx.created h hc
    have hne : own ≠ some h := fun h' => hown h h' hc
    refine ⟨he.allocated h ha, fun hmem => ?_, fun head hpc => ?_⟩
    · rcases he.published with h' | ⟨k, hk, h'⟩
      · exact hp (h' ▸ hmem)
      · rcases List.mem_cons.1 (h' ▸ hmem) with rfl | hmem
        · exact hne hk
        · exact hp hmem
    · rw [he.next h ha hne]
      exact hhead head hpc
  · exact fun n hn => he.suffix.subset (hx.node n hn)

theorem Writer.Listed.extend (hy : y.Listed m) (hm : m.Listed) (he : m.Extends own m')
    (ho : ∀ h, own = some h → h ∉ m.published) : y.Listed m' := by
  have hnext : ∀ n ∈ m.published, m'.next n = m.next n := by
    intro n hn
    refine he.next n (hm.allocated n hn) fun h => ?_
    exact ho n h hn
  refine ⟨⟨hy.walked.1, hy.walked.2.trans he.suffix⟩, ?_, hy.ended⟩
  intro n hn
  obtain ⟨hp, hw⟩ := hy.walking n hn
  refine ⟨he.suffix.subset hp, ?_⟩
  rw [hnext n hp]
  exact hw.extend he.suffix hnext

theorem Writer.Listed.visit (hw : Walk m.next m.published y.snapshot y.visited p) :
    (y.visit p).Listed m := by
  cases p with
  | none => exact ⟨⟨hw.visited_initial, hw.1⟩, (by intro _ h; cases h), fun _ => hw.ended⟩
  | some a =>
    obtain ⟨ha, hw⟩ := hw.visit
    refine ⟨⟨hw.visited_initial, hw.1⟩, ?_, (by intro h; cases h)⟩
    intro n h
    cases h
    exact ⟨ha, hw⟩

theorem Writer.Listed.stay (hy : y.Listed m) (hs : y'.snapshot = y.snapshot)
    (hv : y'.visited = y.visited) (hn : ∀ n, y'.pc.visiting = some n → y.pc.visiting = some n)
    (hd : y'.pc ≠ .done) : y'.Listed m := by
  refine ⟨?_, ?_, fun h => absurd h hd⟩
  · rw [hs, hv]
    exact hy.walked
  · rw [hs, hv]
    exact fun n h => hy.walking n (hn n h)

theorem Writer.look_pc (m : Shared Node L Sto) (y : Writer Node Sto) (n : Node) :
    (look m y n).pc.visiting = some n ∧ (look m y n).pc ≠ .done := by
  simp only [look]
  split_ifs <;> exact ⟨rfl, (by intro h; cases h)⟩

theorem Local.begin_rest (hs : x.begin op = some x') : x.pc = .rest := by
  cases hpc : x.pc with
  | rest => rfl
  | _ =>
    simp only [Local.begin, hpc] at hs
    cases hs

theorem Writer.abort_pc (hs : y.abort = some y') :
    ∃ n, y.pc.visiting = some n ∧ y' = y.goto (.unwind n) := by
  cases hpc : y.pc with
  | load n | addr n | recheck n | offer n | pay n =>
    simp only [Writer.abort, hpc, Option.some.injEq] at hs
    exact ⟨n, rfl, hs.symm⟩
  | _ =>
    simp only [Writer.abort, hpc] at hs
    cases hs

theorem Local.Listed.begin (hx : x.Listed m) (hs : x.begin op = some x') :
    x'.Listed m ∧ x'.pc.creating = none := by
  have hw := hx.walked
  have hn := hx.node
  cases hpc : x.pc with
  | rest =>
    cases op with
    | get =>
      simp only [Local.begin, hpc, Option.isNone_iff_eq_none] at hs
      split at hs
      · rename_i hnone
        cases hs
        refine ⟨⟨hw, ?_, ?_, ?_, fun _ => hnone, hn⟩, rfl⟩
        · intro k hk
          cases hk
        · intro hk
          cases hk
        · intro k hk
          cases hk
      · cases hs
    | attempt ptr =>
      simp only [Local.begin, hpc] at hs
      split at hs <;> cases hs
      exact ⟨.outside hw rfl hn, rfl⟩
    | fallback S =>
      simp only [Local.begin, hpc] at hs
      split at hs <;> cases hs
      exact ⟨.outside hw rfl hn, rfl⟩
    | drop =>
      simp only [Local.begin, hpc, Option.some.injEq] at hs
      split at hs
      · cases hs
        exact ⟨.outside hw rfl hn, rfl⟩
      · cases hs
        exact ⟨.outside ⟨List.prefix_rfl, List.nil_suffix⟩ rfl (by intro _ h; cases h), rfl⟩
  | _ =>
    simp only [Local.begin, hpc] at hs
    cases hs

theorem Writer.Listed.begin (hy : y.Listed m) (hs : y.begin S p = some y') : y'.Listed m := by
  simp only [Writer.begin] at hs
  split at hs
  · split at hs <;> cases hs
    exact hy.stay rfl rfl (by intro _ h; cases h) (by intro h; cases h)
  · split at hs <;> cases hs
    exact hy.stay rfl rfl (by intro _ h; cases h) (by intro h; cases h)
  · cases hs

theorem Writer.Listed.abort (hy : y.Listed m) (hs : y.abort = some y') : y'.Listed m := by
  obtain ⟨n, hn, rfl⟩ := abort_pc hs
  refine hy.stay rfl rfl (fun k hk => ?_) (by intro h; cases h)
  exact hn.trans hk

theorem State.Listed.of_eq (h : σ.Listed) (hl : σ'.locals = σ.locals)
    (hw : ∀ w, (σ'.writers w).Listed σ.shared)
    (hh : σ'.shared.listHead = σ.shared.listHead) (hn : σ'.shared.next = σ.shared.next)
    (hp : σ'.shared.published = σ.shared.published)
    (ha : σ'.shared.allocated = σ.shared.allocated) : σ'.Listed := by
  have he : σ.shared.Extends none σ'.shared := .of_eq hn hp ha
  refine ⟨h.shared.of_eq hh hn hp ha, fun l => ?_, fun w => (hw w).extend h.shared he ?_, ?_⟩
  · rw [hl]
    exact (h.locals l).of_eq hn hp ha
  · intro k hk
    cases hk
  · rw [hl]
    exact h.creators

variable [DecidableEq Node]

theorem Local.step_outside (hs : x.step w l i m = some (m', x')) (hg : x.pc.getting = false) :
    Local.Outside m m' x x' := by
  cases hpc : x.pc with
  | rest | assertion =>
    simp only [Local.step, hpc] at hs
    cases hs
  | head | inUse | writers | exchange | claim | next | alloc | loadHead | link | prepend =>
    rw [hpc] at hg
    cases hg
  | scan ptr k =>
    simp only [Local.step, hpc, Option.map_eq_some_iff] at hs
    obtain ⟨n, _, hs⟩ := hs
    cases hs
    exact ⟨rfl, rfl, rfl, rfl, by simp only [goto]; split_ifs <;> rfl, .inl rfl, .inl ⟨rfl, rfl⟩⟩
  | confirm d ptr =>
    simp only [Local.step, hpc, Option.some.injEq] at hs
    split at hs <;> cases hs <;> exact ⟨rfl, rfl, rfl, rfl, rfl, .inl rfl, .inl ⟨rfl, rfl⟩⟩
  | settle d ptr =>
    simp only [Local.step, hpc, Option.some.injEq] at hs
    cases hs
    simp only [Shared.settle]
    split <;> exact ⟨rfl, rfl, rfl, rfl, rfl, .inl rfl, .inl ⟨rfl, rfl⟩⟩
  | take | setAddr | reserve | setIdle =>
    simp only [Local.step, hpc, Option.map_eq_some_iff] at hs
    obtain ⟨n, _, hs⟩ := hs
    cases hs
    exact ⟨rfl, rfl, rfl, rfl, rfl, .inl rfl, .inl ⟨rfl, rfl⟩⟩
  | setControl gen discard =>
    simp only [Local.step, hpc, Option.map_eq_some_iff] at hs
    obtain ⟨n, _, hs⟩ := hs
    cases hs
    exact ⟨rfl, rfl, rfl, rfl, by simp only [goto]; split_ifs <;> rfl, .inl rfl, .inl ⟨rfl, rfl⟩⟩
  | cooldown why since =>
    simp only [Local.step, hpc, Option.map_eq_some_iff] at hs
    obtain ⟨n, _, hs⟩ := hs
    cases hs
    exact ⟨rfl, rfl, rfl, rfl, by simp only [goto]; split_ifs <;> rfl, .inl rfl, .inl ⟨rfl, rfl⟩⟩
  | release why since =>
    simp only [Local.step, hpc, Option.map_eq_some_iff] at hs
    obtain ⟨n, _, hs⟩ := hs
    cases why with
    | drop =>
      cases hs
      exact ⟨rfl, rfl, rfl, rfl, rfl, .inr rfl, .inr ⟨rfl, rfl⟩⟩
    | discard gen =>
      cases hs
      exact ⟨rfl, rfl, rfl, rfl, rfl, .inr rfl, .inl ⟨rfl, rfl⟩⟩
  | candidate gen =>
    simp only [Local.step, hpc] at hs
    split at hs <;> cases hs
    exact ⟨rfl, rfl, rfl, rfl, rfl, .inl rfl, .inl ⟨rfl, rfl⟩⟩
  | setSlot gen ptr =>
    simp only [Local.step, hpc, Option.some.injEq] at hs
    split at hs <;> cases hs <;> exact ⟨rfl, rfl, rfl, rfl, rfl, .inl rfl, .inl ⟨rfl, rfl⟩⟩
  | wrongControl | panic =>
    simp only [Local.step, hpc, Option.some.injEq] at hs
    cases hs
    exact ⟨rfl, rfl, rfl, rfl, rfl, .inl rfl, .inl ⟨rfl, rfl⟩⟩

theorem Local.Listed.step (hm : m.Listed) (hx : x.Listed m)
    (hs : x.step w l i m = some (m', x')) : Local.Kept m m' x x' := by
  cases hg : x.pc.getting with
  | false =>
    obtain ⟨hl, hn, hp, ha, hg', hnode, hw⟩ := step_outside hs hg
    refine ⟨hm.of_eq hl hn hp ha, .outside ?_ hg' ?_, .of_eq hn hp ha, fun h hc => ?_⟩
    · rw [hp]
      rcases hw with ⟨h₁, h₂⟩ | ⟨h₁, h₂⟩
      · rw [h₁, h₂]
        exact hx.walked
      · rw [h₁, h₂]
        exact ⟨List.prefix_rfl, List.nil_suffix⟩
    · intro n h
      rw [hp]
      rcases hnode with he | he
      · exact hx.node n (he ▸ h)
      · cases he.symm.trans h
    · cases hg'.symm.trans (LocalPc.getting_of_creating hc)
  | true =>
    have hnone := hx.without hg
    cases hpc : x.pc with
    | head =>
      simp only [Local.step, hpc, Option.some.injEq] at hs
      cases hs
      refine .of_eq hm (.visit (.start hm.linked) hnone) ?_
      cases m.listHead <;> rfl
    | inUse n =>
      simp only [Local.step, hpc, Option.some.injEq] at hs
      cases hs
      have hv : x.pc.visiting = some n := by rw [hpc]; rfl
      exact .of_eq hm (hx.stay hv (by split <;> rfl)) (by simp only [goto]; split <;> rfl)
    | writers n =>
      simp only [Local.step, hpc, Option.some.injEq] at hs
      cases hs
      have hv : x.pc.visiting = some n := by rw [hpc]; rfl
      exact .of_eq hm (hx.stay hv (by split <;> rfl)) (by simp only [goto]; split <;> rfl)
    | exchange n epoch =>
      simp only [Local.step, hpc, Option.some.injEq] at hs
      have hv : x.pc.visiting = some n := by rw [hpc]; rfl
      have hstay : (x.goto (.claim n)).Listed m := hx.stay hv rfl
      split at hs
      · cases hs
        refine ⟨hm.of_eq rfl rfl rfl rfl, hstay.of_eq rfl rfl rfl, .of_eq rfl rfl rfl, ?_⟩
        intro k hk
        cases hk
      · cases hs
        exact .of_eq hm hstay rfl
    | claim n =>
      simp only [Local.step, hpc] at hs
      have hv : x.pc.visiting = some n := by rw [hpc]; rfl
      split at hs
      · cases hs
        refine ⟨hm.of_eq rfl rfl rfl rfl, .outside hx.walked rfl ?_, .of_eq rfl rfl rfl, ?_⟩
        · intro k hk
          cases hk
          exact (hx.walking n hv).1
        · intro k hk
          cases hk
      · cases hs
        exact .of_eq hm (hx.stay hv rfl) rfl
    | next n =>
      simp only [Local.step, hpc, Option.some.injEq] at hs
      cases hs
      have hv : x.pc.visiting = some n := by rw [hpc]; rfl
      refine .of_eq hm (.visit (hx.walking n hv).2 hnone) ?_
      cases m.next n <;> rfl
    | alloc =>
      simp only [Local.step, hpc] at hs
      split at hs
      · cases hs
      · rename_i hfree
        have hfree : m.allocated i.fresh = false := by simpa using hfree
        cases hs
        have hne : ∀ n, m.allocated n = true → n ≠ i.fresh := by
          rintro n hn rfl
          rw [hfree] at hn
          cases hn
        have halloc : ∀ n, m.allocated n = true →
            Function.update m.allocated i.fresh true n = true := by
          intro n hn
          rw [Function.update_of_ne (hne n hn)]
          exact hn
        have hnext : ∀ n, m.allocated n = true → Function.update m.next i.fresh none n = m.next n :=
          fun n hn => Function.update_of_ne (hne n hn) _ _
        refine ⟨⟨?_, ?_⟩, ?_, ⟨?_, .inl rfl, halloc⟩, ?_⟩
        · exact hm.linked.congr fun n hn => hnext n (hm.allocated n hn)
        · exact fun n hn => halloc n (hm.allocated n hn)
        · refine .create hx.walked hnone rfl (Function.update_self ..) (fun hmem => ?_) ?_
          · exact hne _ (hm.allocated _ hmem) rfl
          · intro head hpre
            cases hpre
        · exact fun n hn _ => hnext n hn
        · intro h hc
          cases hc
          exact .inr hfree
    | loadHead h =>
      simp only [Local.step, hpc, Option.some.injEq] at hs
      cases hs
      have hc : x.pc.creating = some h := by rw [hpc]; rfl
      obtain ⟨ha, hp, _⟩ := hx.created h hc
      refine ⟨hm, .create hx.walked hnone rfl ha hp ?_, .of_eq rfl rfl rfl, ?_⟩
      · intro o hpre
        cases hpre
      · intro k hk
        cases hk
        exact .inl hc
    | link h head =>
      simp only [Local.step, hpc, Option.some.injEq] at hs
      cases hs
      have hc : x.pc.creating = some h := by rw [hpc]; rfl
      obtain ⟨ha, hp, _⟩ := hx.created h hc
      have hnext : ∀ n, n ≠ h → Function.update m.next h head n = m.next n :=
        fun n hn => Function.update_of_ne hn _ _
      refine ⟨⟨?_, hm.allocated⟩, .create hx.walked hnone rfl ha hp fun o ho => ?_,
        ⟨?_, .inl rfl, fun _ => id⟩, ?_⟩
      · refine hm.linked.congr fun n hn => hnext n ?_
        rintro rfl
        exact hp hn
      · cases ho
        exact Function.update_self ..
      · intro n _ hn
        refine hnext n ?_
        rintro rfl
        exact hn hc
      · intro k hk
        cases hk
        exact .inl hc
    | prepend h head =>
      simp only [Local.step, hpc] at hs
      have hc : x.pc.creating = some h := by rw [hpc]; rfl
      obtain ⟨ha, hp, hnext⟩ := hx.created h hc
      split at hs
      · rename_i hhead
        cases hs
        refine ⟨⟨⟨rfl, ?_⟩, ?_⟩, .outside ?_ rfl ?_, ⟨fun _ _ _ => rfl, ?_, fun _ => id⟩, ?_⟩
        · rw [hnext head hpc, ← hhead.1]
          exact hm.linked
        · intro n hn
          rcases List.mem_cons.1 hn with rfl | hn
          · exact ha
          · exact hm.allocated n hn
        · exact ⟨hx.walked.1, hx.walked.2.trans (List.suffix_cons ..)⟩
        · intro n hn
          cases hn
          exact List.mem_cons_self ..
        · exact .inr ⟨h, hc, rfl⟩
        · intro k hk
          cases hk
      · cases hs
        refine ⟨hm, .create hx.walked hnone rfl ha hp ?_, .of_eq rfl rfl rfl, ?_⟩
        · intro o hpre
          cases hpre
        · intro k hk
          cases hk
          exact .inl hc
    | _ =>
      rw [hpc] at hg
      cases hg

theorem Writer.step_list [DecidableEq Sto] (hs : y.step i m = some (m', y')) :
    m'.listHead = m.listHead ∧ m'.next = m.next ∧ m'.published = m.published ∧
      m'.allocated = m.allocated := by
  cases hpc : y.pc with
  | rest | done =>
    simp only [Writer.step, hpc] at hs
    cases hs
  | head | load | addr | next =>
    simp only [Writer.step, hpc, Option.some.injEq] at hs
    cases hs
    exact ⟨rfl, rfl, rfl, rfl⟩
  | reserve | unwind =>
    simp only [Writer.step, hpc, Option.some.injEq] at hs
    cases hs
    exact ⟨rfl, rfl, rfl, rfl⟩
  | recheck =>
    simp only [Writer.step, hpc, Option.some.injEq] at hs
    cases hs
    exact ⟨rfl, rfl, rfl, rfl⟩
  | offer n c =>
    simp only [Writer.step, hpc] at hs
    split at hs
    · simp only [Option.some.injEq] at hs
      split at hs <;> cases hs <;> exact ⟨rfl, rfl, rfl, rfl⟩
    · cases hs
  | pay n todo =>
    cases todo with
    | nil =>
      simp only [Writer.step, hpc, Option.some.injEq] at hs
      cases hs
      exact ⟨rfl, rfl, rfl, rfl⟩
    | cons j js =>
      simp only [Writer.step, hpc, Option.some.injEq] at hs
      cases hs
      simp only [Shared.pay]
      split <;> exact ⟨rfl, rfl, rfl, rfl⟩

theorem Writer.Listed.step [DecidableEq Sto] (hm : m.Listed) (hy : y.Listed m)
    (hs : y.step i m = some (m', y')) : y'.Listed m := by
  cases hpc : y.pc with
  | rest | done =>
    simp only [Writer.step, hpc] at hs
    cases hs
  | head =>
    simp only [Writer.step, hpc, Option.some.injEq] at hs
    cases hs
    exact .visit (.start hm.linked)
  | reserve n =>
    simp only [Writer.step, hpc, Option.some.injEq] at hs
    cases hs
    refine hy.stay rfl rfl (fun k hk => ?_) (by intro h; cases h)
    rw [hpc]
    exact hk
  | load n =>
    simp only [Writer.step, hpc, Option.some.injEq] at hs
    cases hs
    obtain ⟨hv, hd⟩ := look_pc m y n
    refine hy.stay rfl rfl (fun k hk => ?_) hd
    rw [hpc]
    exact hv.symm.trans hk
  | addr n c =>
    simp only [Writer.step, hpc, Option.some.injEq] at hs
    cases hs
    refine hy.stay rfl rfl (fun k hk => ?_) (by simp only [goto]; split <;> intro h <;> cases h)
    rw [hpc]
    simp only [goto] at hk
    split at hk <;> exact hk
  | recheck n c =>
    simp only [Writer.step, hpc, Option.some.injEq] at hs
    cases hs
    obtain ⟨hv, hd⟩ := look_pc m y n
    split
    · refine hy.stay rfl rfl (fun k hk => ?_) (by intro h; cases h)
      rw [hpc]
      exact hk
    · refine hy.stay rfl rfl (fun k hk => ?_) hd
      rw [hpc]
      exact hv.symm.trans hk
  | offer n c =>
    simp only [Writer.step, hpc] at hs
    obtain ⟨hv, hd⟩ := look_pc m y n
    split at hs
    · simp only [Option.some.injEq] at hs
      split at hs
      · cases hs
        refine hy.stay rfl rfl (fun k hk => ?_) (by intro h; cases h)
        rw [hpc]
        exact hk
      · cases hs
        refine hy.stay rfl rfl (fun k hk => ?_) hd
        rw [hpc]
        exact hv.symm.trans hk
    · cases hs
  | pay n todo =>
    cases todo with
    | nil =>
      simp only [Writer.step, hpc, Option.some.injEq] at hs
      cases hs
      refine hy.stay rfl rfl (fun k hk => ?_) (by intro h; cases h)
      rw [hpc]
      exact hk
    | cons j js =>
      simp only [Writer.step, hpc, Option.some.injEq] at hs
      cases hs
      refine hy.stay rfl rfl (fun k hk => ?_) (by intro h; cases h)
      rw [hpc]
      exact hk
  | next n =>
    simp only [Writer.step, hpc, Option.some.injEq] at hs
    cases hs
    have hv : y.pc.visiting = some n := by rw [hpc]; rfl
    exact .visit (hy.walking n hv).2
  | unwind n =>
    simp only [Writer.step, hpc, Option.some.injEq] at hs
    cases hs
    exact hy.stay rfl rfl (by intro _ h; cases h) (by intro h; cases h)

theorem Shared.settle_list (m : Shared Node L Sto) (d : Debt Node) (ptr : Nat) :
    (m.settle d ptr).listHead = m.listHead ∧ (m.settle d ptr).next = m.next ∧
      (m.settle d ptr).published = m.published ∧ (m.settle d ptr).allocated = m.allocated := by
  simp only [settle]
  split <;> exact ⟨rfl, rfl, rfl, rfl⟩

variable [DecidableEq L]

section
omit [DecidableEq Node]

theorem State.Listed.setLocal (h : σ.Listed) (hk : Local.Kept σ.shared m' (σ.locals l) x') :
    (σ.setLocal l (m', x')).Listed := by
  obtain ⟨hm, hl, hw, hc⟩ := h
  obtain ⟨hm', hx', he, hnew⟩ := hk
  have ho : ∀ n, (σ.locals l).pc.creating = some n → n ∉ σ.shared.published :=
    fun n hn => ((hl l).created n hn).2.1
  refine ⟨hm', fun k => ?_, fun w => (hw w).extend hm he ho, ?_⟩
  · by_cases hkl : k = l
    · subst hkl
      simpa only [State.setLocal, Function.update_self] using hx'
    · simp only [State.setLocal, Function.update_of_ne hkl]
      exact (hl k).extend hm he (fun n hn hn' => hkl (hc k l n hn' hn)) ho
  · -- a node is created by one thread, as it was not allocated before
    have hnew : ∀ k n, k ≠ l → x'.pc.creating = some n → (σ.locals k).pc.creating ≠ some n := by
      intro k n hkl hn hk
      rcases hnew n hn with h | h
      · exact hkl (hc k l n hk h)
      · cases h.symm.trans ((hl k).created n hk).1
    intro k₁ k₂ n h₁ h₂
    simp only [State.setLocal] at h₁ h₂
    by_cases hk₁ : k₁ = l <;> by_cases hk₂ : k₂ = l
    · rw [hk₁, hk₂]
    · subst hk₁
      rw [Function.update_self] at h₁
      rw [Function.update_of_ne hk₂] at h₂
      exact absurd h₂ (hnew k₂ n hk₂ h₁)
    · subst hk₂
      rw [Function.update_self] at h₂
      rw [Function.update_of_ne hk₁] at h₁
      exact absurd h₁ (hnew k₁ n hk₁ h₂)
    · rw [Function.update_of_ne hk₁] at h₁
      rw [Function.update_of_ne hk₂] at h₂
      exact hc k₁ k₂ n h₁ h₂

end

variable [DecidableEq W] [DecidableEq Sto]

theorem State.Listed.step (h : σ.Listed) (hs : σ.step width a = some σ') : σ'.Listed := by
  have hself : ∀ w y', Writer.Listed σ.shared y' → ∀ v,
      (Function.update σ.writers w y' v).Listed σ.shared := by
    intro w y' hy' v
    by_cases hv : v = w
    · subst hv
      rwa [Function.update_self]
    · rw [Function.update_of_ne hv]
      exact h.writers v
  cases a with
  | begin l op =>
    simp only [State.step, Option.map_eq_some_iff] at hs
    obtain ⟨x', hx', rfl⟩ := hs
    obtain ⟨hL, hc⟩ := (h.locals l).begin hx'
    exact h.setLocal (.of_eq h.shared hL hc)
  | run l i =>
    simp only [State.step, Option.map_eq_some_iff] at hs
    obtain ⟨⟨m', x'⟩, hx', rfl⟩ := hs
    exact h.setLocal ((h.locals l).step h.shared hx')
  | payAll w S ptr =>
    simp only [State.step, Option.map_eq_some_iff] at hs
    obtain ⟨y', hy', rfl⟩ := hs
    exact h.of_eq rfl (hself w y' ((h.writers w).begin hy')) rfl rfl rfl rfl
  | walk w i =>
    simp only [State.step, Option.map_eq_some_iff] at hs
    obtain ⟨⟨m', y'⟩, hy', rfl⟩ := hs
    obtain ⟨h₁, h₂, h₃, h₄⟩ := Writer.step_list hy'
    exact h.of_eq rfl (hself w y' ((h.writers w).step h.shared hy')) h₁ h₂ h₃ h₄
  | abort w =>
    simp only [State.step, Option.map_eq_some_iff] at hs
    obtain ⟨y', hy', rfl⟩ := hs
    exact h.of_eq rfl (hself w y' ((h.writers w).abort hy')) rfl rfl rfl rfl
  | dropGuard d ptr =>
    simp only [State.step] at hs
    split at hs <;> cases hs
    obtain ⟨h₁, h₂, h₃, h₄⟩ := Shared.settle_list
      (σ.shared.setGuards d ptr (σ.shared.guards d ptr - 1)) d ptr
    exact h.of_eq rfl h.writers h₁ h₂ h₃ h₄

theorem State.Listed.reach (hr : (registry width Node L W Sto).Reach ok σ) : σ.Listed := by
  refine hr.invariant ?_ fun _ _ _ h _ hs => h.step hs
  rintro σ rfl
  refine ⟨⟨.nil _, (by intro _ h; cases h)⟩, fun l => ?_, fun w => ?_, fun l k h hl _ => ?_⟩
  · exact .outside ⟨List.prefix_rfl, List.suffix_rfl⟩ rfl (by intro _ h; cases h)
  · exact ⟨⟨List.prefix_rfl, List.suffix_rfl⟩, (by intro _ h; cases h), (by intro h; cases h)⟩
  · cases hl

end ArcSwap.Registry
