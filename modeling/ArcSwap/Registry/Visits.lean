import ArcSwap.Registry.Traverse
import ArcSwap.Concurrent.Trace

namespace ArcSwap.Registry
set_option autoImplicit true

open Concurrent (Linked Reachable Walk)

abbrev Happened (Node L W Sto : Type) :=
  Concurrent.Event (State Node L W Sto) (Action Node L W Sto)

variable {Node L W Sto : Type} {m m' : Shared Node L Sto} {x x' : Local Node Sto}
  {y y' : Writer Node Sto} {σ σ' : State Node L W Sto} {a : Action Node L W Sto}
  {tr : List (Happened Node L W Sto)}

def Action.ofLocal [DecidableEq L] (l : L) : Action Node L W Sto → Bool
  | .begin k _ | .run k _ => k = l
  | _ => false

def Action.ofWriter [DecidableEq W] (w : W) : Action Node L W Sto → Bool
  | .payAll v _ _ | .walk v _ | .abort v => v = w
  | _ => false

/-- The node that a step puts into the list. -/
def publication [DecidableEq Node] (e : Happened Node L W Sto) : Option Node :=
  match e.act with
  | .run l _ =>
    match (e.pre.locals l).pc with
    | .prepend node _ => if (e.post.locals l).node = some node then some node else none
    | _ => none
  | _ => none

/-- A writer in `help` finds another control word than the one it has read. -/
def missed [DecidableEq W] (w : W) (e : Happened Node L W Sto) : Bool :=
  match e.act, (e.pre.writers w).pc with
  | .walk v _, .recheck n c | .walk v _, .offer n c => v = w ∧ e.pre.shared.control n ≠ c
  | _, _ => false

/-- A traversal of `Node::get` goes on, has come to its end, or has claimed a node. -/
def Local.Traversing (x : Local Node Sto) : Prop :=
  x.pc.visiting ≠ none ∨ x.pc = .alloc ∨ x.node ≠ none

/-- A traversal of `Debt::pay_all` goes on, has come to its end, or has panicked. -/
def Writer.Traversing (y : Writer Node Sto) : Prop :=
  y.pc.visiting ≠ none ∨ y.pc = .done ∨ y.pc = .rest

theorem Writer.head_visit (hm : m.Listed) :
    (({ y with snapshot := m.published, visited := [] } : Writer Node Sto).visit m.listHead).rank ≤
      15 * m.published.length :=
  Nat.le_of_lt_succ (Writer.rank_visit (m := m) (Walk.start hm.linked))

theorem Local.head_visit (hm : m.Listed) :
    (({ x with snapshot := m.published, visited := [] } : Local Node Sto).visit m.listHead).rank ≤
      5 * m.published.length :=
  Nat.le_of_lt_succ (Local.rank_visit (m := m) (Walk.start hm.linked))

theorem Writer.abort_rank (hs : y.abort = some y') :
    y'.rank < y.rank ∧ y'.snapshot = y.snapshot ∧ y'.visited = y.visited := by
  cases hpc : y.pc with
  | load n | addr n | recheck n | offer n | pay n =>
    simp only [abort, hpc, Option.some.injEq] at hs
    cases hs
    refine ⟨?_, rfl, rfl⟩
    simp only [goto, rank, hpc]
    omega
  | _ =>
    simp only [abort, hpc] at hs
    cases hs

section
variable [DecidableEq Node]

theorem Local.head_rank (hm : m.Listed) (hpc : x.pc = .head)
    (hs : x.step w l i m = some (m', x')) :
    x'.rank ≤ 5 * m.published.length ∧ x'.Traversing := by
  simp only [Local.step, hpc, Option.some.injEq] at hs
  cases hs
  refine ⟨head_visit hm, ?_⟩
  cases m.listHead with
  | none => exact .inr (.inl rfl)
  | some n => exact .inl (Option.some_ne_none n)

theorem Writer.head_rank [DecidableEq Sto] (hm : m.Listed) (hpc : y.pc = .head)
    (hs : y.step i m = some (m', y')) :
    y'.rank ≤ 15 * m.published.length ∧ y'.Traversing := by
  simp only [Writer.step, hpc, Option.some.injEq] at hs
  cases hs
  refine ⟨head_visit hm, ?_⟩
  cases m.listHead with
  | none => exact .inr (.inl rfl)
  | some n => exact .inl (Option.some_ne_none n)

theorem Writer.walk_enabled [DecidableEq Sto] (hv : y.pc.visiting ≠ none) (hi : i.word % 4 = 0)
    (m : Shared Node L Sto) : ∃ r, y.step i m = some r := by
  cases hpc : y.pc with
  | rest | head | done =>
    rw [hpc] at hv
    exact absurd rfl hv
  | pay n todo => cases todo <;> simp only [Writer.step, hpc, Option.some.injEq, exists_eq']
  | _ => simp only [Writer.step, hpc, hi, if_true, Option.some.injEq, exists_eq']

theorem Writer.missed_rank [DecidableEq Sto] (hpc : y.pc = .recheck n c ∨ y.pc = .offer n c)
    (hc : m.control n ≠ c) (hs : y.step i m = some (m', y')) : y'.rank ≤ y.rank + 1 := by
  have hlook := rank_look m y n
  rcases hpc with hpc | hpc
  · simp only [Writer.step, hpc, hc, if_false, Option.some.injEq] at hs
    cases hs
    simp only [rank, hpc] at hlook ⊢
    exact hlook
  · simp only [Writer.step, hpc, hc, if_false] at hs
    split at hs <;> cases hs
    simp only [rank, hpc] at hlook ⊢
    exact hlook

theorem Local.traverse_goes_on (hs : x.step w l i m = some (m', x')) (hv : x.pc.visiting ≠ none) :
    x'.Traversing := by
  cases hpc : x.pc with
  | inUse n | writers n =>
    simp only [Local.step, hpc, Option.some.injEq] at hs
    cases hs
    left
    simp only [goto]
    split <;> exact Option.some_ne_none n
  | exchange n =>
    simp only [Local.step, hpc, Option.some.injEq] at hs
    split at hs <;> cases hs <;> exact .inl (Option.some_ne_none n)
  | claim n =>
    simp only [Local.step, hpc] at hs
    split at hs <;> cases hs
    · exact .inr (.inr (Option.some_ne_none n))
    · exact .inl (Option.some_ne_none n)
  | next n =>
    simp only [Local.step, hpc, Option.some.injEq] at hs
    cases hs
    cases m.next n with
    | none => exact .inr (.inl rfl)
    | some k => exact .inl (Option.some_ne_none k)
  | _ =>
    rw [hpc] at hv
    exact absurd rfl hv

theorem Writer.traverse_goes_on [DecidableEq Sto] (hs : y.step i m = some (m', y'))
    (hv : y.pc.visiting ≠ none) : y'.Traversing := by
  have hlook : ∀ n, (look m y n).pc.visiting ≠ none := by
    intro n
    rw [(look_pc m y n).1]
    exact Option.some_ne_none n
  cases hpc : y.pc with
  | reserve n =>
    simp only [Writer.step, hpc, Option.some.injEq] at hs
    cases hs
    exact .inl (Option.some_ne_none n)
  | load n =>
    simp only [Writer.step, hpc, Option.some.injEq] at hs
    cases hs
    exact .inl (hlook n)
  | addr n =>
    simp only [Writer.step, hpc, Option.some.injEq] at hs
    cases hs
    left
    simp only [goto]
    split <;> exact Option.some_ne_none n
  | recheck n =>
    simp only [Writer.step, hpc, Option.some.injEq] at hs
    split at hs <;> cases hs
    · exact .inl (Option.some_ne_none n)
    · exact .inl (hlook n)
  | offer n =>
    simp only [Writer.step, hpc] at hs
    split at hs
    · simp only [Option.some.injEq] at hs
      split at hs <;> cases hs
      · exact .inl (Option.some_ne_none n)
      · exact .inl (hlook n)
    · cases hs
  | pay n todo =>
    cases todo <;> simp only [Writer.step, hpc, Option.some.injEq] at hs <;> cases hs <;>
      exact .inl (Option.some_ne_none n)
  | next n =>
    simp only [Writer.step, hpc, Option.some.injEq] at hs
    cases hs
    cases m.next n with
    | none => exact .inr (.inl rfl)
    | some k => exact .inl (Option.some_ne_none k)
  | unwind n =>
    simp only [Writer.step, hpc, Option.some.injEq] at hs
    cases hs
    exact .inr (.inr rfl)
  | _ =>
    rw [hpc] at hv
    exact absurd rfl hv

end

variable [DecidableEq Node] [DecidableEq L] [DecidableEq W] [DecidableEq Sto]

theorem State.step_local (hs : σ.step width a = some σ') (ha : a.ofLocal l = false) :
    σ'.locals l = σ.locals l := by
  cases a with
  | begin k op | run k i =>
    simp only [State.step, Option.map_eq_some_iff] at hs
    obtain ⟨_, _, rfl⟩ := hs
    exact Function.update_of_ne (fun he => of_decide_eq_false ha he.symm) ..
  | payAll | walk | abort =>
    simp only [State.step, Option.map_eq_some_iff] at hs
    obtain ⟨_, _, rfl⟩ := hs
    rfl
  | dropGuard =>
    simp only [State.step] at hs
    split at hs <;> cases hs
    rfl

theorem State.step_writer (hs : σ.step width a = some σ') (ha : a.ofWriter w = false) :
    σ'.writers w = σ.writers w := by
  cases a with
  | payAll v | walk v | abort v =>
    simp only [State.step, Option.map_eq_some_iff] at hs
    obtain ⟨_, _, rfl⟩ := hs
    exact Function.update_of_ne (fun he => of_decide_eq_false ha he.symm) ..
  | begin | run =>
    simp only [State.step, Option.map_eq_some_iff] at hs
    obtain ⟨_, _, rfl⟩ := hs
    rfl
  | dropGuard =>
    simp only [State.step] at hs
    split at hs <;> cases hs
    rfl

theorem trace_after (width : Nat)
    (ok : Action Nat Bool Unit Unit → State Nat Bool Unit Unit → Prop) [∀ a s, Decidable (ok a s)]
    (as : List (Action Nat Bool Unit Unit)) (a : Action Nat Bool Unit Unit)
    (bs : List (Action Nat Bool Unit Unit))
    (p : State Nat Bool Unit Unit → State Nat Bool Unit Unit →
      List (Happened Nat Bool Unit Unit) → State Nat Bool Unit Unit → Bool)
    (h : (((registry width Nat Bool Unit Unit).exec ok (as.map fun a _ => some a)
      (start Nat Bool Unit Unit)).any fun σ₀ =>
        decide (ok a σ₀) && (σ₀.step width a).any fun σ =>
          ((registry width Nat Bool Unit Unit).record ok (bs.map fun a _ => some a) [] σ).any
            fun r => p σ₀ σ r.1 r.2) = true) :
    ∃ σ₀ σ tr σ', (registry width Nat Bool Unit Unit).Reach ok σ₀ ∧
      (registry width Nat Bool Unit Unit).Reach ok σ ∧ σ₀.step width a = some σ ∧
      (registry width Nat Bool Unit Unit).Trace ok σ tr σ' ∧ p σ₀ σ tr σ' = true := by
  rw [Option.any_eq_true] at h
  obtain ⟨σ₀, hσ₀, h⟩ := h
  rw [Bool.and_eq_true, decide_eq_true_eq, Option.any_eq_true] at h
  obtain ⟨hok, σ, hσ, h⟩ := h
  rw [Option.any_eq_true] at h
  obtain ⟨⟨tr, σ'⟩, hr, hp⟩ := h
  have hr₀ : (registry width Nat Bool Unit Unit).Reach ok σ₀ := .exec (.init rfl) hσ₀
  exact ⟨σ₀, σ, tr, σ', hr₀, hr₀.step hok (a := a) hσ, hσ, .record .nil hr, hp⟩

/-- The list grows by the nodes whose publication succeeds, and loses none. -/
theorem trace_published (hr : (registry width Node L W Sto).Reach ok σ)
    (ht : (registry width Node L W Sto).Trace ok σ tr σ') :
    σ'.shared.published = tr.filterMap publication ++ σ.shared.published := by
  induction ht with
  | nil => rfl
  | step h ha hs ih =>
    rename_i tr σ₁ b σ₂
    have hL := State.Listed.reach (h.run.reach hr)
    rw [List.filterMap_cons]
    rcases State.step_published hs with he | ⟨l, i, node, head, rfl, hpc, he, hn⟩
    · have hnone : publication ⟨σ₁, b, σ₂⟩ = none := by
        cases b with
        | run l i =>
          cases hpc : (σ₁.locals l).pc with
          | prepend node head =>
            simp only [publication, hpc]
            refine if_neg fun hn => ?_
            rw [(hL.prepend_published hpc hs).1 hn] at he
            exact List.cons_ne_self _ _ he
          | _ => simp only [publication, hpc]
        | _ => rfl
      rw [hnone, he, ih]
    · have hsome : publication ⟨σ₁, .run l i, σ₂⟩ = some node := by
        simp only [publication, hpc, hn, if_true]
      rw [hsome, he, ih, List.cons_append]

/-- As long as a `LocalNode` only traverses the list, each of its steps brings it closer to the
end, whatever others do. -/
theorem local_traversal (hr : (registry width Node L W Sto).Reach ok σ)
    (ht : (registry width Node L W Sto).Trace ok σ tr σ')
    (hin : ∀ e ∈ tr, e.act.ofLocal l = true → (e.pre.locals l).pc.visiting ≠ none) :
    tr.countP (·.act.ofLocal l) + (σ'.locals l).rank ≤ (σ.locals l).rank ∧
      (σ'.locals l).snapshot = (σ.locals l).snapshot ∧
      ((σ.locals l).Traversing → (σ'.locals l).Traversing) := by
  induction ht with
  | nil => exact ⟨Nat.le_of_eq (Nat.zero_add _), rfl, id⟩
  | step h ha hs ih =>
    rename_i tr σ₁ b σ₂
    obtain ⟨hcount, hsnap, hgo⟩ := ih fun e he => hin e (List.mem_cons_of_mem _ he)
    rw [List.countP_cons]
    cases hb : b.ofLocal l with
    | false =>
      rw [State.step_local hs hb]
      exact ⟨hcount, hsnap, hgo⟩
    | true =>
      have hv := hin _ (List.mem_cons_self ..) hb
      have hL := State.Listed.reach (h.run.reach hr)
      cases b with
      | begin k op =>
        obtain rfl := of_decide_eq_true hb
        simp only [registry, State.step, Option.map_eq_some_iff] at hs
        obtain ⟨x', hx', _⟩ := hs
        rw [Local.begin_rest hx'] at hv
        exact absurd rfl hv
      | run k i =>
        obtain rfl := of_decide_eq_true hb
        obtain ⟨r, hstep, hlt⟩ := (hL.locals k).traverse_ends hv width k i
        simp only [registry, State.step, hstep, Option.map_some, Option.some.injEq] at hs
        cases hs
        have hg : (σ₁.locals k).pc.getting = true := by
          obtain ⟨n, hn⟩ := Option.ne_none_iff_exists'.1 hv
          exact LocalPc.getting_of_visiting hn
        have hhead : (σ₁.locals k).pc ≠ .head := by
          intro he
          rw [he] at hv
          exact hv rfl
        have hs' := Local.getting_snapshot hstep hg hhead
        have hgo' := Local.traverse_goes_on hstep hv
        simp only [State.setLocal, Function.update_self, if_true]
        exact ⟨by omega, hs'.trans hsnap, fun _ => hgo'⟩
      | _ => cases hb

/-- A writer comes closer to the end with each of its steps, but for those in which its `help` has
found another control word than the one it has read. -/
theorem writer_traversal (hr : (registry width Node L W Sto).Reach ok σ)
    (ht : (registry width Node L W Sto).Trace ok σ tr σ')
    (hin : ∀ e ∈ tr, e.act.ofWriter w = true → (e.pre.writers w).pc.visiting ≠ none) :
    tr.countP (·.act.ofWriter w) + (σ'.writers w).rank ≤
        (σ.writers w).rank + 2 * tr.countP (missed w) ∧
      (σ'.writers w).snapshot = (σ.writers w).snapshot ∧
      ((σ.writers w).Traversing → (σ'.writers w).Traversing) := by
  induction ht with
  | nil => exact ⟨Nat.le_of_eq (Nat.zero_add _), rfl, id⟩
  | step h ha hs ih =>
    rename_i tr σ₁ b σ₂
    obtain ⟨hcount, hsnap, hgo⟩ := ih fun e he => hin e (List.mem_cons_of_mem _ he)
    rw [List.countP_cons, List.countP_cons]
    cases hb : b.ofWriter w with
    | false =>
      rw [State.step_writer hs hb]
      refine ⟨?_, hsnap, hgo⟩
      rw [if_neg Bool.false_ne_true]
      omega
    | true =>
      have hv := hin _ (List.mem_cons_self ..) hb
      have hL := State.Listed.reach (h.run.reach hr)
      cases b with
      | payAll k S p =>
        obtain rfl := of_decide_eq_true hb
        simp only [registry, State.step, Option.map_eq_some_iff] at hs
        obtain ⟨y', hy', _⟩ := hs
        cases hpc : (σ₁.writers k).pc with
        | rest | done =>
          rw [hpc] at hv
          exact absurd rfl hv
        | _ =>
          simp only [Writer.begin, hpc] at hy'
          cases hy'
      | abort k =>
        obtain rfl := of_decide_eq_true hb
        simp only [registry, State.step, Option.map_eq_some_iff] at hs
        obtain ⟨y', hy', rfl⟩ := hs
        obtain ⟨hlt, hs', _⟩ := Writer.abort_rank hy'
        simp only [State.setWriter, Function.update_self]
        refine ⟨?_, hs'.trans hsnap, fun _ => ?_⟩
        · simp only [if_true]
          omega
        · obtain ⟨n, _, rfl⟩ := Writer.abort_pc hy'
          exact .inl (Option.some_ne_none n)
      | walk k i =>
        obtain rfl := of_decide_eq_true hb
        simp only [registry, State.step, Option.map_eq_some_iff] at hs
        obtain ⟨⟨m', y'⟩, hy', rfl⟩ := hs
        have hhead : (σ₁.writers k).pc ≠ .head := by
          intro he
          rw [he] at hv
          exact hv rfl
        have hs' := Writer.step_snapshot hy' hhead
        simp only [State.setWriter, Function.update_self]
        refine ⟨?_, hs'.trans hsnap, fun _ => Writer.traverse_goes_on hy' hv⟩
        rcases (hL.writers k).traverse_ends hv hy' with hlt | ⟨n, c, hpc, hc⟩
        · simp only [if_true]
          omega
        · have hle := Writer.missed_rank hpc hc hy'
          have hm : missed k ⟨σ₁, .walk k i, σ₁.setWriter k (m', y')⟩ = true := by
            rcases hpc with hpc | hpc <;> simp [missed, hpc, hc]
          simp only [State.setWriter] at hm
          simp only [hm, if_true]
          omega
      | _ => cases hb

/-- From its claim to its swap in `start_cooldown` nobody else claims the node of a `LocalNode`. -/
theorem owned_meanwhile (hr : (registry width Node L W Sto).Reach ok σ)
    (ht : (registry width Node L W Sto).Trace ok σ tr σ') (ho : (σ.locals l).owns = some n)
    (hin : ∀ e ∈ tr, e.act.ofLocal l = true → ∀ why since,
      (e.pre.locals l).pc ≠ .cooldown why since) :
    (σ'.locals l).owns = some n ∧ σ'.shared.turns n = σ.shared.turns n := by
  induction ht with
  | nil => exact ⟨ho, rfl⟩
  | step h ha hs ih =>
    rename_i tr σ₁ b σ₂
    obtain ⟨ho₁, hturns⟩ := ih fun e he => hin e (List.mem_cons_of_mem _ he)
    have hr₁ := h.run.reach hr
    have hO := State.Owned.reach hr₁
    have hO' := State.Owned.reach (hr₁.step ha hs)
    have hholder := (hO.owner l n).1 ho₁
    by_cases heq : σ₂.shared.turns n = σ₁.shared.turns n
    · rw [← heq] at hholder hturns
      exact ⟨(hO'.owner l n).2 hholder, hturns⟩
    · obtain ⟨k, i, rfl, ⟨_, _, hclaim⟩ | ⟨hown, _, _, why, since, hpc⟩⟩ :=
        hO.step_turns (State.Listed.reach hr₁) hs heq
      · have halt := hO'.alternating n
        rw [hclaim] at halt
        rw [halt.1] at hholder
        cases hholder
      · have hk := (hO.owner k n).1 hown
        rw [hholder] at hk
        cases hk
        exact absurd hpc (hin _ (List.mem_cons_self ..) (decide_eq_true rfl) why since)

theorem trace_turns (ht : (registry width Node L W Sto).Trace ok σ tr σ')
    (hr : (registry width Node L W Sto).Reach ok σ) (n : Node) :
    σ.shared.turns n <:+ σ'.shared.turns n := by
  induction ht with
  | nil => exact List.suffix_rfl
  | step h ha hs ih =>
    rename_i tr σ₁ b σ₂
    have hr₁ := h.run.reach hr
    by_cases heq : σ₂.shared.turns n = σ₁.shared.turns n
    · rw [heq]
      exact ih
    · obtain ⟨k, i, _, ⟨_, _, ht⟩ | ⟨_, _, ht, _⟩⟩ :=
        (State.Owned.reach hr₁).step_turns (State.Listed.reach hr₁) hs heq <;>
      · rw [ht]
        exact ih.trans (List.suffix_cons ..)

/-- Over any part of a run: the list consists of the nodes that have been published, each of them
once, those of the beginning and those that were published since. A traversal that begins at the
beginning of the part comes to the nodes that had been published when it read the head, in their
order; it can always go on and makes a bounded number of steps, counting for a writer the times that
its `help` finds the control word changed, and ends when it has come to all of them, has claimed one
or panics. Claims and releases of a node alternate, nobody claims a node between a claim of it and
the owner's `start_cooldown`, and the assertion there holds. -/
theorem list_kept (hr : (registry width Node L W Sto).Reach ok σ)
    (ht : (registry width Node L W Sto).Trace ok σ tr σ') :
    (Linked σ'.shared.next σ'.shared.listHead σ'.shared.published ∧ σ'.shared.published.Nodup ∧
      (∀ n, Reachable σ'.shared.next σ'.shared.listHead n ↔ n ∈ σ'.shared.published) ∧
      σ'.shared.published = tr.filterMap publication ++ σ.shared.published) ∧
    (∀ l i σ₀, (registry width Node L W Sto).Reach ok σ₀ → (σ₀.locals l).pc = .head →
      σ₀.step width (.run l i) = some σ →
      (∀ e ∈ tr, e.act.ofLocal l = true → (e.pre.locals l).pc.visiting ≠ none) →
      (σ'.locals l).visited <+: σ₀.shared.published ∧
      tr.countP (·.act.ofLocal l) ≤ 5 * σ₀.shared.published.length ∧
      ((σ'.locals l).pc.visiting ≠ none → ∀ i, (σ'.step width (.run l i)).isSome) ∧
      ((σ'.locals l).pc.visiting = none →
        (σ'.locals l).pc = .alloc ∧ (σ'.locals l).visited = σ₀.shared.published ∨
          (σ'.locals l).node ≠ none)) ∧
    (∀ w i σ₀, (registry width Node L W Sto).Reach ok σ₀ → (σ₀.writers w).pc = .head →
      σ₀.step width (.walk w i) = some σ →
      (∀ e ∈ tr, e.act.ofWriter w = true → (e.pre.writers w).pc.visiting ≠ none) →
      (σ'.writers w).visited <+: σ₀.shared.published ∧
      tr.countP (·.act.ofWriter w) ≤
        15 * σ₀.shared.published.length + 2 * tr.countP (missed w) ∧
      ((σ'.writers w).pc.visiting ≠ none →
        ∀ i, i.word % 4 = 0 → (σ'.step width (.walk w i)).isSome) ∧
      ((σ'.writers w).pc.visiting = none →
        (σ'.writers w).pc = .done ∧ (σ'.writers w).visited = σ₀.shared.published ∨
          (σ'.writers w).pc = .rest)) ∧
    (∀ n, Alternating (σ'.shared.turns n) ∧ σ.shared.turns n <:+ σ'.shared.turns n ∧
      ∀ l, (σ'.locals l).owns = some n ↔ holder (σ'.shared.turns n) = some l) ∧
    (∀ l n, (σ.locals l).owns = some n → (∀ e ∈ tr, e.act.ofLocal l = true →
        ∀ why since, (e.pre.locals l).pc ≠ .cooldown why since) →
      (σ'.locals l).owns = some n ∧ σ'.shared.turns n = σ.shared.turns n) ∧
    ∀ l, (σ'.locals l).pc ≠ .assertion := by
  have hr' := ht.run.reach hr
  have hL := State.Listed.reach hr'
  have hO := State.Owned.reach hr'
  refine ⟨⟨hL.shared.linked, hL.shared.linked.nodup, fun n => hL.shared.linked.mem_iff,
    trace_published hr ht⟩, fun l i σ₀ hr₀ hpc hs hin => ?_, fun w i σ₀ hr₀ hpc hs hin => ?_,
    fun n => ⟨hO.alternating n, trace_turns ht hr n, fun l => hO.owner l n⟩,
    fun l n ho hin => owned_meanwhile hr ht ho hin, hO.asserted⟩
  · simp only [State.step, Option.map_eq_some_iff] at hs
    obtain ⟨⟨m', x'⟩, hx', rfl⟩ := hs
    obtain ⟨hcount, hsnap, hgo⟩ := local_traversal (l := l) hr ht hin
    simp only [State.setLocal, Function.update_self] at hcount hsnap hgo
    rw [Local.head_snapshot hx' hpc] at hsnap
    obtain ⟨hrank, htrav⟩ := Local.head_rank (State.Listed.reach hr₀).shared hpc hx'
    refine ⟨hsnap ▸ (hL.locals l).walked.1, by omega, fun hv i => ?_, fun hv => ?_⟩
    · obtain ⟨r, hstep, _⟩ := (hL.locals l).traverse_ends hv width l i
      simp only [State.step, hstep, Option.map_some, Option.isSome_some]
    · rcases hgo htrav with h | halloc | hn
      · exact absurd hv h
      · exact .inl ⟨halloc, ((hL.locals l).ended halloc).trans hsnap⟩
      · exact .inr hn
  · simp only [State.step, Option.map_eq_some_iff] at hs
    obtain ⟨⟨m', y'⟩, hy', rfl⟩ := hs
    obtain ⟨hcount, hsnap, hgo⟩ := writer_traversal (w := w) hr ht hin
    simp only [State.setWriter, Function.update_self] at hcount hsnap hgo
    rw [Writer.head_snapshot hy' hpc] at hsnap
    obtain ⟨hrank, htrav⟩ := Writer.head_rank (State.Listed.reach hr₀).shared hpc hy'
    refine ⟨hsnap ▸ (hL.writers w).walked.1, by omega, fun hv i hi => ?_, fun hv => ?_⟩
    · obtain ⟨r, hstep⟩ := Writer.walk_enabled hv hi σ'.shared
      simp only [State.step, hstep, Option.map_some, Option.isSome_some]
    · rcases hgo htrav with h | hdone | hrest
      · exact absurd hv h
      · exact .inl ⟨hdone, ((hL.writers w).ended hdone).trans hsnap⟩
      · exact .inr hrest

/-- A second node is published while a writer traverses the list. It comes to the first one only,
which is all that had been published when it read the head. -/
theorem list_kept_prepended : ∃ σ₀ σ tr σ', (registry 64 Nat Bool Unit Unit).Reach
      (fun _ _ => True) σ₀ ∧ (σ₀.writers ()).pc = .head ∧ σ₀.shared.published = [0] ∧
      σ₀.step 64 (.walk () ⟨0, 8, false⟩) = some σ ∧
      (registry 64 Nat Bool Unit Unit).Trace (fun _ _ => True) σ tr σ' ∧
      tr.filterMap publication = [1] ∧ σ'.shared.published = [1] ++ σ.shared.published ∧
      (σ'.writers ()).visited = [0] ∧
      tr.countP (·.act.ofWriter ()) ≤ 15 * 1 + 2 * tr.countP (missed ()) := by
  obtain ⟨σ₀, σ, tr, σ', hr₀, hr, hs, ht, hp⟩ := trace_after 64 (fun _ _ => True)
    (getFirst false 0 ++ [.begin true .get] ++ steps true 1 4 ++ [.payAll () () 8])
    (.walk () ⟨0, 8, false⟩)
    (List.replicate 5 (.walk () ⟨0, 8, false⟩) ++ steps true 1 4 ++
      List.replicate 8 (.walk () ⟨0, 8, false⟩))
    (fun σ₀ _ tr σ' => (σ₀.writers ()).pc = .head ∧ σ₀.shared.published = [0] ∧
      tr.filterMap publication = [1] ∧ (σ'.writers ()).pc = .done ∧
      ∀ e ∈ tr, e.act.ofWriter () = true → (e.pre.writers ()).pc.visiting ≠ none)
    (by decide +kernel)
  rw [decide_eq_true_eq] at hp
  obtain ⟨hpc, hlist, hpub, hdone, hin⟩ := hp
  obtain ⟨⟨_, _, _, hgrows⟩, _, hwriters, _⟩ := list_kept hr ht
  obtain ⟨_, hcount, _, hend⟩ := hwriters () _ σ₀ hr₀ hpc hs hin
  rw [hlist] at hcount hend
  rw [hpub] at hgrows
  rcases hend (by rw [hdone]; rfl) with ⟨_, hvisited⟩ | hrest
  · exact ⟨σ₀, σ, tr, σ', hr₀, hpc, hlist, hs, ht, hpub, hgrows, hvisited, hcount⟩
  · rw [hdone] at hrest
    cases hrest

end ArcSwap.Registry
