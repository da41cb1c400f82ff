import ArcSwap.Registry.Owners

namespace ArcSwap.Registry
set_option autoImplicit true

open Concurrent (Linked Reachable Walk)

def Local.rank (x : Local Node Sto) : Nat :=
  match x.pc with
  | .inUse _ => 5 * (x.snapshot.length - x.visited.length) + 5
  | .writers _ => 5 * (x.snapshot.length - x.visited.length) + 4
  | .exchange _ _ => 5 * (x.snapshot.length - x.visited.length) + 3
  | .claim _ => 5 * (x.snapshot.length - x.visited.length) + 2
  | .next _ => 5 * (x.snapshot.length - x.visited.length) + 1
  | _ => 0

def Writer.rank (y : Writer Node Sto) : Nat :=
  match y.pc with
  | .reserve _ => 15 * (y.snapshot.length - y.visited.length) + 15
  | .load _ => 15 * (y.snapshot.length - y.visited.length) + 14
  | .addr _ _ => 15 * (y.snapshot.length - y.visited.length) + 13
  | .recheck _ _ | .offer _ _ => 15 * (y.snapshot.length - y.visited.length) + 12
  | .pay _ todo => 15 * (y.snapshot.length - y.visited.length) + todo.length + 2
  | .next _ | .unwind _ => 15 * (y.snapshot.length - y.visited.length) + 1
  | _ => 0

variable {Node L W Sto : Type} {m m' : Shared Node L Sto} {x x' : Local Node Sto}
  {y y' : Writer Node Sto} {σ σ' : State Node L W Sto}

theorem Local.rank_visit (hw : Walk m.next m.published x.snapshot x.visited p) :
    (x.visit p).rank < 5 * (x.snapshot.length - x.visited.length) + 1 := by
  cases p with
  | none => exact Nat.succ_pos _
  | some a =>
    have hlen := hw.visit.2.visited_initial.length_le
    simp only [List.length_append, List.length_singleton] at hlen
    simp only [visit, rank, List.length_append, List.length_singleton]
    omega

theorem Writer.rank_visit (hw : Walk m.next m.published y.snapshot y.visited p) :
    (y.visit p).rank < 15 * (y.snapshot.length - y.visited.length) + 1 := by
  cases p with
  | none => exact Nat.succ_pos _
  | some a =>
    have hlen := hw.visit.2.visited_initial.length_le
    simp only [List.length_append, List.length_singleton] at hlen
    simp only [visit, rank, List.length_append, List.length_singleton]
    omega

theorem Writer.rank_look (m : Shared Node L Sto) (y : Writer Node Sto) (n : Node) :
    (look m y n).rank ≤ 15 * (y.snapshot.length - y.visited.length) + 13 := by
  simp only [look]
  split_ifs <;> simp only [rank, List.length_finRange] <;> omega

variable [DecidableEq Node]

theorem Local.Listed.traverse_ends (hx : x.Listed m) (hv : x.pc.visiting ≠ none) (w : Nat) (l : L)
    (i : Input Node) : ∃ r, x.step w l i m = some r ∧ r.2.rank < x.rank := by
  cases hpc : x.pc with
  | inUse n =>
    by_cases hn : m.inUse n = nodeCooldown <;>
      simp only [Local.step, hpc, hn, if_true, if_false, Option.some.injEq, exists_eq_left', goto,
        rank] <;> omega
  | writers n =>
    by_cases hn : m.activeWriters n = 0 <;>
      simp only [Local.step, hpc, hn, if_true, if_false, Option.some.injEq, exists_eq_left', goto,
        rank] <;> omega
  | exchange n epoch =>
    simp only [Local.step, hpc, Option.some.injEq, exists_eq_left', goto, rank]
    omega
  | claim n =>
    by_cases hn : m.inUse n = nodeUnused
    · simp only [Local.step, hpc, hn, if_true, Option.some.injEq, exists_eq_left', rank]
      omega
    · simp only [Local.step, hpc, hn, if_false, Option.some.injEq, exists_eq_left', goto, rank]
      omega
  | next n =>
    have hv : x.pc.visiting = some n := by rw [hpc]; rfl
    have hlt := rank_visit (hx.walking n hv).2
    simp only [Local.step, hpc, Option.some.injEq, exists_eq_left']
    simp only [rank, hpc] at hlt ⊢
    exact hlt
  | _ =>
    rw [hpc] at hv
    exact absurd rfl hv

/-- A step of a writer brings it closer to the end of its traversal, unless `help` has found another
control word than the one it has read. -/
theorem Writer.Listed.traverse_ends [DecidableEq Sto] (hy : y.Listed m) (hv : y.pc.visiting ≠ none)
    (hs : y.step i m = some (m', y')) :
    y'.rank < y.rank ∨ ∃ n c, (y.pc = .recheck n c ∨ y.pc = .offer n c) ∧ m.control n ≠ c := by
  cases hpc : y.pc with
  | rest | done | head =>
    rw [hpc] at hv
    exact absurd rfl hv
  | reserve n =>
    simp only [Writer.step, hpc, Option.some.injEq] at hs
    cases hs
    left
    simp only [rank, hpc]
    omega
  | load n =>
    simp only [Writer.step, hpc, Option.some.injEq] at hs
    cases hs
    left
    have h := rank_look m y n
    simp only [rank, hpc] at h ⊢
    omega
  | addr n c =>
    simp only [Writer.step, hpc, Option.some.injEq] at hs
    cases hs
    left
    by_cases hc : m.activeAddr n = y.storage <;>
      simp only [goto, rank, hpc, hc, if_true, if_false] <;> omega
  | recheck n c =>
    simp only [Writer.step, hpc, Option.some.injEq] at hs
    cases hs
    by_cases hc : m.control n = c
    · left
      simp only [goto, rank, hpc, hc, if_true, List.length_finRange]
      omega
    · exact .inr ⟨n, c, .inl rfl, hc⟩
  | offer n c =>
    by_cases hc : m.control n = c
    · left
      simp only [Writer.step, hpc, hc, if_true] at hs
      split at hs <;> cases hs
      simp only [goto, rank, hpc, List.length_finRange]
      omega
    · exact .inr ⟨n, c, .inr rfl, hc⟩
  | pay n todo =>
    left
    cases todo with
    | nil =>
      simp only [Writer.step, hpc, Option.some.injEq] at hs
      cases hs
      simp only [goto, rank, hpc]
      omega
    | cons j js =>
      simp only [Writer.step, hpc, Option.some.injEq] at hs
      cases hs
      simp only [goto, rank, hpc, List.length_cons]
      omega
  | next n =>
    left
    simp only [Writer.step, hpc, Option.some.injEq] at hs
    cases hs
    have hv : y.pc.visiting = some n := by rw [hpc]; rfl
    have hlt := rank_visit (hy.walking n hv).2
    simp only [rank, hpc] at hlt ⊢
    exact hlt
  | unwind n =>
    simp only [Writer.step, hpc, Option.some.injEq] at hs
    cases hs
    left
    simp only [goto, rank, hpc]
    omega

theorem Local.getting_snapshot (hs : x.step w l i m = some (m', x')) (hg : x.pc.getting = true)
    (hpc : x.pc ≠ .head) : x'.snapshot = x.snapshot := by
  cases hpc' : x.pc with
  | head => exact absurd hpc' hpc
  | inUse | writers | loadHead | link =>
    simp only [Local.step, hpc', Option.some.injEq] at hs
    cases hs
    rfl
  | exchange =>
    simp only [Local.step, hpc', Option.some.injEq] at hs
    split at hs <;> cases hs <;> rfl
  | claim | alloc | prepend =>
    simp only [Local.step, hpc'] at hs
    split at hs <;> cases hs <;> rfl
  | next n =>
    simp only [Local.step, hpc', Option.some.injEq] at hs
    cases hs
    cases m.next n <;> rfl
  | _ =>
    rw [hpc'] at hg
    cases hg

theorem Local.step_snapshot (hs : x.step w l i m = some (m', x')) (hpc : x.pc ≠ .head) :
    x'.snapshot = x.snapshot ∨ x'.snapshot = [] := by
  cases hg : x.pc.getting with
  | false => exact (step_outside hs hg).walked.imp And.left And.left
  | true => exact .inl (getting_snapshot hs hg hpc)

theorem Local.head_snapshot (hs : x.step w l i m = some (m', x')) (hpc : x.pc = .head) :
    x'.snapshot = m.published := by
  simp only [Local.step, hpc, Option.some.injEq] at hs
  cases hs
  cases m.listHead <;> rfl

theorem Writer.step_snapshot [DecidableEq Sto] (hs : y.step i m = some (m', y'))
    (hpc : y.pc ≠ .head) : y'.snapshot = y.snapshot := by
  cases hpc' : y.pc with
  | head => exact absurd hpc' hpc
  | rest | done =>
    simp only [Writer.step, hpc'] at hs
    cases hs
  | load | addr | reserve | unwind =>
    simp only [Writer.step, hpc', Option.some.injEq] at hs
    cases hs
    rfl
  | next n =>
    simp only [Writer.step, hpc', Option.some.injEq] at hs
    cases hs
    cases m.next n <;> rfl
  | recheck n c =>
    simp only [Writer.step, hpc', Option.some.injEq] at hs
    cases hs
    split <;> rfl
  | offer n c =>
    simp only [Writer.step, hpc'] at hs
    split at hs
    · simp only [Option.some.injEq] at hs
      split at hs <;> cases hs <;> rfl
    · cases hs
  | pay n todo =>
    cases todo <;> simp only [Writer.step, hpc', Option.some.injEq] at hs <;> cases hs <;> rfl

theorem Writer.head_snapshot [DecidableEq Sto] (hs : y.step i m = some (m', y'))
    (hpc : y.pc = .head) : y'.snapshot = m.published := by
  simp only [Writer.step, hpc, Option.some.injEq] at hs
  cases hs
  cases m.listHead <;> rfl

theorem Local.step_published (hs : x.step w l i m = some (m', x')) :
    m'.published = m.published ∧ (∀ h head, x.pc = .prepend h head → x'.node = x.node) ∨
      ∃ h head, x.pc = .prepend h head ∧ m'.published = h :: m.published ∧ x'.node = some h := by
  cases hg : x.pc.getting with
  | false =>
    refine .inl ⟨(step_outside hs hg).published, fun h head hpc => ?_⟩
    rw [hpc] at hg
    cases hg
  | true =>
    cases hpc : x.pc with
    | prepend h head =>
      simp only [Local.step, hpc] at hs
      split at hs
      · cases hs
        exact .inr ⟨h, head, rfl, rfl, rfl⟩
      · cases hs
        exact .inl ⟨rfl, fun _ _ _ => rfl⟩
    | head | inUse | writers | loadHead | link | next =>
      simp only [Local.step, hpc, Option.some.injEq] at hs
      cases hs
      exact .inl ⟨rfl, by intro h o e; cases e⟩
    | exchange =>
      simp only [Local.step, hpc, Option.some.injEq] at hs
      split at hs <;> cases hs <;> exact .inl ⟨rfl, by intro h o e; cases e⟩
    | claim | alloc =>
      simp only [Local.step, hpc] at hs
      split at hs <;> cases hs <;> exact .inl ⟨rfl, by intro h o e; cases e⟩
    | _ =>
      rw [hpc] at hg
      cases hg

variable [DecidableEq L] [DecidableEq W] [DecidableEq Sto]

theorem State.step_published (hs : σ.step width a = some σ') :
    σ'.shared.published = σ.shared.published ∨ ∃ l i h head, a = .run l i ∧
      (σ.locals l).pc = .prepend h head ∧ σ'.shared.published = h :: σ.shared.published ∧
      (σ'.locals l).node = some h := by
  cases a with
  | run l i =>
    simp only [State.step, Option.map_eq_some_iff] at hs
    obtain ⟨⟨m', x'⟩, hx', rfl⟩ := hs
    rcases Local.step_published hx' with ⟨he, _⟩ | ⟨h, head, hpc, he, hn⟩
    · exact .inl he
    · refine .inr ⟨l, i, h, head, rfl, hpc, he, ?_⟩
      simpa only [State.setLocal, Function.update_self] using hn
  | walk w i =>
    simp only [State.step, Option.map_eq_some_iff] at hs
    obtain ⟨⟨m', y'⟩, hy', rfl⟩ := hs
    exact .inl (Writer.step_list hy').2.2.1
  | begin | payAll | abort =>
    simp only [State.step, Option.map_eq_some_iff] at hs
    obtain ⟨_, _, rfl⟩ := hs
    exact .inl rfl
  | dropGuard d ptr =>
    simp only [State.step] at hs
    split at hs <;> cases hs
    exact .inl (Shared.settle_list ..).2.2.1

theorem State.Listed.prepend_published (h : σ.Listed) (hpc : (σ.locals l).pc = .prepend node head)
    (hs : σ.step width (.run l i) = some σ') :
    (σ'.locals l).node = some node ↔ σ'.shared.published = node :: σ.shared.published := by
  simp only [State.step, Option.map_eq_some_iff] at hs
  obtain ⟨⟨m', x'⟩, hx', rfl⟩ := hs
  have hnone : (σ.locals l).node = none := (h.locals l).without (by rw [hpc]; rfl)
  simp only [State.setLocal, Function.update_self]
  rcases Local.step_published hx' with ⟨he, hn⟩ | ⟨k, o, hpc', he, hn⟩
  · rw [hn node head hpc, hnone, he]
    exact ⟨(by intro h; cases h), fun h => absurd h.symm (List.cons_ne_self _ _)⟩
  · cases hpc.symm.trans hpc'
    exact ⟨fun _ => he, fun _ => hn⟩

/-- The list that is reached from its head consists of the nodes that have been published, each of
them once, and grows by the nodes whose publication succeeds. A traversal comes to the nodes that
were published when it read the head, in their order, and to all of them if nothing ends it before;
each of its steps brings it closer to that, unless a writer's `help` finds that the control word has
changed. -/
theorem nodes_registered (hr : (registry width Node L W Sto).Reach ok σ) :
    (Linked σ.shared.next σ.shared.listHead σ.shared.published ∧ σ.shared.published.Nodup ∧
      ∀ n, Reachable σ.shared.next σ.shared.listHead n ↔ n ∈ σ.shared.published) ∧
    (∀ a σ', σ.step width a = some σ' →
      σ'.shared.published = σ.shared.published ∨ ∃ l i h head, a = .run l i ∧
        (σ.locals l).pc = .prepend h head ∧ h ∉ σ.shared.published ∧
        σ'.shared.published = h :: σ.shared.published ∧ (σ'.locals l).node = some h) ∧
    (∀ l i h head σ', (σ.locals l).pc = .prepend h head → σ.step width (.run l i) = some σ' →
      ((σ'.locals l).node = some h ↔ σ'.shared.published = h :: σ.shared.published)) ∧
    ((∀ l, (σ.locals l).visited <+: (σ.locals l).snapshot ∧
        (σ.locals l).snapshot <:+ σ.shared.published ∧
        ((σ.locals l).pc = .alloc → (σ.locals l).visited = (σ.locals l).snapshot)) ∧
      (∀ w, (σ.writers w).visited <+: (σ.writers w).snapshot ∧
        (σ.writers w).snapshot <:+ σ.shared.published ∧
        ((σ.writers w).pc = .done → (σ.writers w).visited = (σ.writers w).snapshot))) ∧
    ((∀ l i m' x', (σ.locals l).step width l i σ.shared = some (m', x') →
        ((σ.locals l).pc = .head → x'.snapshot = σ.shared.published) ∧
        ((σ.locals l).pc ≠ .head → x'.snapshot = (σ.locals l).snapshot ∨ x'.snapshot = [])) ∧
      (∀ w i m' y', (σ.writers w).step i σ.shared = some (m', y') →
        ((σ.writers w).pc = .head → y'.snapshot = σ.shared.published) ∧
        ((σ.writers w).pc ≠ .head → y'.snapshot = (σ.writers w).snapshot))) ∧
    ((∀ l i, (σ.locals l).pc.visiting ≠ none →
        ∃ r, (σ.locals l).step width l i σ.shared = some r ∧ r.2.rank < (σ.locals l).rank) ∧
      (∀ w i m' y', (σ.writers w).pc.visiting ≠ none →
        (σ.writers w).step i σ.shared = some (m', y') → y'.rank < (σ.writers w).rank ∨
          ∃ n c, ((σ.writers w).pc = .recheck n c ∨ (σ.writers w).pc = .offer n c) ∧
            σ.shared.control n ≠ c)) := by
  have hL := State.Listed.reach hr
  refine ⟨⟨hL.shared.linked, hL.shared.linked.nodup, fun n => hL.shared.linked.mem_iff⟩, ?_, ?_,
    ⟨fun l => ?_, fun w => ?_⟩, ⟨fun l i m' x' hs => ?_, fun w i m' y' hs => ?_⟩,
    ⟨fun l i hv => ?_, fun w i m' y' hv hs => ?_⟩⟩
  · intro a σ' hs
    rcases State.step_published hs with he | ⟨l, i, h, head, ha, hpc, he, hn⟩
    · exact .inl he
    · have hc : (σ.locals l).pc.creating = some h := by rw [hpc]; rfl
      exact .inr ⟨l, i, h, head, ha, hpc, ((hL.locals l).created h hc).2.1, he, hn⟩
  · exact fun l i h head σ' hpc hs => hL.prepend_published hpc hs
  · exact ⟨(hL.locals l).walked.1, (hL.locals l).walked.2, (hL.locals l).ended⟩
  · exact ⟨(hL.writers w).walked.1, (hL.writers w).walked.2, (hL.writers w).ended⟩
  · exact ⟨Local.head_snapshot hs, Local.step_snapshot hs⟩
  · exact ⟨Writer.head_snapshot hs, Writer.step_snapshot hs⟩
  · exact (hL.locals l).traverse_ends hv width l i
  · exact (hL.writers w).traverse_ends hv hs

theorem nodes_registered_retry : ∃ σ, (registry 64 Nat Bool Unit Unit).Reach (fun _ _ => True) σ ∧
    σ.shared.published = [1, 0] ∧ Reachable σ.shared.next σ.shared.listHead 0 := by
  obtain ⟨σ, hr, hp⟩ := reach_after 64 (fun _ _ => True)
    ([.begin false .get, .begin true .get] ++ steps false 0 4 ++ steps true 1 4 ++
      steps false 0 1 ++ steps true 1 3)
    (fun σ => σ.shared.published = [1, 0]) (by decide +kernel)
  rw [decide_eq_true_eq] at hp
  obtain ⟨_, _, hmem⟩ := (nodes_registered hr).1
  exact ⟨σ, hr, hp, (hmem 0).2 (by rw [hp]; decide)⟩

end ArcSwap.Registry
