import ArcSwap.Registry.Owners
import ArcSwap.Concurrent.Account

namespace ArcSwap.Registry
set_option autoImplicit true

variable {Node L W Sto : Type} {m m' : Shared Node L Sto} {x x' : Local Node Sto}
  {y y' : Writer Node Sto} {σ σ' : State Node L W Sto}

theorem fastSlot_ne_helpingSlot (n : Node) (k : Nat) : fastSlot n k ≠ helpingSlot n := by
  intro h
  have hv := congrArg (fun d => (d.2 : Nat)) h
  simp only [fastSlot, helpingSlot] at hv
  have hlt := Nat.mod_lt k (Nat.succ_pos 7)
  omega

def LocalPc.ptr : LocalPc Node Sto → Option Nat
  | .scan p _ | .take p _ | .confirm _ p | .settle _ p | .setSlot _ p | .setIdle _ p => some p
  | _ => none

theorem Local.begin_ptr (hs : x.begin op = some x') (h : x'.pc.ptr = some p) : p ≠ debtNone := by
  have hpc := begin_rest hs
  cases op with
  | attempt q =>
    simp only [Local.begin, hpc] at hs
    split at hs <;> cases hs
    rename_i hq
    cases h
    exact hq.2
  | get | fallback =>
    simp only [Local.begin, hpc] at hs
    split at hs <;> cases hs
    cases h
  | drop =>
    simp only [Local.begin, hpc, Option.some.injEq] at hs
    split at hs <;> cases hs <;> cases h

variable [DecidableEq Node]

/-- Whether a load is recorded on the slot `d` with the pointer `p` that has not become a `Guard`,
and has neither taken its debt back nor found it paid. -/
def Local.unresolved (x : Local Node Sto) (d : Debt Node) (p : Nat) : Nat :=
  match x.pc with
  | .confirm e q | .settle e q => if d = e ∧ p = q then 1 else 0
  | .setIdle _ q => if some d = x.node.map helpingSlot ∧ p = q then 1 else 0
  | _ => 0

/-- The pointer that a load in its helping transaction has put into the helping slot of its node. -/
def Local.helped (x : Local Node Sto) (n : Node) : Option Nat :=
  match x.pc with
  | .setIdle _ q => some q
  | .settle d q => if d = helpingSlot n then some q else none
  | _ => none

/-- The live `Guard`s and the unresolved loads that are recorded on a slot with a pointer. -/
def State.recorded [Fintype L] (σ : State Node L W Sto) (d : Debt Node) (p : Nat) : Nat :=
  σ.shared.guards d p + ∑ l, (σ.locals l).unresolved d p

/-- What a step of a `LocalNode` does to the slots and to what is recorded on them. -/
inductive Local.Settling (m m' : Shared Node L Sto) (x x' : Local Node Sto) : Prop
  | keep (hd : ∀ d, m'.debt d = m.debt d ∨ m.allocated d.1 = false ∧ m'.debt d = debtNone)
    (hg : m'.guards = m.guards) (hp : m'.paid = m.paid) (hc : m'.consumed = m.consumed)
    (hu : x'.unresolved = x.unresolved)
  | fill (d : Debt Node) (p : Nat) (ho : x.owns = some d.1)
    (hx : (∃ k, x.pc = .take p k ∧ d = fastSlot d.1 k) ∨
      ∃ gen, x.pc = .setSlot gen p ∧ d = helpingSlot d.1)
    (hm : m' = m.setDebt d p) (ho' : x'.owns = some d.1)
    (hh : d = helpingSlot d.1 → x'.helped d.1 = some p) (hu : ∀ e q, x.unresolved e q = 0)
    (hu' : ∀ e q, x'.unresolved e q = if e = d ∧ q = p then 1 else 0)
  | confirm (d : Debt Node) (p : Nat) (hpc : x.pc = .confirm d p)
    (hm : m' = m.setGuards d p (m.guards d p + 1))
    (hu : ∀ e q, x.unresolved e q = if e = d ∧ q = p then 1 else 0)
    (hu' : ∀ e q, x'.unresolved e q = 0)
  | settle (d : Debt Node) (p : Nat) (hpc : x.pc = .settle d p) (hm : m' = m.settle d p)
    (hu : ∀ e q, x.unresolved e q = if e = d ∧ q = p then 1 else 0)
    (hu' : ∀ e q, x'.unresolved e q = 0)

theorem Local.Settling.of_eq (hm : m' = m) (hu : x'.unresolved = x.unresolved) :
    Local.Settling m m' x x' := by
  subst hm
  exact .keep (fun _ => .inl rfl) rfl rfl rfl hu

theorem Local.unresolved_of_getting (h : x.pc.getting = true) : x.unresolved = fun _ _ => 0 := by
  funext d p
  cases hpc : x.pc <;> simp only [unresolved, hpc] <;> rw [hpc] at h <;> cases h

theorem Local.unresolved_visit (x : Local Node Sto) (o : Option Node) :
    (x.visit o).unresolved = fun _ _ => 0 := by
  cases o <;> rfl

theorem Local.step_settling (hs : x.step w l i m = some (m', x')) : Local.Settling m m' x x' := by
  cases hpc : x.pc with
  | rest | assertion =>
    simp only [Local.step, hpc] at hs
    cases hs
  | head =>
    simp only [Local.step, hpc, Option.some.injEq] at hs
    cases hs
    refine .of_eq rfl ?_
    rw [unresolved_visit, unresolved_of_getting (by rw [hpc]; rfl)]
  | next n =>
    simp only [Local.step, hpc, Option.some.injEq] at hs
    cases hs
    refine .of_eq rfl ?_
    rw [unresolved_visit, unresolved_of_getting (by rw [hpc]; rfl)]
  | inUse n =>
    simp only [Local.step, hpc, Option.some.injEq] at hs
    cases hs
    refine .of_eq rfl ?_
    rw [unresolved_of_getting (by simp only [goto]; split <;> rfl),
      unresolved_of_getting (by rw [hpc]; rfl)]
  | writers n =>
    simp only [Local.step, hpc, Option.some.injEq] at hs
    cases hs
    refine .of_eq rfl ?_
    rw [unresolved_of_getting (by simp only [goto]; split <;> rfl),
      unresolved_of_getting (by rw [hpc]; rfl)]
  | exchange n epoch =>
    simp only [Local.step, hpc, Option.some.injEq] at hs
    have hu : (x.goto (.claim n)).unresolved = x.unresolved := by
      rw [unresolved_of_getting rfl, unresolved_of_getting (by rw [hpc]; rfl)]
    split at hs <;> cases hs <;> exact .keep (fun _ => .inl rfl) rfl rfl rfl hu
  | claim n =>
    simp only [Local.step, hpc] at hs
    split at hs <;> cases hs
    · refine .keep (fun _ => .inl rfl) rfl rfl rfl ?_
      rw [unresolved_of_getting (x := x) (by rw [hpc]; rfl)]
      rfl
    · refine .of_eq rfl ?_
      rw [unresolved_of_getting rfl, unresolved_of_getting (by rw [hpc]; rfl)]
  | alloc =>
    simp only [Local.step, hpc] at hs
    split at hs
    · cases hs
    · rename_i hfree
      have hfree : m.allocated i.fresh = false := by simpa using hfree
      cases hs
      refine .keep (fun d => ?_) rfl rfl rfl ?_
      · simp only [Shared.turn, Shared.allocate]
        split
        · rename_i hd
          exact .inr ⟨hd ▸ hfree, rfl⟩
        · exact .inl rfl
      · rw [unresolved_of_getting rfl, unresolved_of_getting (by rw [hpc]; rfl)]
  | loadHead | link =>
    simp only [Local.step, hpc, Option.some.injEq] at hs
    cases hs
    refine .keep (fun _ => .inl rfl) rfl rfl rfl ?_
    rw [unresolved_of_getting rfl, unresolved_of_getting (by rw [hpc]; rfl)]
  | prepend h head =>
    simp only [Local.step, hpc] at hs
    split at hs <;> cases hs
    · refine .keep (fun _ => .inl rfl) rfl rfl rfl ?_
      rw [unresolved_of_getting (x := x) (by rw [hpc]; rfl)]
      rfl
    · refine .of_eq rfl ?_
      rw [unresolved_of_getting rfl, unresolved_of_getting (by rw [hpc]; rfl)]
  | scan p k =>
    simp only [Local.step, hpc, Option.map_eq_some_iff] at hs
    obtain ⟨n, _, hs⟩ := hs
    cases hs
    refine .of_eq rfl ?_
    funext d q
    by_cases h8 : k = 8
    · simp only [unresolved, goto, hpc, h8, if_true]
    · by_cases hd : m.debt (fastSlot n (k + x.offset)) = debtNone <;>
        simp only [unresolved, goto, hpc, h8, hd, if_true, if_false]
  | take p k =>
    simp only [Local.step, hpc, Option.map_eq_some_iff] at hs
    obtain ⟨n, hn, hs⟩ := hs
    cases hs
    have ho : x.owns = some (fastSlot n k).1 := by simpa only [owns, hpc, fastSlot] using hn
    refine .fill (fastSlot n k) p ho (.inl ⟨k, hpc, rfl⟩)
      rfl hn (fun h => absurd h (fastSlot_ne_helpingSlot n k)) ?_ ?_
    · simp only [unresolved, hpc, implies_true]
    · simp only [unresolved, implies_true]
  | confirm d p =>
    simp only [Local.step, hpc, Option.some.injEq] at hs
    split at hs <;> cases hs
    · refine .confirm d p hpc rfl ?_ ?_
      · simp only [unresolved, hpc, implies_true]
      · simp only [unresolved, goto, implies_true]
    · refine .of_eq rfl ?_
      funext e q
      simp only [unresolved, goto, hpc]
  | settle d p =>
    simp only [Local.step, hpc, Option.some.injEq] at hs
    cases hs
    refine .settle d p hpc rfl ?_ ?_
    · simp only [unresolved, hpc, implies_true]
    · simp only [unresolved, goto, implies_true]
  | setAddr | reserve =>
    simp only [Local.step, hpc, Option.map_eq_some_iff] at hs
    obtain ⟨n, _, hs⟩ := hs
    cases hs
    refine .keep (fun _ => .inl rfl) rfl rfl rfl ?_
    funext e q
    simp only [unresolved, goto, hpc]
  | cooldown why since =>
    simp only [Local.step, hpc, Option.map_eq_some_iff] at hs
    obtain ⟨n, _, hs⟩ := hs
    cases hs
    refine .keep (fun _ => .inl rfl) rfl rfl rfl ?_
    funext e q
    by_cases hn : m.inUse n = nodeUsed <;>
      simp only [unresolved, goto, hpc, hn, if_true, if_false]
  | setControl gen discard =>
    obtain ⟨n, pc, _, rfl, rfl, hpc'⟩ := Local.step_setControl hpc hs
    refine .keep (fun _ => .inl rfl) rfl rfl rfl ?_
    funext e q
    rcases hpc' with ⟨rfl, _⟩ | ⟨_, ⟨_, rfl⟩ | ⟨_, rfl⟩⟩ <;> simp only [unresolved, goto, hpc]
  | release why since =>
    simp only [Local.step, hpc, Option.map_eq_some_iff] at hs
    obtain ⟨n, _, hs⟩ := hs
    cases why with
    | drop =>
      cases hs
      refine .keep (fun _ => .inl rfl) rfl rfl rfl ?_
      funext e q
      simp only [unresolved, fresh, hpc]
    | discard gen =>
      cases hs
      refine .keep (fun _ => .inl rfl) rfl rfl rfl ?_
      funext e q
      simp only [unresolved, hpc]
  | candidate gen =>
    simp only [Local.step, hpc] at hs
    split at hs <;> cases hs
    refine .of_eq rfl ?_
    funext e q
    simp only [unresolved, goto, hpc]
  | setSlot gen p =>
    simp only [Local.step, hpc, Option.some.injEq] at hs
    cases hn : x.node with
    | some n =>
      rw [hn] at hs
      cases hs
      refine .fill (helpingSlot n) p (by simpa only [owns, hpc, helpingSlot] using hn)
        (.inr ⟨gen, hpc, rfl⟩) rfl hn (fun _ => rfl) ?_ ?_
      · simp only [unresolved, hpc, implies_true]
      · simp only [unresolved, goto, hn, Option.map_some, Option.some.injEq, implies_true]
    | none =>
      rw [hn] at hs
      cases hs
      refine .of_eq rfl ?_
      funext e q
      simp only [unresolved, goto, hpc]
  | setIdle gen p =>
    simp only [Local.step, hpc, Option.map_eq_some_iff] at hs
    obtain ⟨n, hn, hs⟩ := hs
    cases hs
    refine .keep (fun _ => .inl rfl) rfl rfl rfl ?_
    funext e q
    simp only [unresolved, goto, hpc, hn, Option.map_some, Option.some.injEq]
  | wrongControl | panic =>
    simp only [Local.step, hpc, Option.some.injEq] at hs
    cases hs
    refine .of_eq rfl ?_
    funext e q
    simp only [unresolved, goto, hpc]

theorem Writer.step_settling [DecidableEq Sto] (hs : y.step i m = some (m', y')) :
    (m'.debt = m.debt ∧ m'.guards = m.guards ∧ m'.paid = m.paid ∧ m'.consumed = m.consumed ∧
        ∀ n j js, y.pc ≠ .pay n (j :: js)) ∨
      ∃ n j js, y.pc = .pay n (j :: js) ∧ m' = m.pay (n, j) y.ptr := by
  cases hpc : y.pc with
  | rest | done =>
    simp only [Writer.step, hpc] at hs
    cases hs
  | head | load | addr | next | reserve | unwind | recheck =>
    simp only [Writer.step, hpc, Option.some.injEq] at hs
    cases hs
    exact .inl ⟨rfl, rfl, rfl, rfl, by intro n j js h; cases h⟩
  | offer n c =>
    simp only [Writer.step, hpc] at hs
    split at hs
    · simp only [Option.some.injEq] at hs
      split at hs <;> cases hs <;> exact .inl ⟨rfl, rfl, rfl, rfl, by intro n j js h; cases h⟩
    · cases hs
  | pay n todo =>
    cases todo with
    | nil =>
      simp only [Writer.step, hpc, Option.some.injEq] at hs
      cases hs
      exact .inl ⟨rfl, rfl, rfl, rfl, by intro n j js h; cases h⟩
    | cons j js =>
      simp only [Writer.step, hpc, Option.some.injEq] at hs
      cases hs
      exact .inr ⟨n, j, js, rfl, rfl⟩

theorem Local.begin_settling (hs : x.begin op = some x') :
    x'.unresolved = x.unresolved ∧ ∀ p k, x'.pc ≠ .take p k := by
  cases hpc : x.pc with
  | rest =>
    have hu : x.unresolved = fun _ _ => 0 := by
      funext d p
      simp only [unresolved, hpc]
    rw [hu]
    cases op with
    | get | attempt | fallback =>
      simp only [Local.begin, hpc] at hs
      split at hs <;> cases hs
      exact ⟨rfl, by intro p k h; cases h⟩
    | drop =>
      simp only [Local.begin, hpc, Option.some.injEq] at hs
      split at hs <;> cases hs <;> exact ⟨rfl, by intro p k h; cases h⟩
  | _ =>
    simp only [Local.begin, hpc] at hs
    cases hs

theorem Local.step_ptr (hs : x.step w l i m = some (m', x')) (h : x'.pc.ptr = some p) :
    x.pc.ptr = some p ∨ p ≠ debtNone := by
  cases hpc : x.pc with
  | rest | assertion =>
    simp only [Local.step, hpc] at hs
    cases hs
  | head =>
    simp only [Local.step, hpc, Option.some.injEq] at hs
    cases hs
    cases hl : m.listHead <;> rw [hl] at h <;> cases h
  | next n =>
    simp only [Local.step, hpc, Option.some.injEq] at hs
    cases hs
    cases hl : m.next n <;> rw [hl] at h <;> cases h
  | inUse n =>
    simp only [Local.step, hpc, Option.some.injEq] at hs
    cases hs
    by_cases hn : m.inUse n = nodeCooldown <;>
      simp only [LocalPc.ptr, goto, hn, if_true, if_false] at h <;> cases h
  | writers n =>
    simp only [Local.step, hpc, Option.some.injEq] at hs
    cases hs
    by_cases hn : m.activeWriters n = 0 <;>
      simp only [LocalPc.ptr, goto, hn, if_true, if_false] at h <;> cases h
  | exchange | loadHead | link | wrongControl | panic =>
    simp only [Local.step, hpc, Option.some.injEq] at hs
    cases hs
    cases h
  | claim | alloc | prepend =>
    simp only [Local.step, hpc] at hs
    split at hs <;> cases hs <;> cases h
  | scan q k =>
    simp only [Local.step, hpc, Option.map_eq_some_iff] at hs
    obtain ⟨n, _, hs⟩ := hs
    cases hs
    left
    by_cases h8 : k = 8
    · simp only [LocalPc.ptr, goto, h8, if_true] at h
      cases h
    · by_cases hd : m.debt (fastSlot n (k + x.offset)) = debtNone <;>
        simpa only [LocalPc.ptr, goto, h8, hd, if_true, if_false] using h
  | take | setIdle =>
    simp only [Local.step, hpc, Option.map_eq_some_iff] at hs
    obtain ⟨n, _, hs⟩ := hs
    cases hs
    exact .inl h
  | confirm d q =>
    simp only [Local.step, hpc, Option.some.injEq] at hs
    split at hs <;> cases hs
    · cases h
    · exact .inl h
  | settle d q =>
    simp only [Local.step, hpc, Option.some.injEq] at hs
    cases hs
    cases h
  | setAddr | reserve =>
    simp only [Local.step, hpc, Option.map_eq_some_iff] at hs
    obtain ⟨n, _, hs⟩ := hs
    cases hs
    cases h
  | setControl gen discard =>
    obtain ⟨n, pc, _, rfl, _, hpc'⟩ := Local.step_setControl hpc hs
    rcases hpc' with ⟨rfl, _⟩ | ⟨_, ⟨_, rfl⟩ | ⟨_, rfl⟩⟩ <;> cases h
  | cooldown why since =>
    simp only [Local.step, hpc, Option.map_eq_some_iff] at hs
    obtain ⟨n, _, hs⟩ := hs
    cases hs
    by_cases hn : m.inUse n = nodeUsed <;>
      simp only [LocalPc.ptr, goto, hn, if_true, if_false] at h <;> cases h
  | release why since =>
    simp only [Local.step, hpc, Option.map_eq_some_iff] at hs
    obtain ⟨n, _, hs⟩ := hs
    cases why <;> cases hs <;> cases h
  | candidate gen =>
    simp only [Local.step, hpc] at hs
    split at hs <;> cases hs
    rename_i hne
    cases h
    exact .inr hne
  | setSlot gen q =>
    simp only [Local.step, hpc, Option.some.injEq] at hs
    split at hs <;> cases hs
    · exact .inl h
    · cases h

theorem Local.step_take (hs : x.step w l i m = some (m', x')) (h : x'.pc = .take p k) :
    m' = m ∧ ∃ n, x'.node = some n ∧ x.owns = some n ∧ m.debt (fastSlot n k) = debtNone := by
  cases hg : x.pc.getting with
  | true =>
    cases hpc : x.pc with
    | head =>
      simp only [Local.step, hpc, Option.some.injEq] at hs
      cases hs
      cases hl : m.listHead <;> rw [hl] at h <;> cases h
    | next n =>
      simp only [Local.step, hpc, Option.some.injEq] at hs
      cases hs
      cases hl : m.next n <;> rw [hl] at h <;> cases h
    | inUse n =>
      simp only [Local.step, hpc, Option.some.injEq] at hs
      cases hs
      simp only [goto] at h
      split at h <;> cases h
    | writers n =>
      simp only [Local.step, hpc, Option.some.injEq] at hs
      cases hs
      simp only [goto] at h
      split at h <;> cases h
    | exchange | loadHead | link =>
      simp only [Local.step, hpc, Option.some.injEq] at hs
      cases hs
      cases h
    | claim | alloc | prepend =>
      simp only [Local.step, hpc] at hs
      split at hs <;> cases hs <;> cases h
    | _ =>
      rw [hpc] at hg
      cases hg
  | false =>
    cases hpc : x.pc with
    | scan q j =>
      simp only [Local.step, hpc, Option.map_eq_some_iff] at hs
      obtain ⟨n, hn, hs⟩ := hs
      cases hs
      simp only [goto] at h
      split at h
      · cases h
      · split at h
        · rename_i hd
          cases h
          exact ⟨rfl, n, hn, by simpa only [owns, hpc] using hn, hd⟩
        · cases h
    | rest | assertion =>
      simp only [Local.step, hpc] at hs
      cases hs
    | take | setAddr | reserve | setIdle =>
      simp only [Local.step, hpc, Option.map_eq_some_iff] at hs
      obtain ⟨n, _, hs⟩ := hs
      cases hs
      cases h
    | setControl gen discard =>
      obtain ⟨n, pc, _, rfl, _, hpc'⟩ := Local.step_setControl hpc hs
      rcases hpc' with ⟨rfl, _⟩ | ⟨_, ⟨_, rfl⟩ | ⟨_, rfl⟩⟩ <;> cases h
    | cooldown why since =>
      simp only [Local.step, hpc, Option.map_eq_some_iff] at hs
      obtain ⟨n, _, hs⟩ := hs
      cases hs
      simp only [goto] at h
      split at h <;> cases h
    | release why since =>
      simp only [Local.step, hpc, Option.map_eq_some_iff] at hs
      obtain ⟨n, _, hs⟩ := hs
      cases why <;> cases hs <;> cases h
    | confirm | setSlot =>
      simp only [Local.step, hpc, Option.some.injEq] at hs
      split at hs <;> cases hs <;> cases h
    | settle | wrongControl | panic =>
      simp only [Local.step, hpc, Option.some.injEq] at hs
      cases hs
      cases h
    | candidate gen =>
      simp only [Local.step, hpc] at hs
      split at hs <;> cases hs
      cases h
    | _ =>
      rw [hpc] at hg
      cases hg

theorem Local.step_helped (hs : x.step w l i m = some (m', x')) (ho : x.owns = some n)
    (h : x.helped n = some q) :
    x.pc = .settle (helpingSlot n) q ∨ x'.owns = some n ∧ x'.helped n = some q := by
  cases hpc : x.pc with
  | setIdle gen p =>
    simp only [helped, hpc] at h
    cases h
    simp only [owns, hpc] at ho
    simp only [Local.step, hpc, ho, Option.map_some] at hs
    cases hs
    refine .inr ⟨ho, ?_⟩
    simp only [helped, goto, if_true]
  | settle d p =>
    simp only [helped, hpc] at h
    split at h
    · rename_i hd
      cases h
      exact .inl (by rw [hd])
    · cases h
  | _ =>
    simp only [helped, hpc] at h
    cases h

@[simp] theorem Shared.setDebt_self (m : Shared Node L Sto) (d : Debt Node) (w : Nat) :
    (m.setDebt d w).debt d = w :=
  Function.update_self ..

theorem Shared.setDebt_of_ne {d e : Debt Node} (h : e ≠ d) (m : Shared Node L Sto) (w : Nat) :
    (m.setDebt d w).debt e = m.debt e :=
  Function.update_of_ne h ..

theorem Shared.setGuards_guards (m : Shared Node L Sto) (d e : Debt Node) (p q k : Nat) :
    (m.setGuards e q k).guards d p = if d = e ∧ p = q then k else m.guards d p := by
  by_cases hde : d = e
  · subst hde
    by_cases hpq : p = q
    · subst hpq
      simp [setGuards]
    · simp [setGuards, hpq]
  · simp [setGuards, hde]

theorem Shared.settle_debt (m : Shared Node L Sto) (d e : Debt Node) (p : Nat) :
    (m.settle d p).debt e = if e = d ∧ m.debt d = p then debtNone else m.debt e := by
  by_cases h : m.debt d = p
  · by_cases he : e = d
    · subst he
      simp only [settle, h, setDebt, if_true, Function.update_self, and_self]
    · simp only [settle, h, setDebt, if_true, Function.update_of_ne he, he, false_and, if_false]
  · simp only [settle, h, if_false, and_false]

theorem Shared.settle_consumed (m : Shared Node L Sto) (d e : Debt Node) (p q : Nat) :
    (m.settle d p).consumed e q =
      m.consumed e q + if m.debt d ≠ p ∧ e = d ∧ q = p then 1 else 0 := by
  by_cases h : m.debt d = p
  · simp only [settle, h, setDebt, if_true, ne_eq, not_true, false_and, if_false, Nat.add_zero]
  · by_cases he : e = d
    · subst he
      by_cases hq : q = p
      · subst hq
        simp [settle, h]
      · simp [settle, h, hq]
    · simp [settle, h, he]

theorem Shared.settle_paid (m : Shared Node L Sto) (d : Debt Node) (p : Nat) :
    (m.settle d p).paid = m.paid ∧ (m.settle d p).guards = m.guards := by
  simp only [settle]
  split <;> exact ⟨rfl, rfl⟩

/-- One who is recorded on `(d, p)` takes the debt back or consumes what has paid it: the account of
every slot and pointer stays even. -/
theorem Shared.settle_account (m : Shared Node L Sto) (d e : Debt Node) (p q : Nat)
    (hq : q ≠ debtNone) :
    (m.settle d p).consumed e q + (if m.debt e = q then 1 else 0) =
      m.consumed e q + (if (m.settle d p).debt e = q then 1 else 0) +
        if e = d ∧ q = p then 1 else 0 := by
  rw [settle_consumed, settle_debt]
  by_cases he : e = d
  · subst he
    by_cases hqp : q = p
    · subst hqp
      by_cases h : m.debt e = q
      · simp [h, Ne.symm hq]
      · simp [h]
    · by_cases h : m.debt e = p
      · simp [h, hqp, Ne.symm hqp, Ne.symm hq]
      · simp [h, hqp]
  · simp [he]

theorem Shared.pay_debt (m : Shared Node L Sto) (d e : Debt Node) (p : Nat) :
    (m.pay d p).debt e = if e = d ∧ m.debt d = p then debtNone else m.debt e := by
  by_cases h : m.debt d = p
  · by_cases he : e = d
    · subst he
      simp only [pay, h, setDebt, if_true, Function.update_self, and_self]
    · simp only [pay, h, setDebt, if_true, Function.update_of_ne he, he, false_and, if_false]
  · simp only [pay, h, if_false, and_false]

theorem Shared.pay_same (m : Shared Node L Sto) (d : Debt Node) (p : Nat) :
    (m.pay d p).guards = m.guards ∧ (m.pay d p).consumed = m.consumed ∧
      (m.pay d p).allocated = m.allocated := by
  simp only [pay]
  split <;> exact ⟨rfl, rfl, rfl⟩

theorem Shared.pay_account (m : Shared Node L Sto) (d e : Debt Node) (p q : Nat)
    (hq : q ≠ debtNone) :
    (if m.debt e = q then 1 else 0) + m.paid e q =
      (if (m.pay d p).debt e = q then 1 else 0) + (m.pay d p).paid e q := by
  rw [pay_debt]
  by_cases h : m.debt d = p
  · by_cases he : e = d
    · subst he
      by_cases hqp : q = p
      · subst hqp
        simp [pay, h, setDebt, Ne.symm hq]
        omega
      · simp [pay, h, setDebt, hqp, Ne.symm hqp, Ne.symm hq]
    · simp [pay, h, setDebt, he]
  · simp [pay, h]

/-- The account of every slot and pointer, and that a slot is written by its owner only when it is
empty. -/
structure State.Settled [Fintype L] (σ : State Node L W Sto) : Prop where
  account : ∀ d p, p ≠ debtNone → σ.recorded d p + σ.shared.consumed d p =
    (if σ.shared.debt d = p then 1 else 0) + σ.shared.paid d p
  ptr : ∀ l p, (σ.locals l).pc.ptr = some p → p ≠ debtNone
  guards : ∀ d, σ.shared.guards d debtNone = 0
  fresh : ∀ d, σ.shared.allocated d.1 = false → σ.shared.debt d = debtNone
  take : ∀ l p k n, (σ.locals l).pc = .take p k → (σ.locals l).node = some n →
    σ.shared.debt (fastSlot n k) = debtNone
  helping : ∀ n, σ.shared.debt (helpingSlot n) ≠ debtNone → ∃ l, (σ.locals l).owns = some n ∧
    (σ.locals l).helped n = some (σ.shared.debt (helpingSlot n))

theorem Local.Settling.debt (h : Local.Settling m m' x x') (e : Debt Node) :
    m'.debt e = m.debt e ∨ m'.debt e = debtNone ∨
      x.owns = some e.1 ∧ ∃ p, m'.debt e = p ∧ ((∃ k, x.pc = .take p k ∧ e = fastSlot e.1 k) ∨
        ∃ gen, x.pc = .setSlot gen p ∧ e = helpingSlot e.1) := by
  cases h with
  | keep hd _ _ _ _ => exact (hd e).imp id fun h => .inl h.2
  | fill d p ho hx hm _ _ _ _ =>
    by_cases he : e = d
    · subst he
      refine .inr (.inr ⟨ho, p, ?_, hx⟩)
      rw [hm, Shared.setDebt_self]
    · left
      rw [hm, Shared.setDebt_of_ne he]
  | confirm d p _ hm _ _ =>
    left
    rw [hm]
    rfl
  | settle d p _ hm _ _ =>
    rw [hm, Shared.settle_debt]
    split
    · exact .inr (.inl rfl)
    · exact .inl rfl

variable [Fintype L]

theorem State.Settled.fills (h : σ.Settled) (hO : σ.Owned) (ho : (σ.locals l).owns = some d.1)
    (hx : (∃ k, (σ.locals l).pc = .take p k ∧ d = fastSlot d.1 k) ∨
      ∃ gen, (σ.locals l).pc = .setSlot gen p ∧ d = helpingSlot d.1) :
    σ.shared.debt d = debtNone := by
  rcases hx with ⟨k, hpc, hd⟩ | ⟨gen, hpc, hd⟩
  · have hn : (σ.locals l).node = some d.1 := by simpa only [Local.owns, hpc] using ho
    rw [hd]
    exact h.take l p k d.1 hpc hn
  · by_contra hne
    rw [hd] at hne
    obtain ⟨k, hk, hhelp⟩ := h.helping d.1 hne
    have hkl : k = l := Option.some.inj (((hO.owner k d.1).1 hk).symm.trans ((hO.owner l d.1).1 ho))
    subst hkl
    simp only [Local.helped, hpc] at hhelp
    cases hhelp

theorem State.Settled.of_eq (h : σ.Settled) (hl : σ'.locals = σ.locals)
    (hd : σ'.shared.debt = σ.shared.debt) (hg : σ'.shared.guards = σ.shared.guards)
    (hp : σ'.shared.paid = σ.shared.paid) (hc : σ'.shared.consumed = σ.shared.consumed)
    (ha : σ'.shared.allocated = σ.shared.allocated) : σ'.Settled := by
  obtain ⟨h₁, h₂, h₃, h₄, h₅, h₆⟩ := h
  simp only [State.recorded, ← hl, ← hd, ← hg, ← hp, ← hc, ← ha] at h₁ h₂ h₃ h₄ h₅ h₆
  exact ⟨h₁, h₂, h₃, h₄, h₅, h₆⟩

theorem State.Settled.emptied (h : σ.Settled) (hl : σ'.locals = σ.locals)
    (hd : ∀ d, σ'.shared.debt d = σ.shared.debt d ∨ σ'.shared.debt d = debtNone)
    (hg : ∀ d, σ'.shared.guards d debtNone = 0)
    (ha : σ'.shared.allocated = σ.shared.allocated)
    (hacc : ∀ d p, p ≠ debtNone → σ'.recorded d p + σ'.shared.consumed d p =
      (if σ'.shared.debt d = p then 1 else 0) + σ'.shared.paid d p) : σ'.Settled := by
  have hnone : ∀ d, σ.shared.debt d = debtNone → σ'.shared.debt d = debtNone := by
    intro d h
    rcases hd d with he | he
    · exact he.trans h
    · exact he
  refine ⟨hacc, ?_, hg, fun d hf => ?_, fun l p k n hpc hn => ?_, fun n hne => ?_⟩
  · rw [hl]
    exact h.ptr
  · rw [ha] at hf
    exact hnone d (h.fresh d hf)
  · rw [hl] at hpc hn
    exact hnone _ (h.take l p k n hpc hn)
  · rcases hd (helpingSlot n) with he | he
    · rw [hl, he]
      exact h.helping n (he ▸ hne)
    · exact absurd he hne

theorem State.recorded_pos {l : L} (h : 0 < (σ.locals l).unresolved d p) : 0 < σ.recorded d p := by
  have hle := Finset.single_le_sum (f := fun l => (σ.locals l).unresolved d p)
    (fun _ _ => Nat.zero_le _) (Finset.mem_univ l)
  rw [State.recorded]
  omega

/-- Whoever is recorded on a slot finds the debt there or a reference that has paid it. -/
theorem State.Settled.paid_or_owed (h : σ.Settled) (hpos : 0 < σ.recorded d p) :
    p ≠ debtNone ∧ (σ.shared.debt d = p ∨ σ.shared.consumed d p < σ.shared.paid d p) := by
  have hp : p ≠ debtNone := by
    rintro rfl
    have hu : ∀ l, (σ.locals l).unresolved d debtNone = 0 := by
      intro l
      have hptr := h.ptr l debtNone
      cases hpc : (σ.locals l).pc with
      | confirm e q | settle e q | setIdle e q =>
        rw [hpc] at hptr
        simp only [Local.unresolved, hpc]
        rw [if_neg]
        rintro ⟨_, rfl⟩
        exact hptr rfl rfl
      | _ => simp only [Local.unresolved, hpc]
    simp only [State.recorded, h.guards, hu, Finset.sum_const_zero] at hpos
    omega
  refine ⟨hp, ?_⟩
  have hacc := h.account d p hp
  by_cases hd : σ.shared.debt d = p
  · exact .inl hd
  · rw [if_neg hd] at hacc
    right
    omega

variable [DecidableEq L]

theorem State.recorded_setLocal (σ : State Node L W Sto) (l : L) (m' : Shared Node L Sto)
    (x' : Local Node Sto) (d : Debt Node) (p : Nat) :
    (σ.setLocal l (m', x')).recorded d p + (σ.locals l).unresolved d p + σ.shared.guards d p =
      σ.recorded d p + x'.unresolved d p + m'.guards d p := by
  have hsum := Concurrent.sum_update_add σ.locals (fun x => x.unresolved d p) l x'
  simp only [State.recorded, State.setLocal]
  omega

theorem State.Settled.helping_run (h : σ.Settled)
    (hs : (σ.locals l).step w l i σ.shared = some (m', x'))
    (hne : m'.debt (helpingSlot n) ≠ debtNone) : ∃ k,
    (Function.update σ.locals l x' k).owns = some n ∧
      (Function.update σ.locals l x' k).helped n = some (m'.debt (helpingSlot n)) := by
  have hset := Local.step_settling hs
  -- the slot as it was, with the transaction of its owner
  have hsame : m'.debt (helpingSlot n) = σ.shared.debt (helpingSlot n) →
      (∀ d p, (σ.locals l).pc = .settle d p → m' = σ.shared.settle d p) → ∃ k,
        (Function.update σ.locals l x' k).owns = some n ∧
          (Function.update σ.locals l x' k).helped n = some (m'.debt (helpingSlot n)) := by
    intro he hsettle
    obtain ⟨k, hk, hhelp⟩ := h.helping n (he ▸ hne)
    rw [he]
    by_cases hkl : k = l
    · subst hkl
      rcases Local.step_helped hs hk hhelp with hpc | hkeep
      · rw [hsettle _ _ hpc, Shared.settle_debt, if_pos ⟨rfl, rfl⟩] at hne
        exact absurd rfl hne
      · refine ⟨k, ?_⟩
        rwa [Function.update_self]
    · refine ⟨k, ?_⟩
      rw [Function.update_of_ne hkl]
      exact ⟨hk, hhelp⟩
  have hsettle : ∀ d p, (σ.locals l).pc = .settle d p → m' = σ.shared.settle d p := by
    intro d p hpc
    simp only [Local.step, hpc, Option.some.injEq] at hs
    exact (congrArg Prod.fst hs).symm
  cases hset with
  | keep hd _ _ _ _ =>
    rcases hd (helpingSlot n) with he | ⟨_, he⟩
    · exact hsame he hsettle
    · exact absurd he hne
  | fill d p ho hx hm ho' hh _ _ =>
    by_cases hd : helpingSlot n = d
    · subst hd
      refine ⟨l, ?_⟩
      rw [Function.update_self, hm, Shared.setDebt_self]
      exact ⟨ho', hh rfl⟩
    · refine hsame ?_ hsettle
      rw [hm, Shared.setDebt_of_ne hd]
  | confirm d p _ hm _ _ => exact hsame (by rw [hm]; rfl) hsettle
  | settle d p _ hm _ _ =>
    refine hsame ?_ hsettle
    rw [hm, Shared.settle_debt] at hne ⊢
    split
    · rename_i hd
      rw [if_pos hd] at hne
      exact absurd rfl hne
    · rfl

theorem State.Settled.account_run (h : σ.Settled) (hO : σ.Owned)
    (hs : Local.Settling σ.shared m' (σ.locals l) x') (hp : p ≠ debtNone) :
    (σ.setLocal l (m', x')).recorded d p + m'.consumed d p =
      (if m'.debt d = p then 1 else 0) + m'.paid d p := by
  have hold := h.account d p hp
  have hrec := σ.recorded_setLocal l m' x' d p
  cases hs with
  | keep hd hg hpaid hc hu =>
    have hde : m'.debt d = σ.shared.debt d := by
      rcases hd d with he | ⟨hf, he⟩
      · exact he
      · rw [he, h.fresh d hf]
    rw [hu, hg] at hrec
    rw [hde, hpaid, hc]
    omega
  | fill e q ho hx hm _ _ hu hu' =>
    have hnone := h.fills hO ho hx
    subst hm
    have hguards : (σ.shared.setDebt e q).guards = σ.shared.guards := rfl
    rw [hu, hu', hguards] at hrec
    change _ + σ.shared.consumed d p = _ + σ.shared.paid d p
    by_cases hde : d = e
    · subst hde
      rw [hnone, if_neg (Ne.symm hp)] at hold
      simp only [Shared.setDebt_self]
      by_cases hpq : p = q
      · subst hpq
        simp only [and_self, if_true] at hrec ⊢
        omega
      · simp only [hpq, Ne.symm hpq, and_false, if_false] at hrec ⊢
        omega
    · simp only [hde, false_and, if_false] at hrec
      simp only [Shared.setDebt_of_ne hde]
      omega
  | confirm e q hpc hm hu hu' =>
    subst hm
    rw [hu, hu', Shared.setGuards_guards] at hrec
    change _ + σ.shared.consumed d p =
      (if σ.shared.debt d = p then 1 else 0) + σ.shared.paid d p
    by_cases hde : d = e ∧ p = q
    · obtain ⟨rfl, rfl⟩ := hde
      simp only [and_self, if_true] at hrec
      omega
    · simp only [hde, if_false] at hrec
      omega
  | settle e q hpc hm hu hu' =>
    subst hm
    obtain ⟨hpaid, hguards⟩ := σ.shared.settle_paid e q
    have hacc := σ.shared.settle_account e d q p hp
    rw [hu, hu', hguards] at hrec
    rw [hpaid]
    omega

theorem State.Settled.begin (h : σ.Settled) (hs : (σ.locals l).begin op = some x') :
    (σ.setLocal l (σ.shared, x')).Settled := by
  obtain ⟨hu, hnot⟩ := Local.begin_settling hs
  refine ⟨fun d p hp => ?_, fun k p hk => ?_, h.guards, h.fresh, fun k p j n hpc hn => ?_,
    fun n hne => ?_⟩
  · have hold := h.account d p hp
    have hrec := σ.recorded_setLocal l σ.shared x' d p
    rw [hu] at hrec
    change _ + σ.shared.consumed d p = (if σ.shared.debt d = p then 1 else 0) + σ.shared.paid d p
    omega
  · by_cases hkl : k = l
    · subst hkl
      simp only [State.setLocal, Function.update_self] at hk
      exact Local.begin_ptr hs hk
    · simp only [State.setLocal, Function.update_of_ne hkl] at hk
      exact h.ptr k p hk
  · by_cases hkl : k = l
    · subst hkl
      simp only [State.setLocal, Function.update_self] at hpc
      exact absurd hpc (hnot p j)
    · simp only [State.setLocal, Function.update_of_ne hkl] at hpc hn ⊢
      exact h.take k p j n hpc hn
  · obtain ⟨k, hk, hhelp⟩ := h.helping n hne
    have hkl : k ≠ l := by
      rintro rfl
      simp only [Local.helped, Local.begin_rest hs] at hhelp
      cases hhelp
    refine ⟨k, ?_⟩
    simp only [State.setLocal, Function.update_of_ne hkl]
    exact ⟨hk, hhelp⟩

theorem State.Settled.run (h : σ.Settled) (hL : σ.Listed) (hO : σ.Owned)
    (hs : (σ.locals l).step w l i σ.shared = some (m', x')) : (σ.setLocal l (m', x')).Settled := by
  have hset := Local.step_settling hs
  refine ⟨fun d p hp => h.account_run hO hset hp, fun k p hk => ?_, fun d => ?_, fun d hd => ?_,
    fun k p j n hpc hn => ?_, fun n hne => h.helping_run hs hne⟩
  · by_cases hkl : k = l
    · subst hkl
      simp only [State.setLocal, Function.update_self] at hk
      rcases Local.step_ptr hs hk with hk | hk
      · exact h.ptr k p hk
      · exact hk
    · simp only [State.setLocal, Function.update_of_ne hkl] at hk
      exact h.ptr k p hk
  · change m'.guards d debtNone = 0
    cases hset with
    | keep _ hg _ _ _ =>
      rw [hg]
      exact h.guards d
    | fill _ _ _ _ hm _ _ _ _ =>
      rw [hm]
      exact h.guards d
    | confirm e p hpc hm _ _ =>
      have hp : p ≠ debtNone := h.ptr l p (by rw [hpc]; rfl)
      rw [hm, Shared.setGuards_guards, if_neg fun he => hp he.2.symm]
      exact h.guards d
    | settle e p _ hm _ _ =>
      rw [hm, (σ.shared.settle_paid e p).2]
      exact h.guards d
  · have hd : m'.allocated d.1 = false := hd
    have hf : σ.shared.allocated d.1 = false := by
      cases hn : σ.shared.allocated d.1 with
      | false => rfl
      | true =>
        cases hd.symm.trans (((hL.locals l).step hL.shared hs).extends_.allocated d.1 hn)
    rcases hset.debt d with he | he | ⟨ho, _⟩
    · exact he.trans (h.fresh d hf)
    · exact he
    · have ht := (hO.owner l d.1).1 ho
      rw [hO.fresh d.1 hf] at ht
      cases ht
  · by_cases hkl : k = l
    · subst hkl
      simp only [State.setLocal, Function.update_self] at hpc hn ⊢
      obtain ⟨rfl, j, hj, _, hd⟩ := Local.step_take hs hpc
      cases hn.symm.trans hj
      exact hd
    · simp only [State.setLocal, Function.update_of_ne hkl] at hpc hn ⊢
      have hnone := h.take k p j n hpc hn
      rcases hset.debt (fastSlot n j) with he | he | ⟨ho, _⟩
      · exact he.trans hnone
      · exact he
      · have hk : (σ.locals k).owns = some n := by simpa only [Local.owns, hpc] using hn
        exact absurd (Option.some.inj (((hO.owner k n).1 hk).symm.trans ((hO.owner l n).1 ho))) hkl

variable [DecidableEq W] [DecidableEq Sto]

theorem State.Settled.step (h : σ.Settled) (hL : σ.Listed) (hO : σ.Owned)
    (hs : σ.step width a = some σ') : σ'.Settled := by
  cases a with
  | begin l op =>
    simp only [State.step, Option.map_eq_some_iff] at hs
    obtain ⟨x', hx', rfl⟩ := hs
    exact h.begin hx'
  | run l i =>
    simp only [State.step, Option.map_eq_some_iff] at hs
    obtain ⟨⟨m', x'⟩, hx', rfl⟩ := hs
    exact h.run hL hO hx'
  | payAll w S ptr =>
    simp only [State.step, Option.map_eq_some_iff] at hs
    obtain ⟨y', _, rfl⟩ := hs
    exact h.of_eq rfl rfl rfl rfl rfl rfl
  | abort w =>
    simp only [State.step, Option.map_eq_some_iff] at hs
    obtain ⟨y', _, rfl⟩ := hs
    exact h.of_eq rfl rfl rfl rfl rfl rfl
  | walk w i =>
    simp only [State.step, Option.map_eq_some_iff] at hs
    obtain ⟨⟨m', y'⟩, hy', rfl⟩ := hs
    rcases Writer.step_settling hy' with ⟨hd, hg, hp, hc, _⟩ | ⟨n, j, _, _, rfl⟩
    · exact h.of_eq rfl hd hg hp hc (Writer.step_list hy').2.2.2
    · have hsame := σ.shared.pay_same (n, j) (σ.writers w).ptr
      refine h.emptied rfl (fun e => ?_) (fun e => ?_) hsame.2.2 fun e p hp => ?_
      · simp only [State.setWriter, Shared.pay_debt]
        split
        · exact .inr rfl
        · exact .inl rfl
      · simp only [State.setWriter, hsame.1]
        exact h.guards e
      · have hold := h.account e p hp
        have hacc := σ.shared.pay_account (n, j) e (σ.writers w).ptr p hp
        change (σ.shared.pay (n, j) (σ.writers w).ptr).guards e p + _ +
          (σ.shared.pay (n, j) (σ.writers w).ptr).consumed e p =
            (if (σ.shared.pay (n, j) (σ.writers w).ptr).debt e = p then 1 else 0) +
              (σ.shared.pay (n, j) (σ.writers w).ptr).paid e p
        rw [hsame.1, hsame.2.1, ← hacc]
        exact hold
  | dropGuard d ptr =>
    simp only [State.step] at hs
    split at hs
    · cases hs
    · rename_i hpos
      cases hs
      have hguards := ((σ.shared.setGuards d ptr (σ.shared.guards d ptr - 1)).settle_paid d ptr).2
      have hpaid := ((σ.shared.setGuards d ptr (σ.shared.guards d ptr - 1)).settle_paid d ptr).1
      have hne : ptr ≠ debtNone := by
        rintro rfl
        exact hpos (h.guards d)
      have ha := (Shared.settle_list (σ.shared.setGuards d ptr (σ.shared.guards d ptr - 1)) d ptr).2.2.2
      refine h.emptied rfl (fun e => ?_) (fun e => ?_) ha fun e p hp => ?_
      · simp only [Shared.settle_debt]
        split
        · exact .inr rfl
        · exact .inl rfl
      · simp only [hguards, Shared.setGuards_guards]
        rw [if_neg fun he => hne he.2.symm]
        exact h.guards e
      · have hold := h.account e p hp
        have hacc := (σ.shared.setGuards d ptr (σ.shared.guards d ptr - 1)).settle_account d e ptr p hp
        simp only [State.recorded, hguards, hpaid, Shared.setGuards_guards] at hold ⊢
        change _ + (if σ.shared.debt e = p then 1 else 0) = σ.shared.consumed e p + _ + _ at hacc
        change _ = _ + σ.shared.paid e p
        by_cases hde : e = d ∧ p = ptr
        · obtain ⟨rfl, rfl⟩ := hde
          simp only [and_self, if_true] at hacc ⊢
          omega
        · simp only [hde, if_false] at hacc ⊢
          omega

theorem State.Settled.reach (hr : (registry width Node L W Sto).Reach ok σ) : σ.Settled := by
  refine hr.invariant_of (Q := fun σ => σ.Listed ∧ σ.Owned)
    (fun _ h => ⟨State.Listed.reach h, State.Owned.reach h⟩) ?_
    fun _ _ _ hQ h _ hs => h.step hQ.1 hQ.2 hs
  rintro σ rfl
  refine ⟨fun d p hp => ?_, fun l p hp => ?_, fun _ => rfl, fun _ _ => rfl,
    fun l p k n hpc => ?_, fun n hne => absurd rfl hne⟩
  · have hsum : ∑ l : L, ((start Node L W Sto).locals l).unresolved d p = 0 :=
      Finset.sum_eq_zero fun _ _ => rfl
    rw [State.recorded, hsum]
    simp [start, Ne.symm hp]
  · cases hp
  · cases hpc

/-- A step empties a slot, or it is the owner's who fills an empty one. -/
theorem State.Settled.written (h : σ.Settled) (hO : σ.Owned) (hs : σ.step width a = some σ')
    (hne : σ'.shared.debt d ≠ σ.shared.debt d) :
    σ'.shared.debt d = debtNone ∨ σ.shared.debt d = debtNone ∧
      ∃ l i, a = .run l i ∧ (σ.locals l).owns = some d.1 := by
  cases a with
  | begin | payAll | abort =>
    simp only [State.step, Option.map_eq_some_iff] at hs
    obtain ⟨_, _, rfl⟩ := hs
    exact absurd rfl hne
  | run l i =>
    simp only [State.step, Option.map_eq_some_iff] at hs
    obtain ⟨⟨m', x'⟩, hx', rfl⟩ := hs
    rcases (Local.step_settling hx').debt d with he | he | ⟨ho, p, _, hx⟩
    · exact absurd he hne
    · exact .inl he
    · exact .inr ⟨h.fills hO ho hx, l, i, rfl, ho⟩
  | walk w i =>
    simp only [State.step, Option.map_eq_some_iff] at hs
    obtain ⟨⟨m', y'⟩, hy', rfl⟩ := hs
    rcases Writer.step_settling hy' with ⟨hd, _⟩ | ⟨n, j, _, _, rfl⟩
    · exact absurd (congrFun hd d) hne
    · left
      simp only [State.setWriter, Shared.pay_debt] at hne ⊢
      split at hne
      · rename_i he
        rw [if_pos he]
      · exact absurd rfl hne
  | dropGuard e ptr =>
    simp only [State.step] at hs
    split at hs <;> cases hs
    left
    simp only [Shared.settle_debt] at hne ⊢
    split at hne
    · rename_i he
      rw [if_pos he]
    · exact absurd rfl hne

/-- However `Guard`s move between threads, nodes between owners and writers between nodes: the
`Guard`s and loads that are recorded on a slot with a pointer are as many as the debt that the slot
holds for it and the references that have paid it and are still there. A slot is only filled by the
owner of its node and when it is empty, the helping slot of a node without an owner is empty, and
whoever is recorded on a slot finds the debt there or a reference that has paid it. -/
theorem debts_settled (hr : (registry width Node L W Sto).Reach ok σ) :
    (∀ d p, p ≠ debtNone → σ.recorded d p + σ.shared.consumed d p =
      (if σ.shared.debt d = p then 1 else 0) + σ.shared.paid d p) ∧
    (∀ a σ' d, σ.step width a = some σ' → σ'.shared.debt d ≠ σ.shared.debt d →
      σ'.shared.debt d = debtNone ∨ σ.shared.debt d = debtNone ∧
        ∃ l i, a = .run l i ∧ (σ.locals l).owns = some d.1) ∧
    (∀ n, (∀ l, (σ.locals l).owns ≠ some n) → σ.shared.debt (helpingSlot n) = debtNone) ∧
    ∀ d p, 0 < σ.recorded d p → p ≠ debtNone ∧
      (σ.shared.debt d = p ∨ σ.shared.consumed d p < σ.shared.paid d p) := by
  have h := State.Settled.reach hr
  refine ⟨h.account, fun a σ' d hs hne => h.written (State.Owned.reach hr) hs hne, fun n hn => ?_,
    fun d p hpos => h.paid_or_owed hpos⟩
  by_contra hne
  obtain ⟨l, hl, _⟩ := h.helping n hne
  exact hn l hl

/-- The owner of a node exits while a `Guard` is recorded on its first slot. Another thread takes the
node over with the debt in it and records a `Guard` for the same pointer on the second slot, and a
writer pays both. -/
theorem debts_settled_paid : ∃ σ, (registry 64 Nat Bool Unit Unit).Reach (fun _ _ => True) σ ∧
    σ.shared.turns 0 = [.claimed true, .released false, .claimed false] ∧
      σ.shared.paid (0, 0) 8 = 1 ∧ σ.shared.paid (0, 1) 8 = 1 ∧
      σ.shared.debt (0, 0) = debtNone ∧ σ.shared.debt (0, 1) = debtNone ∧
      σ.recorded (0, 0) 8 + σ.shared.consumed (0, 0) 8 = 1 ∧
      σ.recorded (0, 1) 8 + σ.shared.consumed (0, 1) 8 = 1 := by
  obtain ⟨σ, hr, hp⟩ := reach_after 64 (fun _ _ => True)
    (getFirst false 0 ++ [.begin false (.attempt 8)] ++ steps false 0 2 ++
      [.run false ⟨0, 8, true⟩, .begin false .drop] ++ steps false 0 3 ++
      [.begin true .get] ++ steps true 1 5 ++ [.begin true (.attempt 8)] ++ steps true 0 3 ++
      [.run true ⟨0, 8, true⟩, .payAll () () 8] ++ List.replicate 5 (.walk () ⟨0, 8, false⟩))
    (fun σ => σ.shared.turns 0 = [.claimed true, .released false, .claimed false] ∧
      σ.shared.paid (0, 0) 8 = 1 ∧ σ.shared.paid (0, 1) 8 = 1 ∧
      σ.shared.debt (0, 0) = debtNone ∧ σ.shared.debt (0, 1) = debtNone) (by decide +kernel)
  rw [decide_eq_true_eq] at hp
  obtain ⟨hturns, hpaid, hpaid', hd, hd'⟩ := hp
  refine ⟨σ, hr, hturns, hpaid, hpaid', hd, hd', ?_, ?_⟩
  · rw [(debts_settled hr).1 (0, 0) 8 (by decide), hpaid, hd]
    rfl
  · rw [(debts_settled hr).1 (0, 1) 8 (by decide), hpaid', hd']
    rfl

end ArcSwap.Registry
