import ArcSwap.Registry.Owners
import ArcSwap.Concurrent.Account

namespace ArcSwap.Registry
set_option autoImplicit true

/-- The node of which a `LocalNode` holds a reservation, and the cooldown it was taken in. -/
def Local.reservation (x : Local Node Sto) : Option (Node × Nat) :=
  match x.pc with
  | .cooldown _ since | .release _ since => x.node.map fun n => (n, since)
  | _ => none

def Writer.reservation (y : Writer Node Sto) : Option (Node × Nat) :=
  match y.pc with
  | .load n | .addr n _ | .recheck n _ | .offer n _ | .pay n _ | .unwind n => some (n, y.since)
  | _ => none

variable {Node L W Sto : Type} {m m' : Shared Node L Sto} {x x' : Local Node Sto}
  {y y' : Writer Node Sto} {σ σ' : State Node L W Sto}

/-- Somebody holds a reservation of `n` that was taken after `since` cooldowns of it. -/
def State.Outstanding (σ : State Node L W Sto) (n : Node) (since : Nat) : Prop :=
  (∃ l, (σ.locals l).reservation = some (n, since)) ∨
    ∃ w, (σ.writers w).reservation = some (n, since)

theorem Writer.reservation_visiting (h : y.reservation = some (n, k)) :
    y.pc.visiting = some n ∧ k = y.since := by
  cases hpc : y.pc with
  | load | addr | recheck | offer | pay | unwind =>
    simp only [reservation, hpc] at h
    cases h
    exact ⟨rfl, rfl⟩
  | _ =>
    simp only [reservation, hpc] at h
    cases h

theorem Local.reservation_node (h : x.reservation = some (n, k)) : x.node = some n := by
  cases hpc : x.pc with
  | cooldown | release =>
    simp only [reservation, hpc, Option.map_eq_some_iff] at h
    obtain ⟨j, hj, he⟩ := h
    cases he
    exact hj
  | _ =>
    simp only [reservation, hpc] at h
    cases h

theorem Writer.look_reservation (m : Shared Node L Sto) (y : Writer Node Sto) (n : Node) :
    (look m y n).reservation = some (n, y.since) := by
  simp only [look]
  split_ifs <;> rfl

theorem Local.begin_reservation (hs : x.begin op = some x') :
    x'.reservation = x.reservation ∧ ∀ n e, x'.pc ≠ .exchange n e := by
  cases hpc : x.pc with
  | rest =>
    cases op with
    | get | attempt | fallback =>
      simp only [Local.begin, hpc] at hs
      split at hs <;> cases hs
      exact ⟨by simp only [reservation, hpc, goto], by intro n e h; cases h⟩
    | drop =>
      simp only [Local.begin, hpc, Option.some.injEq] at hs
      split at hs
      · cases hs
        exact ⟨by simp only [reservation, hpc, goto], by intro n e h; cases h⟩
      · cases hs
        exact ⟨by simp only [reservation, hpc, fresh], by intro n e h; cases h⟩
  | _ =>
    simp only [Local.begin, hpc] at hs
    cases hs

theorem Writer.begin_reservation (hs : y.begin S p = some y') :
    y'.reservation = y.reservation := by
  simp only [Writer.begin] at hs
  split at hs
  · rename_i hpc
    split at hs <;> cases hs
    simp only [reservation, hpc]
  · rename_i hpc
    split at hs <;> cases hs
    simp only [reservation, hpc]
  · cases hs

theorem Writer.abort_reservation (hs : y.abort = some y') :
    y'.reservation = y.reservation := by
  cases hpc : y.pc with
  | load | addr | recheck | offer | pay =>
    simp only [Writer.abort, hpc, Option.some.injEq] at hs
    cases hs
    simp only [reservation, hpc, goto]
  | _ =>
    simp only [Writer.abort, hpc] at hs
    cases hs

/-- A node that is not allocated has no reservations. -/
theorem State.Listed.unreserved (h : σ.Listed) (hn : σ.shared.allocated n = false) :
    ¬ σ.Outstanding n s := by
  have hp : n ∉ σ.shared.published := by
    intro hp
    cases hn.symm.trans (h.shared.allocated n hp)
  rintro (⟨l, hl⟩ | ⟨w, hw⟩)
  · exact hp ((h.locals l).node n (Local.reservation_node hl))
  · exact hp ((h.writers w).walking n (Writer.reservation_visiting hw).1).1

variable [DecidableEq Node]

def holds (n : Node) (r : Option (Node × Nat)) : Nat := if r.map Prod.fst = some n then 1 else 0

/-- What a step does to the reservation `r` of the one who makes it, and to their counts. -/
inductive Shared.Reserving (m m' : Shared Node L Sto) (r r' : Option (Node × Nat)) : Prop
  | keep (ha : ∀ n, m.allocated n = true → m'.activeWriters n = m.activeWriters n)
    (hf : ∀ n, m.allocated n = false → m'.activeWriters n = 0 ∨
      m'.activeWriters n = m.activeWriters n) (hr : r' = r)
  | reserve (n : Node) (hn : n ∈ m.published)
    (ha : m'.activeWriters = Function.update m.activeWriters n (m.activeWriters n + 1))
    (hr : r = none) (hr' : r' = some (n, m.cooldowns n))
  | unreserve (n : Node) (since : Nat)
    (ha : m'.activeWriters = Function.update m.activeWriters n (m.activeWriters n - 1))
    (hr : r = some (n, since)) (hr' : r' = none)

theorem Shared.Reserving.of_eq (ha : m'.activeWriters = m.activeWriters) (hr : r' = r) :
    m.Reserving m' r r' := by
  refine .keep (fun n _ => ?_) (fun n _ => .inr ?_) hr <;> rw [ha]

theorem Local.step_reserving (hx : x.Listed m)
    (hu : ∀ n, x.owns = some n → m.inUse n = nodeUsed) (hs : x.step w l i m = some (m', x')) :
    m.Reserving m' x.reservation x'.reservation := by
  cases hpc : x.pc with
  | rest | assertion =>
    simp only [Local.step, hpc] at hs
    cases hs
  | head =>
    simp only [Local.step, hpc, Option.some.injEq] at hs
    cases hs
    refine .of_eq rfl ?_
    simp only [reservation, hpc]
    cases m.listHead <;> rfl
  | inUse n =>
    simp only [Local.step, hpc, Option.some.injEq] at hs
    cases hs
    split <;> exact .of_eq rfl (by simp only [reservation, hpc, goto])
  | writers n =>
    simp only [Local.step, hpc, Option.some.injEq] at hs
    cases hs
    split <;> exact .of_eq rfl (by simp only [reservation, hpc, goto])
  | exchange n epoch =>
    simp only [Local.step, hpc, Option.some.injEq] at hs
    split at hs <;> cases hs <;> exact .of_eq rfl (by simp only [reservation, hpc, goto])
  | claim n =>
    simp only [Local.step, hpc] at hs
    split at hs <;> cases hs <;> exact .of_eq rfl (by simp only [reservation, hpc, goto])
  | next n =>
    simp only [Local.step, hpc, Option.some.injEq] at hs
    cases hs
    refine .of_eq rfl ?_
    simp only [reservation, hpc]
    cases m.next n <;> rfl
  | alloc =>
    simp only [Local.step, hpc] at hs
    split at hs
    · cases hs
    · rename_i hfree
      cases hs
      refine .keep (fun n hn => ?_) (fun n _ => ?_) (by simp only [reservation, hpc, goto])
      · apply Function.update_of_ne
        rintro rfl
        exact hfree hn
      · by_cases hn : n = i.fresh
        · subst hn
          exact .inl (Function.update_self ..)
        · exact .inr (Function.update_of_ne hn _ _)
  | loadHead | link =>
    simp only [Local.step, hpc, Option.some.injEq] at hs
    cases hs
    exact .of_eq rfl (by simp only [reservation, hpc, goto])
  | prepend h head =>
    simp only [Local.step, hpc] at hs
    split at hs <;> cases hs <;> exact .of_eq rfl (by simp only [reservation, hpc, goto])
  | scan ptr k =>
    simp only [Local.step, hpc, Option.map_eq_some_iff] at hs
    obtain ⟨n, _, hs⟩ := hs
    cases hs
    refine .of_eq rfl ?_
    simp only [reservation, hpc, goto]
    split_ifs <;> rfl
  | take | setAddr | setIdle =>
    simp only [Local.step, hpc, Option.map_eq_some_iff] at hs
    obtain ⟨n, _, hs⟩ := hs
    cases hs
    exact .of_eq rfl (by simp only [reservation, hpc, goto])
  | setControl gen discard =>
    obtain ⟨n, pc, _, rfl, rfl, hpc'⟩ := Local.step_setControl hpc hs
    rcases hpc' with ⟨rfl, _⟩ | ⟨_, ⟨_, rfl⟩ | ⟨_, rfl⟩⟩ <;>
      exact .of_eq rfl (by simp only [reservation, hpc, goto])
  | reserve why =>
    simp only [Local.step, hpc, Option.map_eq_some_iff] at hs
    obtain ⟨n, hn, hs⟩ := hs
    cases hs
    exact .reserve n (hx.node n hn) rfl (by simp only [reservation, hpc])
      (by simp only [reservation, goto, hn, Option.map_some])
  | confirm d ptr =>
    simp only [Local.step, hpc, Option.some.injEq] at hs
    split at hs <;> cases hs <;> exact .of_eq rfl (by simp only [reservation, hpc, goto])
  | settle d ptr =>
    simp only [Local.step, hpc, Option.some.injEq] at hs
    cases hs
    simp only [Shared.settle]
    split <;> exact .of_eq rfl (by simp only [reservation, hpc, goto])
  | cooldown why since =>
    simp only [Local.step, hpc, Option.map_eq_some_iff] at hs
    obtain ⟨n, hn, hs⟩ := hs
    have howns : x.owns = some n := by simpa only [owns, hpc] using hn
    rw [if_pos (hu n howns)] at hs
    cases hs
    exact .of_eq rfl (by simp only [reservation, hpc, goto])
  | release why since =>
    simp only [Local.step, hpc, Option.map_eq_some_iff] at hs
    obtain ⟨n, hn, hs⟩ := hs
    have hr : x.reservation = some (n, since) := by
      simp only [reservation, hpc, hn, Option.map_some]
    cases why with
    | drop =>
      cases hs
      exact .unreserve n since rfl hr rfl
    | discard gen =>
      cases hs
      exact .unreserve n since rfl hr rfl
  | candidate gen =>
    simp only [Local.step, hpc] at hs
    split at hs <;> cases hs
    exact .of_eq rfl (by simp only [reservation, hpc, goto])
  | setSlot gen ptr =>
    simp only [Local.step, hpc, Option.some.injEq] at hs
    split at hs <;> cases hs <;> exact .of_eq rfl (by simp only [reservation, hpc, goto])
  | wrongControl | panic =>
    simp only [Local.step, hpc, Option.some.injEq] at hs
    cases hs
    exact .of_eq rfl (by simp only [reservation, hpc, goto])

theorem Writer.step_reserving [DecidableEq Sto] (hy : y.Listed m)
    (hs : y.step i m = some (m', y')) : m.Reserving m' y.reservation y'.reservation := by
  cases hpc : y.pc with
  | rest | done =>
    simp only [Writer.step, hpc] at hs
    cases hs
  | head =>
    simp only [Writer.step, hpc, Option.some.injEq] at hs
    cases hs
    refine .of_eq rfl ?_
    simp only [reservation, hpc]
    cases m.listHead <;> rfl
  | reserve n =>
    simp only [Writer.step, hpc, Option.some.injEq] at hs
    cases hs
    have hv : y.pc.visiting = some n := by rw [hpc]; rfl
    exact .reserve n (hy.walking n hv).1 rfl (by simp only [reservation, hpc]) rfl
  | load n =>
    simp only [Writer.step, hpc, Option.some.injEq] at hs
    cases hs
    refine .of_eq rfl ?_
    rw [look_reservation]
    simp only [reservation, hpc]
  | addr n c =>
    simp only [Writer.step, hpc, Option.some.injEq] at hs
    cases hs
    split <;> exact .of_eq rfl (by simp only [reservation, hpc, goto])
  | recheck n c =>
    simp only [Writer.step, hpc, Option.some.injEq] at hs
    cases hs
    split
    · exact .of_eq rfl (by simp only [reservation, hpc, goto])
    · refine .of_eq rfl ?_
      rw [look_reservation]
      simp only [reservation, hpc]
  | offer n c =>
    simp only [Writer.step, hpc] at hs
    split at hs
    · simp only [Option.some.injEq] at hs
      split at hs
      · cases hs
        exact .of_eq rfl (by simp only [reservation, hpc, goto])
      · cases hs
        refine .of_eq rfl ?_
        rw [look_reservation]
        simp only [reservation, hpc]
    · cases hs
  | pay n todo =>
    cases todo with
    | nil =>
      simp only [Writer.step, hpc, Option.some.injEq] at hs
      cases hs
      exact .unreserve n y.since rfl (by simp only [reservation, hpc]) rfl
    | cons j js =>
      simp only [Writer.step, hpc, Option.some.injEq] at hs
      cases hs
      simp only [Shared.pay]
      split <;> exact .of_eq rfl (by simp only [reservation, hpc, goto])
  | next n =>
    simp only [Writer.step, hpc, Option.some.injEq] at hs
    cases hs
    refine .of_eq rfl ?_
    simp only [reservation, hpc]
    cases m.next n <;> rfl
  | unwind n =>
    simp only [Writer.step, hpc, Option.some.injEq] at hs
    cases hs
    exact .unreserve n y.since rfl (by simp only [reservation, hpc]) rfl

theorem holds_eq_zero {n : Node} (h : ∀ s, r ≠ some (n, s)) : holds n r = 0 := by
  rw [holds, if_neg]
  intro he
  obtain ⟨⟨j, s⟩, rfl, hj⟩ := Option.map_eq_some_iff.1 he
  subst hj
  exact h s rfl

theorem holds_pos {n : Node} : 0 < holds n r ↔ ∃ s, r = some (n, s) := by
  constructor
  · intro h
    by_contra hne
    rw [holds_eq_zero (not_exists.1 hne)] at h
    cases h
  · rintro ⟨s, rfl⟩
    simp [holds]

theorem Shared.Reserving.count (h : m.Reserving m' r r') (n : Node)
    (hf : m.allocated n = false → m.activeWriters n = 0) (hle : holds n r ≤ m.activeWriters n) :
    m'.activeWriters n + holds n r = m.activeWriters n + holds n r' := by
  cases h with
  | keep ha hf' hr =>
    rw [hr]
    cases hn : m.allocated n with
    | true => rw [ha n hn]
    | false =>
      rcases hf' n hn with he | he
      · rw [he, hf hn]
      · rw [he]
  | reserve j _ ha hr hr' =>
    rw [ha, hr, hr']
    by_cases hj : n = j
    · subst hj
      simp [holds]
    · simp [holds, hj, Ne.symm hj]
  | unreserve j since ha hr hr' =>
    rw [hr] at hle ⊢
    rw [ha, hr']
    by_cases hj : n = j
    · subst hj
      simp only [holds, Option.map_some, if_true, Function.update_self] at hle ⊢
      simp only [Option.map_none, reduceCtorEq, if_false]
      omega
    · simp [holds, hj, Ne.symm hj]

/-- A checker comes to its exchange when it has read a count of zero. -/
theorem Local.step_exchange (hs : x.step w l i m = some (m', x')) (he : x'.pc = .exchange n e) :
    m' = m ∧ m.activeWriters n = 0 ∧ e = m.cooldowns n := by
  cases hg : x.pc.getting with
  | false =>
    have hg' := (step_outside hs hg).getting
    rw [he] at hg'
    cases hg'
  | true =>
    cases hpc : x.pc with
    | writers k =>
      simp only [Local.step, hpc, Option.some.injEq] at hs
      cases hs
      simp only [goto] at he
      split at he
      · rename_i hzero
        cases he
        exact ⟨rfl, hzero, rfl⟩
      · cases he
    | head =>
      simp only [Local.step, hpc, Option.some.injEq] at hs
      cases hs
      cases hl : m.listHead <;> rw [hl] at he <;> cases he
    | next k =>
      simp only [Local.step, hpc, Option.some.injEq] at hs
      cases hs
      cases hl : m.next k <;> rw [hl] at he <;> cases he
    | inUse k =>
      simp only [Local.step, hpc, Option.some.injEq] at hs
      cases hs
      simp only [goto] at he
      split at he <;> cases he
    | exchange | loadHead | link =>
      simp only [Local.step, hpc, Option.some.injEq] at hs
      cases hs
      cases he
    | claim | alloc | prepend =>
      simp only [Local.step, hpc] at hs
      split at hs <;> cases hs <;> cases he
    | _ =>
      rw [hpc] at hg
      cases hg

/-- The reservations are counted, and a checker that has read a count of zero has seen all those
dropped that were taken before. -/
structure State.Reserved [Fintype L] [Fintype W] (σ : State Node L W Sto) : Prop where
  counted : ∀ n, σ.shared.activeWriters n =
    ∑ l, holds n (σ.locals l).reservation + ∑ w, holds n (σ.writers w).reservation
  since : ∀ n s, σ.Outstanding n s → s ≤ σ.shared.cooldowns n
  zero : ∀ l n e, (σ.locals l).pc = .exchange n e →
    e ≤ σ.shared.cooldowns n ∧ ∀ s, σ.Outstanding n s → e ≤ s

theorem Local.Owning.cooldowns_le {l : L} (h : Local.Owning l m m' x x') (n : Node) :
    m.cooldowns n ≤ m'.cooldowns n := by
  cases h with
  | keep ht _ _ | free _ _ _ _ ht _ _ => simp only [Shared.cooldowns, ht, Nat.le_refl]
  | claim k _ ht _ _ _ _ =>
    simp only [Shared.cooldowns, ht, Function.update_apply]
    split
    · rename_i he
      simp [he, Turn.isClaim]
    · exact Nat.le_refl _
  | release k ht _ _ _ _ =>
    simp only [Shared.cooldowns, ht, Function.update_apply]
    split
    · rename_i he
      simp [he, Turn.isClaim]
    · exact Nat.le_refl _

variable [Fintype L] [Fintype W]

theorem State.Reserved.none_outstanding (h : σ.Reserved) (hz : σ.shared.activeWriters n = 0) :
    ¬ σ.Outstanding n s := by
  have hc := h.counted n
  rw [hz] at hc
  rintro (⟨l, hl⟩ | ⟨w, hw⟩)
  · have hpos := holds_pos.2 ⟨s, hl⟩
    have hle := Finset.single_le_sum (f := fun l => holds n (σ.locals l).reservation)
      (fun _ _ => Nat.zero_le _) (Finset.mem_univ l)
    omega
  · have hpos := holds_pos.2 ⟨s, hw⟩
    have hle := Finset.single_le_sum (f := fun w => holds n (σ.writers w).reservation)
      (fun _ _ => Nat.zero_le _) (Finset.mem_univ w)
    omega

theorem State.Reserved.unreserved (h : σ.Reserved) (hL : σ.Listed)
    (hn : σ.shared.allocated n = false) : σ.shared.activeWriters n = 0 := by
  have hlocals : ∑ l, holds n (σ.locals l).reservation = 0 :=
    Finset.sum_eq_zero fun l _ => holds_eq_zero fun s hs => hL.unreserved hn (.inl ⟨l, hs⟩)
  have hwriters : ∑ w, holds n (σ.writers w).reservation = 0 :=
    Finset.sum_eq_zero fun w _ => holds_eq_zero fun s hs => hL.unreserved hn (.inr ⟨w, hs⟩)
  rw [h.counted n, hlocals, hwriters]

variable [DecidableEq L]

section
omit [Fintype L] [Fintype W]

theorem State.Outstanding.setLocal
    (hr : σ.shared.Reserving m' (σ.locals l).reservation x'.reservation)
    (h : (σ.setLocal l (m', x')).Outstanding n s) :
    σ.Outstanding n s ∨ s = σ.shared.cooldowns n := by
  rcases h with ⟨k, hk⟩ | h
  · by_cases hkl : k = l
    · subst hkl
      simp only [State.setLocal, Function.update_self] at hk
      cases hr with
      | keep _ _ he => exact .inl (.inl ⟨k, he ▸ hk⟩)
      | reserve j _ _ _ hr' =>
        rw [hr'] at hk
        cases hk
        exact .inr rfl
      | unreserve _ _ _ _ hr' =>
        rw [hr'] at hk
        cases hk
    · simp only [State.setLocal, Function.update_of_ne hkl] at hk
      exact .inl (.inl ⟨k, hk⟩)
  · exact .inl (.inr h)

end

theorem State.Reserved.setLocal (h : σ.Reserved) (hL : σ.Listed)
    (hr : σ.shared.Reserving m' (σ.locals l).reservation x'.reservation)
    (hc : ∀ n, σ.shared.cooldowns n ≤ m'.cooldowns n)
    (hz : ∀ n e, x'.pc = .exchange n e →
      m' = σ.shared ∧ σ.shared.activeWriters n = 0 ∧ e = σ.shared.cooldowns n) :
    (σ.setLocal l (m', x')).Reserved := by
  refine ⟨fun n => ?_, fun n s hs => ?_, fun k n e he => ?_⟩
  · have hle := Finset.single_le_sum (f := fun l => holds n (σ.locals l).reservation)
      (fun _ _ => Nat.zero_le _) (Finset.mem_univ l)
    have hold := h.counted n
    have hcount := hr.count n (h.unreserved hL) (by omega)
    have hsum := Concurrent.sum_update_add σ.locals (fun x => holds n x.reservation) l x'
    simp only [State.setLocal]
    omega
  · have hs := hs.setLocal hr
    have hle := hc n
    rcases hs with hs | rfl
    · exact Nat.le_trans (h.since n s hs) hle
    · exact hle
  · by_cases hk : k = l
    · subst hk
      simp only [State.setLocal, Function.update_self] at he
      obtain ⟨rfl, hzero, rfl⟩ := hz n e he
      refine ⟨Nat.le_refl _, fun s hs => ?_⟩
      rcases hs.setLocal hr with hs | rfl
      · exact absurd hs (h.none_outstanding hzero)
      · exact Nat.le_refl _
    · simp only [State.setLocal, Function.update_of_ne hk] at he
      obtain ⟨hle, hall⟩ := h.zero k n e he
      refine ⟨Nat.le_trans hle (hc n), fun s hs => ?_⟩
      rcases hs.setLocal hr with hs | rfl
      · exact hall s hs
      · exact hle

variable [DecidableEq W]

section
omit [Fintype L] [Fintype W] [DecidableEq L]

theorem State.Outstanding.setWriter
    (hr : σ.shared.Reserving m' (σ.writers w).reservation y'.reservation)
    (h : (σ.setWriter w (m', y')).Outstanding n s) :
    σ.Outstanding n s ∨ s = σ.shared.cooldowns n := by
  rcases h with h | ⟨v, hv⟩
  · exact .inl (.inl h)
  · by_cases hvw : v = w
    · subst hvw
      simp only [State.setWriter, Function.update_self] at hv
      cases hr with
      | keep _ _ he => exact .inl (.inr ⟨v, he ▸ hv⟩)
      | reserve j _ _ _ hr' =>
        rw [hr'] at hv
        cases hv
        exact .inr rfl
      | unreserve _ _ _ _ hr' =>
        rw [hr'] at hv
        cases hv
    · simp only [State.setWriter, Function.update_of_ne hvw] at hv
      exact .inl (.inr ⟨v, hv⟩)

end

section
omit [DecidableEq L]

theorem State.Reserved.setWriter (h : σ.Reserved) (hL : σ.Listed)
    (hr : σ.shared.Reserving m' (σ.writers w).reservation y'.reservation)
    (ht : m'.turns = σ.shared.turns) : (σ.setWriter w (m', y')).Reserved := by
  have hc : ∀ n, m'.cooldowns n = σ.shared.cooldowns n := fun n => by
    simp only [Shared.cooldowns, ht]
  refine ⟨fun n => ?_, fun n s hs => ?_, fun k n e he => ?_⟩
  · have hle := Finset.single_le_sum (f := fun w => holds n (σ.writers w).reservation)
      (fun _ _ => Nat.zero_le _) (Finset.mem_univ w)
    have hold := h.counted n
    have hcount := hr.count n (h.unreserved hL) (by omega)
    have hsum := Concurrent.sum_update_add σ.writers (fun y => holds n y.reservation) w y'
    simp only [State.setWriter]
    omega
  · simp only [State.setWriter, hc]
    rcases hs.setWriter hr with hs | rfl
    · exact h.since n s hs
    · exact Nat.le_refl _
  · obtain ⟨hle, hall⟩ := h.zero k n e he
    simp only [State.setWriter, hc]
    refine ⟨hle, fun s hs => ?_⟩
    rcases hs.setWriter hr with hs | rfl
    · exact hall s hs
    · exact hle

end

variable [DecidableEq Sto]

theorem State.Reserved.step (h : σ.Reserved) (hL : σ.Listed) (hO : σ.Owned)
    (hs : σ.step width a = some σ') : σ'.Reserved := by
  cases a with
  | begin l op =>
    simp only [State.step, Option.map_eq_some_iff] at hs
    obtain ⟨x', hx', rfl⟩ := hs
    obtain ⟨hr, hn⟩ := Local.begin_reservation hx'
    exact h.setLocal hL (.of_eq rfl hr) (fun _ => Nat.le_refl _) fun n e he => absurd he (hn n e)
  | run l i =>
    simp only [State.step, Option.map_eq_some_iff] at hs
    obtain ⟨⟨m', x'⟩, hx', rfl⟩ := hs
    have hu := hO.inUse l
    exact h.setLocal hL (Local.step_reserving (hL.locals l) hu hx')
      (Local.step_owning hL.shared (hL.locals l) hu hx').1.cooldowns_le
      fun n e he => Local.step_exchange hx' he
  | payAll w S ptr =>
    simp only [State.step, Option.map_eq_some_iff] at hs
    obtain ⟨y', hy', rfl⟩ := hs
    exact h.setWriter hL (.of_eq rfl (Writer.begin_reservation hy')) rfl
  | walk w i =>
    simp only [State.step, Option.map_eq_some_iff] at hs
    obtain ⟨⟨m', y'⟩, hy', rfl⟩ := hs
    exact h.setWriter hL (Writer.step_reserving (hL.writers w) hy') (Writer.step_owning hy').1
  | abort w =>
    simp only [State.step, Option.map_eq_some_iff] at hs
    obtain ⟨y', hy', rfl⟩ := hs
    exact h.setWriter hL (.of_eq rfl (Writer.abort_reservation hy')) rfl
  | dropGuard d ptr =>
    simp only [State.step] at hs
    split at hs <;> cases hs
    simp only [Shared.settle]
    split <;> exact ⟨h.counted, h.since, h.zero⟩

theorem State.Reserved.reach (hr : (registry width Node L W Sto).Reach ok σ) : σ.Reserved := by
  refine hr.invariant_of (Q := fun σ => σ.Listed ∧ σ.Owned)
    (fun _ h => ⟨State.Listed.reach h, State.Owned.reach h⟩) ?_
    fun _ _ _ hQ h _ hs => h.step hQ.1 hQ.2 hs
  rintro σ rfl
  refine ⟨fun n => ?_, ?_, fun l n e he => by cases he⟩
  · have hl : ∑ l : L, holds n ((start Node L W Sto).locals l).reservation = 0 :=
      Finset.sum_eq_zero fun _ _ => rfl
    have hw : ∑ w : W, holds n ((start Node L W Sto).writers w).reservation = 0 :=
      Finset.sum_eq_zero fun _ _ => rfl
    rw [hl, hw]
    rfl
  · rintro n s (⟨l, hl⟩ | ⟨w, hw⟩)
    · cases hl
    · cases hw

end ArcSwap.Registry
