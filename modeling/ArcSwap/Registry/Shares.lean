import ArcSwap.Registry.Debts
import ArcSwap.Registry.Visits

namespace ArcSwap.Registry
set_option autoImplicit true

variable {Node L W Sto : Type} {m m' : Shared Node L Sto} {x x' : Local Node Sto}
  {y y' : Writer Node Sto} {σ σ' : State Node L W Sto} {a : Action Node L W Sto}
  {tr : List (Happened Node L W Sto)}

/-- The slot and the pointer with which the next step of a `LocalNode` records a load. -/
def Local.records (x : Local Node Sto) : Option (Debt Node × Nat) :=
  match x.pc, x.node with
  | .take p k, some n => some (fastSlot n k, p)
  | .setSlot _ p, some n => some (helpingSlot n, p)
  | _, _ => none

/-- The slot and the pointer of a load that gives its share back in its next step. -/
def Local.returns (x : Local Node Sto) : Option (Debt Node × Nat) :=
  match x.pc with
  | .settle d p => some (d, p)
  | _ => none

def recording (e : Happened Node L W Sto) : Option (Debt Node × Nat) :=
  match e.act with
  | .run l _ => (e.pre.locals l).records
  | _ => none

/-- A `Guard` is dropped or turned into a handle, or a load does not become a `Guard`. -/
def givenBack (e : Happened Node L W Sto) : Option (Debt Node × Nat) :=
  match e.act with
  | .run l _ => (e.pre.locals l).returns
  | .dropGuard d p => some (d, p)
  | _ => none

theorem Local.returns_settle (h : x.returns = some (d, p)) : x.pc = .settle d p := by
  cases hpc : x.pc with
  | settle e q =>
    simp only [returns, hpc] at h
    cases h
    rfl
  | _ =>
    simp only [returns, hpc] at h
    cases h

def Writer.pays (m : Shared Node L Sto) (y : Writer Node Sto) : Option (Debt Node × Nat) :=
  match y.pc with
  | .pay n (j :: _) => if m.debt (n, j) = y.ptr then some ((n, j), y.ptr) else none
  | _ => none

def payment (e : Happened Node L W Sto) : Option (Debt Node × Nat) :=
  match e.act with
  | .walk w _ => (e.pre.writers w).pays e.pre.shared
  | _ => none

theorem Writer.pays_none (h : ∀ n j js, y.pc ≠ .pay n (j :: js)) : y.pays m = none := by
  cases hpc : y.pc with
  | pay n todo =>
    cases todo with
    | nil => simp only [pays, hpc]
    | cons j js => exact absurd hpc (h n j js)
  | _ => simp only [pays, hpc]

variable [DecidableEq Node]

theorem Local.Settling.keep_silent (hs : x.step w l i m = some (m', x'))
    (hu : x'.unresolved = x.unresolved) : x.records = none ∧ x.returns = none := by
  cases hpc : x.pc with
  | take p k =>
    refine ⟨?_, by simp only [returns, hpc]⟩
    cases hn : x.node with
    | none => simp only [records, hpc, hn]
    | some n =>
      simp only [Local.step, hpc, hn, Option.map_some, Option.some.injEq] at hs
      cases hs
      have h := congrFun (congrFun hu (fastSlot n k)) p
      simp only [unresolved, hpc, and_self, if_true] at h
      cases h
  | setSlot gen p =>
    refine ⟨?_, by simp only [returns, hpc]⟩
    cases hn : x.node with
    | none => simp only [records, hpc, hn]
    | some n =>
      simp only [Local.step, hpc, hn, Option.some.injEq] at hs
      cases hs
      have h := congrFun (congrFun hu (helpingSlot n)) p
      simp only [unresolved, goto, hpc, hn, Option.map_some, and_self, if_true] at h
      cases h
  | settle d p =>
    simp only [Local.step, hpc, Option.some.injEq] at hs
    cases hs
    have h := congrFun (congrFun hu d) p
    simp only [unresolved, goto, hpc, and_self, if_true] at h
    cases h
  | _ => exact ⟨by simp only [records, hpc], by simp only [returns, hpc]⟩

/-- A step of a `LocalNode` records a load or gives a share back, or turns a load into a `Guard`. -/
theorem Local.step_shares (hs : x.step w l i m = some (m', x')) (d : Debt Node) (p : Nat) :
    x'.unresolved d p + m'.guards d p + (if x.returns = some (d, p) then 1 else 0) =
      x.unresolved d p + m.guards d p + (if x.records = some (d, p) then 1 else 0) ∧
    m'.paid d p = m.paid d p ∧
    m'.consumed d p = m.consumed d p + if x.returns = some (d, p) ∧ m.debt d ≠ p then 1 else 0 := by
  cases Local.step_settling hs with
  | keep _ hg hp hc hu =>
    obtain ⟨hrec, hret⟩ := Local.Settling.keep_silent hs hu
    simp [hrec, hret, hg, hp, hc, hu]
  | fill e q ho hx hm _ _ hu hu' =>
    have hrec : x.records = some (e, q) ∧ x.returns = none := by
      rcases hx with ⟨k, hpc, he⟩ | ⟨gen, hpc, he⟩
      · have hn : x.node = some e.1 := by simpa only [owns, hpc] using ho
        simp only [records, returns, hpc, hn, ← he, and_self]
      · have hn : x.node = some e.1 := by simpa only [owns, hpc] using ho
        simp only [records, returns, hpc, hn, ← he, and_self]
    subst hm
    simp only [hrec, hu, hu', Option.some.injEq, Prod.mk.injEq, Shared.setDebt]
    simp [eq_comm, Nat.add_comm]
  | confirm e q hpc hm hu hu' =>
    subst hm
    have hrec : x.records = none ∧ x.returns = none :=
      ⟨by simp only [records, hpc], by simp only [returns, hpc]⟩
    refine ⟨?_, rfl, ?_⟩
    · rw [hu, hu', Shared.setGuards_guards, hrec.1, hrec.2]
      by_cases he : d = e ∧ p = q
      · obtain ⟨rfl, rfl⟩ := he
        simp [Nat.add_comm]
      · simp [he]
    · simp [hrec.2, Shared.setGuards]
  | settle e q hpc hm hu hu' =>
    subst hm
    obtain ⟨hpaid, hguards⟩ := m.settle_paid e q
    have hrec : x.records = none ∧ x.returns = some (e, q) :=
      ⟨by simp only [records, hpc], by simp only [returns, hpc]⟩
    refine ⟨?_, congrFun (congrFun hpaid d) p, ?_⟩
    · rw [hu, hu', hguards, hrec.1, hrec.2]
      simp [eq_comm, Nat.add_comm]
    · rw [Shared.settle_consumed, hrec.2]
      by_cases he : d = e ∧ p = q
      · obtain ⟨rfl, rfl⟩ := he
        simp
      · have he' : ¬ (e = d ∧ q = p) := fun h => he ⟨h.1.symm, h.2.symm⟩
        simp [he, he']

theorem Local.records_fills (hs : x.step w l i m = some (m', x')) (h : x.records = some (d, p)) :
    m' = m.setDebt d p ∧ x.owns = some d.1 ∧ ((∃ k, x.pc = .take p k ∧ d = fastSlot d.1 k) ∨
      ∃ gen, x.pc = .setSlot gen p ∧ d = helpingSlot d.1) := by
  cases hpc : x.pc with
  | take q k =>
    cases hn : x.node with
    | none =>
      simp only [records, hpc, hn] at h
      cases h
    | some n =>
      simp only [records, hpc, hn] at h
      cases h
      simp only [Local.step, hpc, hn, Option.map_some, Option.some.injEq] at hs
      cases hs
      exact ⟨rfl, by simpa only [owns, hpc, fastSlot] using hn, .inl ⟨k, rfl, rfl⟩⟩
  | setSlot gen q =>
    cases hn : x.node with
    | none =>
      simp only [records, hpc, hn] at h
      cases h
    | some n =>
      simp only [records, hpc, hn] at h
      cases h
      simp only [Local.step, hpc, hn, Option.some.injEq] at hs
      cases hs
      exact ⟨rfl, by simpa only [owns, hpc, helpingSlot] using hn, .inr ⟨gen, rfl, rfl⟩⟩
  | _ =>
    simp only [records, hpc] at h
    cases h

theorem Shared.pay_paid (m : Shared Node L Sto) (d e : Debt Node) (p q : Nat) :
    (m.pay e q).paid d p = m.paid d p + if m.debt e = q ∧ e = d ∧ q = p then 1 else 0 := by
  by_cases h : m.debt e = q
  · by_cases hd : d = e
    · subst hd
      by_cases hq : p = q
      · subst hq
        simp [pay, h, setDebt]
      · simp [pay, h, setDebt, hq, Ne.symm hq]
    · simp [pay, h, setDebt, hd, Ne.symm hd]
  · simp [pay, h]

theorem Writer.step_shares [DecidableEq Sto] (hs : y.step i m = some (m', y')) (d : Debt Node)
    (p : Nat) :
    m'.guards = m.guards ∧ m'.consumed = m.consumed ∧
      m'.paid d p = m.paid d p + if y.pays m = some (d, p) then 1 else 0 := by
  rcases Writer.step_settling hs with ⟨_, hg, hp, hc, hpc⟩ | ⟨n, j, js, hpc, rfl⟩
  · rw [pays_none hpc, hp]
    exact ⟨hg, hc, rfl⟩
  · obtain ⟨hg, hc, _⟩ := m.pay_same (n, j) y.ptr
    refine ⟨hg, hc, ?_⟩
    rw [Shared.pay_paid]
    by_cases hd : m.debt (n, j) = y.ptr
    · simp only [pays, hpc, hd, if_true, true_and, Option.some.injEq, Prod.mk.injEq]
    · simp only [pays, hpc, hd, if_false, false_and, reduceCtorEq]

variable [DecidableEq L] [DecidableEq W] [DecidableEq Sto] [Fintype L]

/-- A step records at most one load and gives back at most one share. -/
theorem State.step_shares (hs : σ.step width a = some σ') (d : Debt Node) (p : Nat) :
    σ'.recorded d p + (if givenBack ⟨σ, a, σ'⟩ = some (d, p) then 1 else 0) =
      σ.recorded d p + (if recording ⟨σ, a, σ'⟩ = some (d, p) then 1 else 0) ∧
    σ'.shared.paid d p =
      σ.shared.paid d p + (if payment ⟨σ, a, σ'⟩ = some (d, p) then 1 else 0) ∧
    σ'.shared.consumed d p = σ.shared.consumed d p +
      if givenBack ⟨σ, a, σ'⟩ = some (d, p) ∧ σ.shared.debt d ≠ p then 1 else 0 := by
  cases a with
  | begin l op =>
    simp only [State.step, Option.map_eq_some_iff] at hs
    obtain ⟨x', hx', rfl⟩ := hs
    have hrec := σ.recorded_setLocal l σ.shared x' d p
    rw [(Local.begin_settling hx').1] at hrec
    refine ⟨?_, rfl, rfl⟩
    simp only [givenBack, recording, reduceCtorEq, if_false]
    omega
  | run l i =>
    simp only [State.step, Option.map_eq_some_iff] at hs
    obtain ⟨⟨m', x'⟩, hx', rfl⟩ := hs
    obtain ⟨hshare, hpaid, hconsumed⟩ := Local.step_shares hx' d p
    have hrec := σ.recorded_setLocal l m' x' d p
    refine ⟨?_, hpaid, hconsumed⟩
    change _ + (if (σ.locals l).returns = some (d, p) then 1 else 0) =
      _ + if (σ.locals l).records = some (d, p) then 1 else 0
    omega
  | payAll w S q =>
    simp only [State.step, Option.map_eq_some_iff] at hs
    obtain ⟨_, _, rfl⟩ := hs
    exact ⟨rfl, rfl, rfl⟩
  | abort w =>
    simp only [State.step, Option.map_eq_some_iff] at hs
    obtain ⟨_, _, rfl⟩ := hs
    exact ⟨rfl, rfl, rfl⟩
  | walk w i =>
    simp only [State.step, Option.map_eq_some_iff] at hs
    obtain ⟨⟨m', y'⟩, hy', rfl⟩ := hs
    obtain ⟨hg, hc, hp⟩ := Writer.step_shares hy' d p
    refine ⟨?_, hp, ?_⟩
    · simp only [State.recorded, State.setWriter, hg]
      rfl
    · simp only [State.setWriter, hc]
      rfl
  | dropGuard e q =>
    simp only [State.step] at hs
    split at hs
    · cases hs
    · rename_i hpos
      cases hs
      obtain ⟨hpaid, hguards⟩ :=
        (σ.shared.setGuards e q (σ.shared.guards e q - 1)).settle_paid e q
      simp only [State.recorded, hpaid, hguards, Shared.setGuards_guards, Shared.settle_consumed,
        givenBack, recording, payment, Option.some.injEq, Prod.mk.injEq, reduceCtorEq, if_false]
      refine ⟨?_, rfl, ?_⟩
      · by_cases he : d = e ∧ p = q
        · obtain ⟨rfl, rfl⟩ := he
          simp only [and_self, if_true]
          omega
        · have he' : ¬ (e = d ∧ q = p) := fun h => he ⟨h.1.symm, h.2.symm⟩
          simp only [he, he', if_false]
      · by_cases he : d = e ∧ p = q
        · obtain ⟨rfl, rfl⟩ := he
          simp [Shared.setGuards]
        · have he' : ¬ (e = d ∧ q = p) := fun h => he ⟨h.1.symm, h.2.symm⟩
          simp [he, he', Shared.setGuards]

/-- A load is recorded by the owner of the node, on a slot that is empty. -/
theorem State.Settled.recording_fills (h : σ.Settled) (hO : σ.Owned)
    (hs : σ.step width a = some σ') (hrec : recording ⟨σ, a, σ'⟩ = some (d, p)) :
    σ.shared.debt d = debtNone ∧ σ'.shared.debt d = p ∧
      ∃ l i, a = .run l i ∧ (σ.locals l).owns = some d.1 := by
  cases a with
  | run l i =>
    simp only [State.step, Option.map_eq_some_iff] at hs
    obtain ⟨⟨m', x'⟩, hx', rfl⟩ := hs
    obtain ⟨rfl, ho, hpc⟩ := Local.records_fills hx' hrec
    exact ⟨h.fills hO ho hpc, Shared.setDebt_self .., l, i, rfl, ho⟩
  | _ => cases hrec

/-- One who gives a share back is recorded with it. It finds the debt, which it takes out of the
slot, or a reference that has paid it, which it consumes. -/
theorem State.Settled.gives_back (h : σ.Settled) (hs : σ.step width a = some σ')
    (hback : givenBack ⟨σ, a, σ'⟩ = some (d, p)) :
    σ'.recorded d p + 1 = σ.recorded d p ∧
      (σ.shared.debt d = p ∧ σ'.shared.debt d = debtNone ∧
          σ'.shared.consumed d p = σ.shared.consumed d p ∨
        σ.shared.debt d ≠ p ∧ σ'.shared.debt d = σ.shared.debt d ∧
          σ.shared.consumed d p < σ.shared.paid d p ∧
          σ'.shared.consumed d p = σ.shared.consumed d p + 1) := by
  obtain ⟨hrec, _, hconsumed⟩ := State.step_shares hs d p
  have hnone : recording ⟨σ, a, σ'⟩ ≠ some (d, p) := by
    intro hrec
    cases a with
    | run l i =>
      have hpc : (σ.locals l).pc = .settle d p := Local.returns_settle hback
      simp only [recording, Local.records, hpc] at hrec
      cases hrec
    | _ => cases hrec
  rw [if_pos hback, if_neg hnone] at hrec
  have hdebt : σ'.shared.debt d = if σ.shared.debt d = p then debtNone else σ.shared.debt d := by
    cases a with
    | run l i =>
      simp only [State.step, Option.map_eq_some_iff] at hs
      obtain ⟨⟨m', x'⟩, hx', rfl⟩ := hs
      have hpc : (σ.locals l).pc = .settle d p := Local.returns_settle hback
      simp only [Local.step, hpc, Option.some.injEq] at hx'
      cases hx'
      simp only [State.setLocal, Shared.settle_debt, true_and]
    | dropGuard e q =>
      simp only [State.step] at hs
      split at hs <;> cases hs
      cases hback
      simp only [Shared.settle_debt, true_and]
      rfl
    | _ => cases hback
  refine ⟨by omega, ?_⟩
  by_cases hd : σ.shared.debt d = p
  · left
    rw [if_neg fun hc => hc.2 hd] at hconsumed
    exact ⟨hd, by rw [hdebt, if_pos hd], hconsumed⟩
  · right
    rw [if_pos ⟨hback, hd⟩] at hconsumed
    rcases (h.paid_or_owed (d := d) (p := p) (by omega)).2 with he | hlt
    · exact absurd he hd
    · exact ⟨hd, by rw [hdebt, if_neg hd], hlt, hconsumed⟩

theorem State.Settled.slot_changes (h : σ.Settled) (hs : σ.step width a = some σ')
    (hne : σ'.shared.debt d ≠ σ.shared.debt d) :
    recording ⟨σ, a, σ'⟩ = some (d, σ'.shared.debt d) ∨ σ'.shared.debt d = debtNone ∧
      (givenBack ⟨σ, a, σ'⟩ = some (d, σ.shared.debt d) ∨
        payment ⟨σ, a, σ'⟩ = some (d, σ.shared.debt d)) := by
  cases a with
  | begin | payAll | abort =>
    simp only [State.step, Option.map_eq_some_iff] at hs
    obtain ⟨_, _, rfl⟩ := hs
    exact absurd rfl hne
  | run l i =>
    simp only [State.step, Option.map_eq_some_iff] at hs
    obtain ⟨⟨m', x'⟩, hx', rfl⟩ := hs
    simp only [State.setLocal] at hne ⊢
    cases Local.step_settling hx' with
    | keep hd _ _ _ _ =>
      rcases hd d with he | ⟨hf, he⟩
      · exact absurd he hne
      · exact absurd (he.trans (h.fresh d hf).symm) hne
    | fill e p ho hx hm _ _ _ _ =>
      by_cases hde : d = e
      · subst hde
        left
        have hn : (σ.locals l).node = some d.1 := by
          rcases hx with ⟨_, hpc, _⟩ | ⟨_, hpc, _⟩ <;> simpa only [Local.owns, hpc] using ho
        rw [hm, Shared.setDebt_self]
        rcases hx with ⟨k, hpc, he⟩ | ⟨gen, hpc, he⟩ <;>
          simp only [recording, Local.records, hpc, hn, ← he]
      · rw [hm, Shared.setDebt_of_ne hde] at hne
        exact absurd rfl hne
    | confirm e p _ hm _ _ =>
      rw [hm] at hne
      exact absurd rfl hne
    | settle e p hpc hm _ _ =>
      rw [hm, Shared.settle_debt] at hne ⊢
      split at hne
      · rename_i he
        obtain ⟨rfl, hd⟩ := he
        rw [if_pos ⟨rfl, hd⟩]
        exact .inr ⟨rfl, .inl (by simp only [givenBack, Local.returns, hpc, hd])⟩
      · exact absurd rfl hne
  | walk w i =>
    simp only [State.step, Option.map_eq_some_iff] at hs
    obtain ⟨⟨m', y'⟩, hy', rfl⟩ := hs
    simp only [State.setWriter] at hne ⊢
    rcases Writer.step_settling hy' with ⟨hd, _⟩ | ⟨n, j, js, hpc, rfl⟩
    · exact absurd (congrFun hd d) hne
    · rw [Shared.pay_debt] at hne ⊢
      split at hne
      · rename_i he
        obtain ⟨rfl, hd⟩ := he
        rw [if_pos ⟨rfl, hd⟩]
        exact .inr ⟨rfl, .inr (by simp only [payment, Writer.pays, hpc, hd, if_true])⟩
      · exact absurd rfl hne
  | dropGuard e p =>
    simp only [State.step] at hs
    split at hs <;> cases hs
    simp only [Shared.settle_debt] at hne ⊢
    split at hne
    · rename_i he
      obtain ⟨rfl, hd⟩ := he
      rw [if_pos ⟨rfl, hd⟩]
      exact .inr ⟨rfl, .inl (congrArg (fun q => some (d, q)) hd.symm)⟩
    · exact absurd rfl hne

theorem trace_shares (ht : (registry width Node L W Sto).Trace ok σ tr σ') (d : Debt Node)
    (p : Nat) :
    σ'.recorded d p + tr.countP (fun e => givenBack e = some (d, p)) =
      σ.recorded d p + tr.countP (fun e => recording e = some (d, p)) ∧
    σ'.shared.paid d p =
      σ.shared.paid d p + tr.countP (fun e => payment e = some (d, p)) ∧
    σ'.shared.consumed d p = σ.shared.consumed d p +
      tr.countP (fun e => givenBack e = some (d, p) ∧ e.pre.shared.debt d ≠ p) := by
  induction ht with
  | nil => exact ⟨rfl, rfl, rfl⟩
  | step h ha hs ih =>
    obtain ⟨hrec, hpaid, hconsumed⟩ := ih
    obtain ⟨hrec', hpaid', hconsumed'⟩ := State.step_shares hs d p
    simp only [List.countP_cons, decide_eq_true_eq]
    omega

/-- Over any part of a run, for every slot and pointer: the account is even, and the numbers in it
are those of the loads recorded, of the shares given back, of the payments and of those who found
their debt paid. A load is recorded by the owner of the node and on an empty slot, and a slot is
changed only so or emptied by one who is recorded there or pays it. Each drop of a `Guard` and each
conversion, and each load that gives up, gives back one share: the debt, or a reference that has
paid it and that nobody has consumed. -/
theorem shares_given_back (hr : (registry width Node L W Sto).Reach ok σ)
    (ht : (registry width Node L W Sto).Trace ok σ tr σ') :
    (∀ d p, p ≠ debtNone → σ'.recorded d p + σ'.shared.consumed d p =
      (if σ'.shared.debt d = p then 1 else 0) + σ'.shared.paid d p) ∧
    (∀ d p,
      σ'.recorded d p + tr.countP (fun e => givenBack e = some (d, p)) =
        σ.recorded d p + tr.countP (fun e => recording e = some (d, p)) ∧
      σ'.shared.paid d p =
        σ.shared.paid d p + tr.countP (fun e => payment e = some (d, p)) ∧
      σ'.shared.consumed d p = σ.shared.consumed d p +
        tr.countP (fun e => givenBack e = some (d, p) ∧ e.pre.shared.debt d ≠ p)) ∧
    (∀ e ∈ tr, ∀ d p, recording e = some (d, p) →
      e.pre.shared.debt d = debtNone ∧ e.post.shared.debt d = p ∧
        ∃ l i, e.act = .run l i ∧ (e.pre.locals l).owns = some d.1) ∧
    (∀ e ∈ tr, ∀ d, e.post.shared.debt d ≠ e.pre.shared.debt d →
      recording e = some (d, e.post.shared.debt d) ∨ e.post.shared.debt d = debtNone ∧
        (givenBack e = some (d, e.pre.shared.debt d) ∨
          payment e = some (d, e.pre.shared.debt d))) ∧
    ∀ e ∈ tr, ∀ d p, givenBack e = some (d, p) →
      e.post.recorded d p + 1 = e.pre.recorded d p ∧
        (e.pre.shared.debt d = p ∧ e.post.shared.debt d = debtNone ∧
            e.post.shared.consumed d p = e.pre.shared.consumed d p ∨
          e.pre.shared.debt d ≠ p ∧ e.post.shared.debt d = e.pre.shared.debt d ∧
            e.pre.shared.consumed d p < e.pre.shared.paid d p ∧
            e.post.shared.consumed d p = e.pre.shared.consumed d p + 1) := by
  refine ⟨(State.Settled.reach (ht.run.reach hr)).account, fun d p => trace_shares ht d p,
    fun e he d p hrec => ?_, fun e he d hne => ?_, fun e he d p hback => ?_⟩
  · obtain ⟨hre, _, hs⟩ := ht.of_mem hr he
    exact (State.Settled.reach hre).recording_fills (State.Owned.reach hre) hs hrec
  · obtain ⟨hre, _, hs⟩ := ht.of_mem hr he
    exact (State.Settled.reach hre).slot_changes hs hne
  · obtain ⟨hre, _, hs⟩ := ht.of_mem hr he
    exact (State.Settled.reach hre).gives_back hs hback

/-- A `Guard` whose debt has been paid is joined on its slot by one of the node's next owner for the
same pointer. The first of them to be dropped takes the debt and the other one the reference. -/
theorem shares_given_back_joined : ∃ σ tr σ', (registry 64 Nat Bool Unit Unit).Reach
      (fun _ _ => True) σ ∧ (registry 64 Nat Bool Unit Unit).Trace (fun _ _ => True) σ tr σ' ∧
    σ.shared.turns 0 = [.claimed true, .released false, .claimed false] ∧
    σ.shared.guards (0, 0) 8 = 2 ∧ σ.shared.debt (0, 0) = 8 ∧ σ.shared.paid (0, 0) 8 = 1 ∧
    tr.countP (fun e => givenBack e = some ((0, 0), 8)) = 2 ∧
    σ'.recorded (0, 0) 8 + 2 = σ.recorded (0, 0) 8 ∧
    σ'.shared.consumed (0, 0) 8 = σ.shared.consumed (0, 0) 8 + 1 := by
  obtain ⟨_, σ, tr, σ', _, hr, _, ht, hp⟩ := trace_after 64 (fun _ _ => True)
    (getFirst false 0 ++ [.begin false (.attempt 8)] ++ steps false 0 2 ++
      [.run false ⟨0, 8, true⟩, .payAll () () 8] ++ List.replicate 14 (.walk () ⟨0, 8, false⟩) ++
      [.begin false .drop] ++ steps false 0 3 ++ [.begin true .get] ++ steps true 1 5 ++
      [.begin true (.attempt 8)] ++ steps true 0 2)
    (.run true ⟨0, 8, true⟩) [.dropGuard (0, 0) 8, .dropGuard (0, 0) 8]
    (fun _ σ tr _ => σ.shared.turns 0 = [.claimed true, .released false, .claimed false] ∧
      σ.shared.guards (0, 0) 8 = 2 ∧ σ.shared.debt (0, 0) = 8 ∧ σ.shared.paid (0, 0) 8 = 1 ∧
      tr.countP (fun e => givenBack e = some ((0, 0), 8)) = 2 ∧
      tr.countP (fun e => recording e = some ((0, 0), 8)) = 0 ∧
      tr.countP (fun e => givenBack e = some ((0, 0), 8) ∧ e.pre.shared.debt (0, 0) ≠ 8) = 1)
    (by decide +kernel)
  rw [decide_eq_true_eq] at hp
  obtain ⟨hturns, hguards, hdebt, hpaid, hback, hrec, hfound⟩ := hp
  obtain ⟨hrecorded, _, hconsumed⟩ := (shares_given_back hr ht).2.1 (0, 0) 8
  rw [hback, hrec] at hrecorded
  rw [hfound] at hconsumed
  exact ⟨σ, tr, σ', hr, ht, hturns, hguards, hdebt, hpaid, hback, hrecorded, hconsumed⟩

end ArcSwap.Registry
