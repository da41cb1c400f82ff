import ArcSwap.Coverage
import ArcSwap.Ledger

namespace ArcSwap
set_option autoImplicit true

variable {Thr Sto : Type} {σ σ' : State Thr Sto} {cfg : Config Thr Sto}

theorem LoadPc.NodeInv.unresolved {pc : LoadPc Thr} (h : pc.NodeInv m t S)
    (hp : (Frame.load S since full pc).pending t = some d) (hd : m.debt d ≠ debtNone) :
    (⟨some d, m.debt d⟩ : Guard Thr) ∈ (Frame.load S since full pc).unresolved t := by
  cases pc with
  | confirm | repay =>
    cases hp
    simp [Frame.unresolved, h.2.2.2.2.resolve_left hd]
  | setIdle =>
    cases hp
    simp [Frame.unresolved, h.2.1.resolve_left hd]
  | envelope | offer =>
    cases hp
    simp [Frame.unresolved, h.2.1.resolve_left hd]
  | repayUnused =>
    cases hp
    simp [Frame.unresolved, h.2.resolve_left hd]
  | _ => cases hp

variable [Fintype Thr]

theorem le_sum_count {F : Thr → List β} [BEq β] [LawfulBEq β] (h : x ∈ F t) :
    1 ≤ ∑ t, (F t).count x :=
  (List.count_pos_iff.2 h).trans_le
    (Finset.single_le_sum (f := fun t => (F t).count x) (fun _ _ => Nat.zero_le _)
      (Finset.mem_univ t))

variable [DecidableEq Thr]

/-- How many guards there are, in user code and in running operations. -/
def State.guards (σ : State Thr Sto) (g : Guard Thr) : Nat :=
  σ.mem.guards g + ∑ t, ((σ.stack t).flatMap Frame.held).count g

section
omit [Fintype Thr]

theorem count_refs (t : Thr) (st : List (Frame Thr Sto)) (o : Option (Debt Thr)) (a : Nat) :
    (st.flatMap (Frame.refs t)).count ⟨o, a⟩ =
      (if o = none then (st.flatMap Frame.owned).count a else 0) +
        (st.flatMap Frame.held).count ⟨o, a⟩ + (st.flatMap (Frame.unresolved t)).count ⟨o, a⟩ := by
  have ho : ∀ L : List Nat, (L.map fun p => (⟨none, p⟩ : Guard Thr)).count ⟨o, a⟩ =
      if o = none then L.count a else 0 := by
    intro L
    induction L with
    | nil => simp
    | cons p L ih =>
      rw [List.map_cons, count_cons_eq, ih, count_singleton, Concurrent.unit]
      by_cases h : o = none <;> by_cases hp : p = a <;> simp [h, hp]
  induction st with
  | nil => simp
  | cons f st ih =>
    simp only [List.flatMap_cons, List.count_append, ih, Frame.refs, ho]
    split <;> omega

end

variable [Fintype Sto]

theorem State.refs_some (σ : State Thr Sto) (d : Debt Thr) (a : Nat) :
    (σ.account a).refs (some d) = σ.guards ⟨some d, a⟩ +
      ∑ t, ((σ.stack t).flatMap (Frame.unresolved t)).count ⟨some d, a⟩ := by
  simp only [State.account, Shared.refs, count_refs, State.guards, reduceCtorEq, if_false,
    Finset.sum_const_zero, Nat.zero_add, Finset.sum_add_distrib, Nat.add_assoc]

theorem State.refs_none (σ : State Thr Sto) (a : Nat) :
    σ.mem.handles a + σ.mem.stored a + ∑ t, ((σ.stack t).flatMap Frame.owned).count a +
      σ.guards ⟨none, a⟩ ≤ (σ.account a).refs none := by
  simp only [State.account, Shared.refs, count_refs, State.guards, if_true,
    Finset.sum_add_distrib]
  omega

/-- What covers a debt is a counted reference besides the owned handles. -/
theorem Covered.handles_lt (h : Covered σ a d) : σ.mem.handles a < (σ.account a).refs none := by
  have hn := σ.refs_none a
  rcases h with ⟨S, _, hS⟩ | ⟨t, S, pc, _, hf, hd⟩
  · have hs : 0 < σ.mem.stored a := Finset.card_pos.2 ⟨S, by simpa using hS⟩
    omega
  · have ho : a ∈ (σ.stack t).flatMap Frame.owned := by
      refine List.mem_flatMap.2 ⟨_, hf, ?_⟩
      cases pc with
      | help n todo h => cases h <;> simp [Frame.owned]
      | _ => simp [Frame.owned]
    have := le_sum_count (F := fun t => (σ.stack t).flatMap Frame.owned) ho
    omega

variable [DecidableEq Sto]

section
omit [Fintype Sto]

theorem State.unresolved_of_pending (hr : (machine cfg).Reach ok σ) (hd : σ.mem.debt d ≠ debtNone)
    (hp : ∃ f ∈ (σ.stack d.1).head?, f.pending d.1 = some d) :
    1 ≤ ∑ t, ((σ.stack t).flatMap (Frame.unresolved t)).count ⟨some d, σ.mem.debt d⟩ := by
  obtain ⟨f, hf, hfd⟩ := hp
  have ht := ((Protocol.reach hr).node d.1).top
  cases he : σ.stack d.1 with
  | nil =>
    rw [he] at hf
    cases hf
  | cons f' rest =>
    rw [he] at hf ht
    cases hf
    cases f with
    | load S since full pc =>
      apply le_sum_count (F := fun t => (σ.stack t).flatMap (Frame.unresolved t)) (t := d.1)
      rw [he]
      exact List.mem_append_left _ (LoadPc.NodeInv.unresolved ht hfd hd)
    | _ => cases hfd

end

/-- A reference recorded on a slot stands for a counted one besides the owned handles, unless it is
that of a load that has not confirmed its debt. -/
theorem handles_lt_of_recorded (hr : (machine cfg).Reach ok σ) (ha : a ≠ 0) (ha3 : a ≠ debtNone)
    (h : 0 < (σ.account a).refs (some d))
    (hp : (∃ f ∈ (σ.stack d.1).head?, f.pending d.1 = some d) → σ.mem.debt d = a →
      1 < (σ.account a).refs (some d)) : σ.mem.handles a < σ.mem.strong a := by
  have hb := Balanced.reach hr ha ha3
  have hn := σ.refs_none a
  have hc : (σ.account a).refs none ≤ σ.mem.strong a := hb.counted_le
  have hle := hb.recorded_le d
  change _ ≤ σ.mem.strong a + _ at hle
  by_cases hd : σ.mem.debt d = a
  · rcases (Coverage.reach hr).covered d (hd ▸ ha3) with hpend | hcov
    · have := hp hpend hd
      split at hle <;> omega
    · rw [hd] at hcov
      exact Nat.lt_of_lt_of_le hcov.handles_lt hc
  · rw [if_neg] at hle
    · omega
    · simpa [State.account] using hd

theorem handles_lt_of_guard (hr : (machine cfg).Reach ok σ) (ha : a ≠ 0) (ha3 : a ≠ debtNone)
    (hg : 0 < σ.guards ⟨o, a⟩) : σ.mem.handles a < σ.mem.strong a := by
  cases o with
  | none =>
    have hn := σ.refs_none a
    have hc : (σ.account a).refs none ≤ σ.mem.strong a := (Balanced.reach hr ha ha3).counted_le
    omega
  | some d =>
    have hs := σ.refs_some d a
    refine handles_lt_of_recorded hr ha ha3 (d := d) (by omega) ?_
    rintro hp rfl
    have := State.unresolved_of_pending hr ha3 hp
    omega

theorem strong_pos (hr : (machine cfg).Reach ok σ) (ha : a ≠ 0) (ha3 : a ≠ debtNone)
    (h : (∃ o, 0 < σ.guards ⟨o, a⟩) ∨ 0 < σ.mem.handles a ∨ ∃ S, σ.mem.storage S = some a) :
    0 < σ.mem.strong a := by
  have hn := σ.refs_none a
  have hc : (σ.account a).refs none ≤ σ.mem.strong a := (Balanced.reach hr ha ha3).counted_le
  rcases h with ⟨o, hg⟩ | hh | ⟨S, hS⟩
  · exact Nat.zero_lt_of_lt (handles_lt_of_guard hr ha ha3 hg)
  · omega
  · have hs : 0 < σ.mem.stored a := Finset.card_pos.2 ⟨S, by simpa using hS⟩
    omega

/-- In every reachable state each debt that its load has confirmed is that of a living object, and
is covered by a counted reference that a storage holds or a writer that has not passed the slot.
So no object is destroyed or replaced while there is a guard or a handle to it, and one with a
single counted reference that user code owns has no guards. -/
theorem confirmed_debts_covered (hr : (machine cfg).Reach ok σ) :
    (∀ d, σ.mem.debt d ≠ debtNone → (∀ f ∈ (σ.stack d.1).head?, f.pending d.1 ≠ some d) →
      Covered σ (σ.mem.debt d) d ∧ (σ.mem.debt d ≠ 0 → 0 < σ.mem.strong (σ.mem.debt d))) ∧
    (∀ a, a ≠ 0 → a ≠ debtNone → ((∃ o, 0 < σ.guards ⟨o, a⟩) ∨ 0 < σ.mem.handles a) →
      0 < σ.mem.strong a ∧ ∀ l σ', State.step cfg l σ = some σ' →
        σ'.mem.epoch a = σ.mem.epoch a) ∧
    ∀ a, a ≠ 0 → a ≠ debtNone → σ.mem.strong a = 1 → 0 < σ.mem.handles a →
      ∀ o, σ.guards ⟨o, a⟩ = 0 := by
  refine ⟨?_, ?_, ?_⟩
  · intro d hd hnp
    have hcov : Covered σ (σ.mem.debt d) d := by
      refine ((Coverage.reach hr).covered d hd).resolve_left ?_
      rintro ⟨f, hf, hfd⟩
      exact hnp f hf hfd
    refine ⟨hcov, fun ha => ?_⟩
    exact Nat.zero_lt_of_lt
      (Nat.lt_of_lt_of_le hcov.handles_lt (Balanced.reach hr ha hd).counted_le)
  · intro a ha ha3 h
    have hpos := strong_pos hr ha ha3 (h.imp id .inl)
    exact ⟨hpos, fun l σ' hs => State.step_epoch hs (.inr (.inr hpos))⟩
  · intro a ha ha3 h1 hh o
    by_contra hg
    have := handles_lt_of_guard hr ha ha3 (Nat.pos_of_ne_zero hg)
    omega

/-- A guard taken on the fast path keeps its object after another one is stored. -/
theorem confirmed_debts_covered_guard :
    ∃ σ, (machine (twoThreads true)).Reach (fun _ _ => True) σ ∧ σ.mem.debt (0, 0) = 8 ∧
      Covered σ 8 (0, 0) ∧ 0 < σ.mem.strong 8 := by
  obtain ⟨σ, hr, hp⟩ := reach_after (fun _ _ => True) true
    (prepared ++ whole (twoThreads true) 0 (.load 0) ++ [order 1 (.store 0 24)] ++
      steps (twoThreads true) 1 3)
    (fun σ => σ.mem.debt (0, 0) = 8 && (σ.stack 0).isEmpty && σ.mem.storage 0 = some 24)
    (by decide +kernel)
  simp only [Bool.and_eq_true, decide_eq_true_eq, List.isEmpty_iff] at hp
  obtain ⟨⟨hd, hst⟩, _⟩ := hp
  have h := (confirmed_debts_covered hr).1 (0, 0) (by simp [hd, debtNone]) (by simp [hst])
  rw [hd] at h
  exact ⟨σ, hr, hd, h.1, h.2 (by decide)⟩

end ArcSwap
