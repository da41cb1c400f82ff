import ArcSwap.ProtocolRun
import ArcSwap.SpaceStep
import ArcSwap.Writes

namespace ArcSwap
set_option autoImplicit true

variable {Thr Sto : Type}

/-- The slot a load of thread `t` has written and neither confirmed nor given up. -/
def Frame.pending (t : Thr) : Frame Thr Sto → Option (Debt Thr)
  | .load _ _ _ pc =>
    match pc with
    | .confirm _ _ d | .repay _ _ d => some d
    | .setIdle _ _ | .envelope _ _ _ _ | .offer _ _ _ | .repayUnused _ _ => some (helpingSlot t)
    | _ => none
  | _ => none

/-- The slot is still to be looked at by a `pay_all`. -/
def PayPc.Ahead (d : Debt Thr) : PayPc Thr → Prop
  | .start | .head => True
  | .next todo | .release _ todo => d.1 ∈ todo
  | .help n todo _ => d.1 = n ∨ d.1 ∈ todo
  | .slot n todo j => d.1 = n ∧ j ≤ d.2 ∨ d.1 ∈ todo
  | .inc n todo j => d.1 = n ∧ j < d.2 ∨ d.1 ∈ todo
  | .dec | .done => False

/-- A visit of `help` that does not leave without having seen the present control. -/
def HelpPc.Bound : HelpPc → Prop
  | .offer _ => False
  | .drop v _ => v % 4 = 2
  | _ => True

/-- A `pay_all` that will still look at the control of `n`. -/
def PayPc.Bound (n : Thr) : PayPc Thr → Prop
  | .start | .head => True
  | .next todo | .release _ todo | .slot _ todo _ | .inc _ todo _ => n ∈ todo
  | .help n' todo h => n = n' ∧ h.Bound ∨ n ∈ todo
  | .dec | .done => False

theorem PayPc.Bound.ahead {pc : PayPc Thr} (h : pc.Bound n) (j : Fin 9) : pc.Ahead (n, j) := by
  cases pc with
  | slot | inc => exact .inr h
  | help => exact h.imp And.left id
  | _ => exact h

/-- A reference to `a` is held by one of the storages `Q`, or by a writer that has taken it out of
one and is at a place `W` in paying the debts. -/
def Backed (σ : State Thr Sto) (Q : Sto → Prop) (W : PayPc Thr → Prop) (a : Nat) : Prop :=
  (∃ S, Q S ∧ σ.mem.storage S = some a) ∨
    ∃ t S pc, Q S ∧ .payAll a S pc ∈ σ.stack t ∧ W pc

def Covered (σ : State Thr Sto) (a : Nat) (d : Debt Thr) : Prop :=
  Backed σ (fun _ => True) (PayPc.Ahead d) a

/-- Either `S` still holds `c`, or a writer that has replaced it will look at the control of `n`. -/
def Guarded (σ : State Thr Sto) (S : Sto) (c : Nat) (n : Thr) : Prop :=
  Backed σ (· = S) (PayPc.Bound n) c

theorem Guarded.covered {σ : State Thr Sto} (h : Guarded σ S c n) (j : Fin 9) :
    Covered σ c (n, j) := by
  rcases h with ⟨S', _, hS⟩ | ⟨t, S', pc, _, hpc, hb⟩
  · exact .inl ⟨S', trivial, hS⟩
  · exact .inr ⟨t, S', pc, trivial, hpc, hb.ahead j⟩

def LoadPc.candidate? : LoadPc Thr → Option (Nat × Nat)
  | .setSlot g c | .setIdle g c => some (g, c)
  | _ => none

/-- Every debt is covered or not confirmed yet, and so is the one that a load without a replacement
is about to confirm. -/
structure Coverage (σ : State Thr Sto) : Prop where
  covered : ∀ d, σ.mem.debt d ≠ debtNone →
    (∃ f ∈ (σ.stack d.1).head?, f.pending d.1 = some d) ∨ Covered σ (σ.mem.debt d) d
  guarded : ∀ t S since full pc rest g c, σ.stack t = .load S since full pc :: rest →
    pc.candidate? = some (g, c) → σ.mem.control t = g → Guarded σ S c t

variable {m m' : Shared Thr Sto} {st st' pre rest : List (Frame Thr Sto)}

theorem Frame.resume_payAll (h : (Frame.payAll a S pc).resume m v = some g) :
    ∃ n todo w since r, pc = .help n todo (.await w since) ∧
      g = .payAll a S (.help n todo (.theirSpace w since r)) := by
  cases pc with
  | help n todo hp =>
    cases hp with
    | await w since =>
      cases v with
      | handle r =>
        cases h
        exact ⟨n, todo, w, since, r, rfl, rfl⟩
      | _ => cases h
    | _ => cases h
  | _ => cases h

variable {σ σ' : State Thr Sto} {cfg : Config Thr Sto}

theorem Protocol.localNode (hP : Protocol w σ) (hst : σ.stack t = .payAll a S pc :: rest)
    (hpc : pc ≠ .start) : σ.mem.localNode t = true := by
  have hn := hP.node t
  rw [hst] at hn
  have ht : Idle σ.mem t ∧ HelpingHolds σ.mem t debtNone := hn.top
  refine Owns.localNode (hn.entered _ (List.mem_cons_self ..) ?_) ht.1.fresh
  cases pc with
  | start => exact hpc rfl
  | _ => trivial

theorem Frame.pending_eq_none {f : Frame Thr Sto}
    (hl : ∀ S since full pc, f = .load S since full pc → ∃ g, pc = .done g) :
    f.pending t = none := by
  cases f with
  | load S since full pc =>
    obtain ⟨g, rfl⟩ := hl _ _ _ _ rfl
    rfl
  | _ => rfl

theorem atUser_pending (h : atUser st = true) : ∀ f ∈ st.head?, f.pending t = none := by
  rcases atUser_cases h with rfl | ⟨rest, rfl⟩ | ⟨op, S, cur, arg, rest, rfl⟩ <;> simp [Frame.pending]

theorem LoadPc.NodeInv.candidate {pc : LoadPc Thr} (h : pc.NodeInv m t S)
    (hc : pc.candidate? = some (g, c)) : Open m t S g := by
  cases pc with
  | setSlot =>
    cases hc
    exact h.1
  | setIdle =>
    cases hc
    exact h.1
  | _ => cases hc

theorem Coverage.initial (cfg : Config Thr Sto) : Coverage (State.initial cfg) where
  covered _ hd := absurd rfl hd
  guarded _ _ _ _ _ _ _ _ h := by cases h

variable [DecidableEq Thr]

theorem Protocol.listed (hP : Protocol w σ) (hd : σ.mem.debt d ≠ debtNone) :
    d.1 ∈ σ.mem.listHead := by
  by_contra h
  exact hd ((hP.node d.1).unused h d.2)

theorem loadStep_candidate (cfg : Config Thr Sto) {pc' : LoadPc Thr}
    (hs : loadStep cfg t m S (.load S since full) pc = some (m', pre))
    (hp : pre ++ rest = .load S' since' full' pc' :: st) (hc : pc'.candidate? = some (g, c)) :
    S' = S ∧ (m.storage S = some c ∨ pc.candidate? = some (g, c) ∧ m'.control t = m.control t) := by
  cases pc with
  | first | confirm =>
    simp only [loadStep, Option.map_eq_some_iff] at hs
    obtain ⟨p, _, he⟩ := hs
    cases he
    split at hp <;> cases hp <;> cases hc
  | candidate g' =>
    simp only [loadStep, Option.map_eq_some_iff] at hs
    obtain ⟨p, hS, he⟩ := hs
    cases he
    split at hp <;> cases hp
    cases hc
    exact ⟨rfl, .inl hS⟩
  | setSlot g' c' =>
    cases hs
    cases hp
    cases hc
    exact ⟨rfl, .inr ⟨rfl, rfl⟩⟩
  | enter | setAddr | repay | pay | repayUnused =>
    simp only [loadStep] at hs
    split at hs <;> cases hs
    all_goals
      cases hp
      try split at hc
      all_goals cases hc
  | scan =>
    cases hs
    cases hp
    split at hc
    · cases hc
    · split at hc <;> cases hc
  | setControl | setIdle =>
    cases hs
    cases hp
    split at hc <;> cases hc
  | cooldown | dec | decUnused =>
    cases hs
    split at hp <;> cases hp
    cases hc
  | done => cases hs
  | _ =>
    cases hs
    cases hp
    cases hc

theorem SpaceStep.control_of_idle {f : Frame Thr Sto} (h : SpaceStep t m f m' pre)
    (hi : m.control t = idle) (hf : ∀ S since full pc, f = .load S since full pc → ∃ g, pc = .done g)
    (hh : f.HelpInv m) : m'.control t % 4 ≠ 2 := by
  have h0 : m.control t % 4 ≠ 2 := by
    rw [hi]
    decide
  cases h with
  | other hq => rwa [hq.control]
  | publish | withdraw | receive | keep =>
    obtain ⟨g, hg⟩ := hf _ _ _ _ rfl
    cases hg
  | @exchange n v ptr S todo since r their mine hc =>
    have hm : mine % 4 = 0 := hh.2.2
    by_cases hn : t = n
    · subst hn
      simp only [Shared.setControl, Function.update_self, replacementTag_or hm]
      omega
    · show Function.update m.control n _ t % 4 ≠ 2
      rwa [Function.update_of_ne hn]
  | _ => exact h0

/-- The debts after a step of a load: the one it writes is pending, and the one that stops being
pending is that of what its storage holds, or of the candidate of an unhelped transaction. -/
theorem loadStep_debt (cfg : Config Thr Sto) {pc : LoadPc Thr} (ht : pc.NodeInv m t S)
    (hs : loadStep cfg t m S (.load S since full) pc = some (m', pre))
    (hd : m'.debt d ≠ debtNone) :
    (∃ f ∈ pre.head?, f.pending t = some d) ∨
      m'.debt d = m.debt d ∧ ((Frame.load S since full pc).pending t ≠ some d ∨
        m.storage S = some (m.debt d) ∨
        ∃ g, pc = .setIdle g (m.debt d) ∧ m.control t = g ∧ d = helpingSlot t) := by
  have pays : ∀ {e : Debt Thr} {p}, m.debt e = debtNone ∨ m.debt e = p →
      (m.debt e = p → m' = m.setDebt e debtNone) → (m.debt e ≠ p → m' = m) →
      m'.debt d = m.debt d ∧ e ≠ d := by
    intro e p he hpaid hkept
    by_cases hp : m.debt e = p
    · rw [hpaid hp] at hd ⊢
      have hne : d ≠ e := by
        rintro rfl
        exact hd (Function.update_self ..)
      exact ⟨Function.update_of_ne hne .., hne.symm⟩
    · rw [hkept hp] at hd ⊢
      refine ⟨rfl, ?_⟩
      rintro rfl
      exact hd (he.resolve_right hp)
  cases pc with
  | first | candidate =>
    simp only [loadStep, Option.map_eq_some_iff] at hs
    obtain ⟨p, _, he⟩ := hs
    cases he
    exact .inr ⟨rfl, .inl (by simp [Frame.pending])⟩
  | enter | setAddr =>
    simp only [loadStep] at hs
    split at hs <;> cases hs
    all_goals exact .inr ⟨rfl, .inl (by simp [Frame.pending])⟩
  | take p e d₀ =>
    cases hs
    by_cases hdd : d = d₀
    · subst hdd
      exact .inl (by simp [Frame.pending])
    · exact .inr ⟨Function.update_of_ne hdd .., .inl (by simp [Frame.pending])⟩
  | confirm p e d₀ =>
    simp only [loadStep, Option.map_eq_some_iff] at hs
    obtain ⟨q, hq, he⟩ := hs
    cases he
    by_cases hdd : d = d₀
    · subst hdd
      split
      · rename_i hpq
        subst hpq
        have hp := ht.2.2.2.2.resolve_left hd
        exact .inr ⟨rfl, .inr (.inl (hp ▸ hq))⟩
      · exact .inl (by simp [Frame.pending])
    · exact .inr ⟨rfl, .inl (by simp [Frame.pending, Ne.symm hdd])⟩
  | repay p e d₀ =>
    have hpay : m'.debt d = m.debt d ∧ d₀ ≠ d := by
      refine pays ht.2.2.2.2 ?_ ?_ <;>
      · intro h
        simp only [loadStep, h, if_true, if_false] at hs
        cases hs
        rfl
    exact .inr ⟨hpay.1, .inl (by simp [Frame.pending, hpay.2])⟩
  | setSlot g c =>
    cases hs
    by_cases hdd : d = helpingSlot t
    · subst hdd
      exact .inl (by simp [Frame.pending])
    · exact .inr ⟨Function.update_of_ne hdd .., .inl (by simp [Frame.pending])⟩
  | setIdle g c =>
    cases hs
    by_cases hdd : d = helpingSlot t
    · subst hdd
      split
      · rename_i hg
        have hc := ht.2.1.resolve_left hd
        exact .inr ⟨rfl, .inr (.inr ⟨g, by rw [hc], hg, rfl⟩)⟩
      · exact .inl (by simp [Frame.pending])
    · exact .inr ⟨rfl, .inl (by simp [Frame.pending, Ne.symm hdd])⟩
  | envelope g c space p =>
    cases hs
    by_cases hdd : d = helpingSlot t
    · subst hdd
      exact .inl (by simp [Frame.pending])
    · exact .inr ⟨rfl, .inl (by simp [Frame.pending, Ne.symm hdd])⟩
  | offer c r space =>
    cases hs
    by_cases hdd : d = helpingSlot t
    · subst hdd
      exact .inl (by simp [Frame.pending])
    · exact .inr ⟨rfl, .inl (by simp [Frame.pending, Ne.symm hdd])⟩
  | pay c =>
    have hpay : m'.debt d = m.debt d ∧ helpingSlot t ≠ d := by
      refine pays ht.2 ?_ ?_ <;>
      · intro h
        simp only [loadStep, h, if_true, if_false] at hs
        cases hs
        rfl
    exact .inr ⟨hpay.1, .inl (by simp [Frame.pending])⟩
  | repayUnused c r =>
    have hpay : m'.debt d = m.debt d ∧ helpingSlot t ≠ d := by
      refine pays ht.2 ?_ ?_ <;>
      · intro h
        simp only [loadStep, h, if_true, if_false] at hs
        cases hs
        rfl
    exact .inr ⟨hpay.1, .inl (by simp [Frame.pending, hpay.2])⟩
  | inc c =>
    cases hs
    refine .inr ⟨?_, .inl (by simp [Frame.pending])⟩
    exact ((Paid.inc m c) d).resolve_right hd
  | dec c =>
    cases hs
    refine .inr ⟨?_, .inl (by simp [Frame.pending])⟩
    exact ((Paid.dec m c) d).resolve_right hd
  | decUnused c r =>
    cases hs
    refine .inr ⟨?_, .inl (by simp [Frame.pending])⟩
    exact ((Paid.dec m c) d).resolve_right hd
  | done => cases hs
  | _ =>
    cases hs
    exact .inr ⟨rfl, .inl (by simp [Frame.pending])⟩

variable [DecidableEq Sto]

/-- What leaves a storage is taken over by a `pay_all`. -/
theorem threadStep_storage (hst : Stacked st)
    (hs : threadStep cfg t m free st act = some (m', st')) (hS : m.storage S = some a) :
    m'.storage S = some a ∨ .payAll a S .start ∈ st' := by
  rcases threadStep_cases hs with ⟨sp, f, rest, pre, _, rfl, hf, rfl⟩ | ⟨_, h⟩ | ⟨_, h, rfl⟩ | ⟨_, h⟩
  · rcases (Frame.step_cases cfg t hf).internal_or_write with hi | hw
    · exact .inl (by rw [hi.storage, hS])
    · have hr := hst.ready f rfl
      cases hw with
      | @swap S' old op new h =>
        by_cases hSS : S = S'
        · subst hSS
          obtain rfl := Option.some.inj (h.symm.trans hS)
          exact .inr (by simp)
        · exact .inl ((Function.update_of_ne hSS ..).trans hS)
      | @cas S' current op new dst old h =>
        by_cases hSS : S = S'
        · subst hSS
          have hr : old.ptr = current := hr
          obtain rfl := Option.some.inj (h.symm.trans hS)
          exact .inr (by simp [hr])
        · exact .inl ((Function.update_of_ne hSS ..).trans hS)
  · obtain ⟨f, v, rest, rfl, hv, ⟨rfl, _⟩ | ⟨g, g', rest', _, _, rfl, _⟩⟩ := retStep_cases h
    · exact .inl (by cases v <;> exact hS)
    · rw [Shared.recordFor_eq]
      exact .inl hS
  · rw [claimStep] at h
    split at h <;> cases h
    exact .inl hS
  · have hw := userStep_write h
    clear h hs
    cases hw with
    | same h => exact .inl (by rw [h, hS])
    | alloc h =>
      rw [allocate_eq h]
      exact .inl hS
    | @create S' b m₁ h h₁ =>
      left
      have hSS : S ≠ S' := by
        rintro rfl
        rw [hS] at h
        cases h
      rw [takeHandle_eq h₁]
      exact (Function.update_of_ne hSS ..).trans hS
    | @remove S' b _ hf h hst' =>
      by_cases hSS : S = S'
      · subst hSS
        obtain rfl := Option.some.inj (h.symm.trans hS)
        right
        rcases hst' with rfl | rfl <;> simp
      · exact .inl ((Function.update_of_ne hSS ..).trans hS)

theorem threadStep_payAll (hs : threadStep cfg t m free st act = some (m', st'))
    (hf : .payAll a S pc ∈ st) :
    .payAll a S pc ∈ st' ∨
      (∃ pre rest, st = .payAll a S pc :: rest ∧
        payStep t m a S (.payAll a S) pc = some (m', pre) ∧ st' = pre ++ rest) ∨
      pc = .done ∨
      ∃ n todo v since r, pc = .help n todo (.await v since) ∧
        .payAll a S (.help n todo (.theirSpace v since r)) ∈ st' := by
  rcases threadStep_cases hs with ⟨sp, f, rest, pre, _, rfl, hstep, rfl⟩ | ⟨_, h⟩ | ⟨_, h, rfl⟩ |
    ⟨_, h⟩
  · rcases List.mem_cons.1 hf with rfl | hf
    · exact .inr (.inl ⟨pre, rest, rfl, hstep, rfl⟩)
    · exact .inl (List.mem_append_right _ hf)
  · obtain ⟨f, v, rest, rfl, hv, ⟨_, rfl, _⟩ | ⟨g, g', rest', rfl, hg, _, rfl⟩⟩ := retStep_cases h
    · rcases List.mem_cons.1 hf with rfl | hf
      · cases pc with
        | done => exact .inr (.inr (.inl rfl))
        | _ => cases hv
      · exact .inl hf
    · rcases List.mem_cons.1 hf with rfl | hf
      · cases pc with
        | done => exact .inr (.inr (.inl rfl))
        | _ => cases hv
      · rcases List.mem_cons.1 hf with rfl | hf
        · obtain ⟨n, todo, w, since, r, rfl, rfl⟩ := Frame.resume_payAll hg
          exact .inr (.inr (.inr ⟨n, todo, w, since, r, rfl, List.mem_cons_self ..⟩))
        · exact .inl (List.mem_cons_of_mem _ hf)
  · exact .inl hf
  · obtain ⟨_, hm⟩ := userStep_cases h
    left
    cases hm with
    | stay => exact hf
    | enter => exact List.mem_cons_of_mem _ hf
    | call => exact List.mem_cons_of_mem _ (List.mem_cons_of_mem _ hf)
    | closure =>
      rcases List.mem_cons.1 hf with hf | hf
      · cases hf
      · exact List.mem_cons_of_mem _ (List.mem_cons_of_mem _ hf)
    | ret =>
      rcases List.mem_cons.1 hf with hf | hf
      · cases hf
      · exact hf

/-- A transaction on `S` is in progress in the node `n`, and a step does not help it. -/
def Unhelped (m m' : Shared Thr Sto) (n : Thr) (S : Sto) : Prop :=
  Open m n S (m.control n) ∧ m'.control n = m.control n

theorem helpStep_next (ho : Observed m n (m.control n)) (hh : h.Inv m n S)
    (hl : m.localNode t = true)
    (hs : helpStep t m S (.payAll ptr S) n todo h = some (m', pre)) :
    (∃ h', .payAll ptr S (.help n todo h') ∈ pre ∧ (h.Bound → Unhelped m m' n S → h'.Bound)) ∨
      .payAll ptr S (.slot n todo 0) ∈ pre ∧ ¬ (h.Bound ∧ Unhelped m m' n S) := by
  have next : ∀ {v}, Observed m n v →
      (∃ h', Frame.payAll ptr S (.help n todo h') =
        (helpNext n todo v).elim .panic (Frame.payAll ptr S) ∧ h'.Bound) ∨
      .payAll ptr S (.slot n todo 0) = (helpNext n todo v).elim .panic (Frame.payAll ptr S) ∧
        v % 4 ≠ 2 := by
    intro v hv
    rcases hv.next todo with h | ⟨h, _⟩
    · have h2 := helpNext_slot h
      rw [h]
      exact .inr ⟨rfl, h2⟩
    · rw [h]
      exact .inl ⟨_, rfl, trivial⟩
  cases h with
  | load =>
    simp only [helpStep, hl, if_true] at hs
    cases hs
    rcases next ho with ⟨h', he, hb⟩ | ⟨he, h2⟩
    · exact .inl ⟨h', by simp [he], fun _ _ => hb⟩
    · exact .inr ⟨by simp [he], fun hu => h2 hu.2.1.2.2.1⟩
  | addr v =>
    simp only [helpStep] at hs
    split at hs <;> cases hs
    · exact .inl ⟨.await v (m.stamp S), by simp, fun _ _ => trivial⟩
    · exact .inl ⟨.recheck v, by simp, fun _ _ => trivial⟩
  | recheck v =>
    cases hs
    split
    · rename_i hc
      exact .inr ⟨by simp, fun hu => hh.2 hc hu.2.1.1⟩
    · rcases next ho with ⟨h', he, hb⟩ | ⟨he, h2⟩
      · exact .inl ⟨h', by simp [he], fun _ _ => hb⟩
      · exact .inr ⟨by simp [he], fun hu => h2 hu.2.1.2.2.1⟩
  | await => cases hs
  | theirSpace v since r =>
    cases hs
    exact .inl ⟨.mySpace v since r (m.spaceOffer n), by simp, fun _ _ => trivial⟩
  | mySpace v since r their =>
    cases hs
    exact .inl ⟨.write v since r their (m.spaceOffer t), by simp, fun _ _ => trivial⟩
  | write v since r their mine =>
    simp only [helpStep, tagOf_eq, hh.2.2, if_true] at hs
    cases hs
    exact .inl ⟨.exchange v since r their mine, by simp, fun _ _ => trivial⟩
  | exchange v since r their mine =>
    simp only [helpStep] at hs
    split at hs <;> cases hs
    · refine .inl ⟨.offer their, by simp, fun _ hu => ?_⟩
      have hg := hu.1.2.2.1
      have hc := hu.2
      simp only [Shared.setControl, Function.update_self, replacementTag_or hh.2.2] at hc
      have := hh.2.2
      omega
    · exact .inl ⟨.drop _ r, by simp, fun _ hu => hu.1.2.2.1⟩
  | offer their =>
    cases hs
    exact .inr ⟨by simp, fun hu => hu.1⟩
  | drop v r =>
    simp only [helpStep, Option.some.injEq] at hs
    obtain ⟨_, rfl⟩ := Prod.mk.inj hs
    rcases next hh with ⟨h', he, hb⟩ | ⟨he, h2⟩
    · refine .inl ⟨h', ?_, fun _ _ => hb⟩
      rw [he]
      split <;> simp
    · refine .inr ⟨?_, fun hu => h2 hu.1⟩
      rw [he]
      split <;> simp

theorem nextSlot_ahead (h : d.1 = n ∧ j < d.2 ∨ d.1 ∈ todo) : (nextSlot n todo j).Ahead d := by
  rw [nextSlot]
  split
  · rcases h with ⟨hn, hj⟩ | h
    · exact .inl ⟨hn, hj⟩
    · exact .inr h
  · rcases h with ⟨hn, hj⟩ | h
    · have := d.2.isLt
      omega
    · exact h

/-- A debt that a `pay_all` has still to look at is paid before it passes. -/
theorem PayPc.Ahead.step {pc : PayPc Thr} (h : pc.Ahead d) (hw : ∀ n, Watched m n)
    (hh : (Frame.payAll a S pc).HelpInv m) (hl : pc ≠ .start → m.localNode t = true)
    (hlist : d.1 ∈ m.listHead) (hd : m.debt d = a) (hd' : m'.debt d = a) (ha : a ≠ debtNone)
    (hs : payStep t m a S (.payAll a S) pc = some (m', pre)) :
    ∃ pc', .payAll a S pc' ∈ pre ∧ pc'.Ahead d := by
  cases pc with
  | start =>
    simp only [payStep] at hs
    split at hs <;> cases hs
    exact ⟨.head, by simp, trivial⟩
  | head =>
    cases hs
    exact ⟨.next m.listHead, by simp, hlist⟩
  | next todo =>
    cases todo with
    | nil => cases h
    | cons n todo =>
      cases hs
      exact ⟨.help n todo .load, by simp, List.mem_cons.1 h⟩
  | help n todo hp =>
    rcases helpStep_next (hw n).observed hh (hl (by simp)) hs with ⟨h', hm, _⟩ | ⟨hm, _⟩
    · exact ⟨_, hm, h⟩
    · refine ⟨_, hm, ?_⟩
      rcases h with h | h
      · exact .inl ⟨h, Nat.zero_le _⟩
      · exact .inr h
  | slot n todo j =>
    simp only [payStep] at hs
    have hne : (n, j) = d → m.debt (n, j) = a := by
      rintro rfl
      exact hd
    split at hs <;> cases hs
    · refine ⟨.inc n todo j, by simp, ?_⟩
      rcases h with ⟨hn, hj⟩ | h
      · refine .inl ⟨hn, lt_of_le_of_ne hj ?_⟩
        rintro rfl
        have he : d = (n, d.2) := Prod.ext hn rfl
        rw [he] at hd'
        exact ha (hd'.symm.trans (Function.update_self ..))
      · exact .inr h
    · rename_i hna
      refine ⟨_, List.mem_singleton.2 rfl, nextSlot_ahead ?_⟩
      rcases h with ⟨hn, hj⟩ | h
      · refine .inl ⟨hn, lt_of_le_of_ne hj ?_⟩
        rintro rfl
        exact hna (hne (Prod.ext hn.symm rfl))
      · exact .inr h
  | inc n todo j =>
    cases hs
    exact ⟨_, List.mem_singleton.2 rfl, nextSlot_ahead h⟩
  | release n todo =>
    cases hs
    exact ⟨.next todo, by simp, h⟩
  | dec => exact h.elim
  | done => exact h.elim

/-- A writer does not pass a transaction on its storage without helping it. -/
theorem PayPc.Bound.step {pc : PayPc Thr} (h : pc.Bound n) (hw : ∀ n, Watched m n)
    (hh : (Frame.payAll a S pc).HelpInv m) (hl : pc ≠ .start → m.localNode t = true)
    (hlist : n ∈ m.listHead) (hu : Unhelped m m' n S)
    (hs : payStep t m a S (.payAll a S) pc = some (m', pre)) :
    ∃ pc', .payAll a S pc' ∈ pre ∧ pc'.Bound n := by
  have slots : ∀ {n'} todo j, n ∈ todo → (nextSlot n' todo j).Bound n := by
    intro n' todo j hn
    rw [nextSlot]
    split <;> exact hn
  cases pc with
  | start =>
    simp only [payStep] at hs
    split at hs <;> cases hs
    exact ⟨.head, by simp, trivial⟩
  | head =>
    cases hs
    exact ⟨.next m.listHead, by simp, hlist⟩
  | next todo =>
    cases todo with
    | nil => cases h
    | cons n' todo =>
      cases hs
      refine ⟨.help n' todo .load, by simp, ?_⟩
      exact (List.mem_cons.1 h).imp (fun h => ⟨h, trivial⟩) id
  | help n' todo hp =>
    rcases helpStep_next (hw n').observed hh (hl (by simp)) hs with ⟨h', hm, hb⟩ | ⟨hm, hb⟩
    · refine ⟨_, hm, h.imp ?_ id⟩
      rintro ⟨rfl, hb'⟩
      exact ⟨rfl, hb hb' hu⟩
    · refine ⟨_, hm, h.resolve_left ?_⟩
      rintro ⟨rfl, hb'⟩
      exact hb ⟨hb', hu⟩
  | slot n' todo j =>
    simp only [payStep] at hs
    split at hs <;> cases hs
    · exact ⟨.inc n' todo j, by simp, h⟩
    · exact ⟨_, List.mem_singleton.2 rfl, slots todo j h⟩
  | inc n' todo j =>
    cases hs
    exact ⟨_, List.mem_singleton.2 rfl, slots todo j h⟩
  | release n' todo =>
    cases hs
    exact ⟨.next todo, by simp, h⟩
  | dec => exact h.elim
  | done => exact h.elim

variable [Fintype Thr]

theorem Backed.step {Q : Sto → Prop} {W : PayPc Thr → Prop} (h : Backed σ Q W a)
    (hst : Stacked (σ.stack t))
    (hs : threadStep cfg t σ.mem σ.free (σ.stack t) act = some (m', st'))
    (hstart : W .start) (hdone : ¬ W .done)
    (hawait : ∀ n todo v since r, W (.help n todo (.await v since)) →
      W (.help n todo (.theirSpace v since r)))
    (hpay : ∀ S pc pre rest, Q S → σ.stack t = .payAll a S pc :: rest → W pc →
      st' = pre ++ rest → payStep t σ.mem a S (.payAll a S) pc = some (m', pre) →
      ∃ pc', .payAll a S pc' ∈ pre ∧ W pc') :
    Backed ⟨m', Function.update σ.stack t st'⟩ Q W a := by
  have mine : ∀ S pc, Q S → .payAll a S pc ∈ st' → W pc →
      Backed ⟨m', Function.update σ.stack t st'⟩ Q W a := by
    intro S pc hQ hf hW
    refine .inr ⟨t, S, pc, hQ, ?_, hW⟩
    simpa using hf
  rcases h with ⟨S, hQ, hS⟩ | ⟨x, S, pc, hQ, hf, hW⟩
  · rcases threadStep_storage hst hs hS with hS | hf
    · exact .inl ⟨S, hQ, hS⟩
    · exact mine S _ hQ hf hstart
  · by_cases hx : x = t
    · subst hx
      rcases threadStep_payAll hs hf with hf | ⟨pre, rest, he, hp, rfl⟩ | rfl |
        ⟨n, todo, v, since, r, rfl, hf'⟩
      · exact mine S pc hQ hf hW
      · obtain ⟨pc', hpc, hW'⟩ := hpay S pc pre rest hQ he hW rfl hp
        exact mine S pc' hQ (List.mem_append_left _ hpc) hW'
      · exact absurd hW hdone
      · exact mine S _ hQ hf' (hawait n todo v since r hW)
    · refine .inr ⟨x, S, pc, hQ, ?_, hW⟩
      simpa [hx] using hf

theorem Covered.step (h : Covered σ a d) (hP : Protocol w σ) (hst : Stacked (σ.stack t))
    (hs : threadStep cfg t σ.mem σ.free (σ.stack t) act = some (m', st'))
    (hd : σ.mem.debt d = a) (hd' : m'.debt d = a) (ha : a ≠ debtNone) :
    Covered ⟨m', Function.update σ.stack t st'⟩ a d := by
  refine Backed.step h hst hs trivial id (fun _ _ _ _ _ h => h) ?_
  intro S pc pre rest _ he hW _ hp
  have hh := hP.help t (.payAll a S pc) (by simp [he])
  exact hW.step (fun n => (hP.node n).watched) hh (hP.localNode he) (hP.listed (hd ▸ ha)) hd hd' ha
    hp

theorem Guarded.step (h : Guarded σ S c n) (hP : Protocol w σ) (hst : Stacked (σ.stack t))
    (hs : threadStep cfg t σ.mem σ.free (σ.stack t) act = some (m', st'))
    (hlist : n ∈ σ.mem.listHead) (hu : Unhelped σ.mem m' n S) :
    Guarded ⟨m', Function.update σ.stack t st'⟩ S c n := by
  refine Backed.step h hst hs trivial id ?_ ?_
  · rintro n' todo v since r (⟨hn, _⟩ | hn)
    · exact .inl ⟨hn, trivial⟩
    · exact .inr hn
  · rintro S' pc pre rest rfl he hW _ hp
    have hh := hP.help t (.payAll c S' pc) (by simp [he])
    exact hW.step (fun n => (hP.node n).watched) hh (hP.localNode he) hlist hu hp

/-- After a step of `t` a debt in its node is pending, or it was there and was not pending or is
covered. -/
theorem threadStep_debt (hC : Coverage σ) (hP : Protocol w σ)
    (hs : threadStep cfg t σ.mem σ.free (σ.stack t) act = some (m', st'))
    (hd : m'.debt d ≠ debtNone) :
    (∃ f ∈ st'.head?, f.pending t = some d) ∨
      m'.debt d = σ.mem.debt d ∧ ((∀ f ∈ (σ.stack t).head?, f.pending t ≠ some d) ∨
        Covered σ (σ.mem.debt d) d) := by
  have quiet : Paid σ.mem m' → (∀ f ∈ (σ.stack t).head?, f.pending t = none) →
      m'.debt d = σ.mem.debt d ∧ ((∀ f ∈ (σ.stack t).head?, f.pending t ≠ some d) ∨
        Covered σ (σ.mem.debt d) d) := by
    intro hp hf
    refine ⟨(hp d).resolve_right hd, .inl ?_⟩
    intro f hf' he
    rw [hf f hf'] at he
    cases he
  rcases threadStep_cases hs with ⟨sp, f, rest, pre, _, he, hf, rfl⟩ | ⟨_, h⟩ | ⟨_, h, rfl⟩ | ⟨hu, h⟩
  · have head : f.pending t = none → ∀ f ∈ (σ.stack t).head?, f.pending t = none := by
      intro h
      rw [he]
      rintro g ⟨⟩
      exact h
    cases Frame.step_cases cfg t hf with
    | load hl =>
      have ht := (hP.node t).top
      rw [he] at ht
      rcases loadStep_debt cfg ht hl hd with ⟨f, hf, hfd⟩ | ⟨hdd, hnp | hS | ⟨g, rfl, hg, rfl⟩⟩
      · left
        refine ⟨f, ?_, hfd⟩
        cases pre with
        | nil => cases hf
        | cons f' pre => exact hf
      · refine .inr ⟨hdd, .inl ?_⟩
        rw [he]
        rintro g ⟨⟩
        exact hnp
      · exact .inr ⟨hdd, .inr (.inl ⟨_, trivial, hS⟩)⟩
      · exact .inr ⟨hdd, .inr ((hC.guarded t _ _ _ _ rest g _ he rfl hg).covered 8)⟩
    | pay hp => exact .inr (quiet (payStep_internal t _ hp).2 (head rfl))
    | write hw => cases hw <;> exact .inr (quiet (.of_eq rfl) (head rfl))
    | other _ hp _ hl => exact .inr (quiet hp (head (Frame.pending_eq_none hl)))
  · obtain ⟨f, v, rest, he, hv, hm⟩ := retStep_cases h
    have hdebt : m'.debt = σ.mem.debt := by
      rcases hm with ⟨rfl, _⟩ | ⟨_, _, _, _, _, rfl, _⟩
      · cases v <;> rfl
      · rw [Shared.recordFor_eq]
    refine .inr (quiet (.of_eq hdebt) ?_)
    rw [he]
    rintro g ⟨⟩
    cases f with
    | load S since full pc =>
      cases pc with
      | done g => rfl
      | _ => cases full <;> cases hv
    | _ => rfl
  · rw [claimStep] at h
    split at h <;> cases h
    by_cases hp : ∃ f ∈ (σ.stack t).head?, f.pending t = some d
    · exact .inl hp
    · refine .inr ⟨rfl, .inl ?_⟩
      intro f hf he
      exact hp ⟨f, hf, he⟩
  · exact .inr (quiet (userStep_cases h).1.debt (atUser_pending hu))

theorem threadStep_candidate (hP : Protocol w σ)
    (hs : threadStep cfg t σ.mem σ.free (σ.stack t) act =
      some (m', .load S since full pc :: rest))
    (hc : pc.candidate? = some (g, c)) (hg : m'.control t = g) (hg2 : g % 4 = 2) :
    σ.mem.storage S = some c ∨ σ.mem.control t = g ∧
      ∃ since full pc rest, σ.stack t = .load S since full pc :: rest ∧
        pc.candidate? = some (g, c) := by
  have hn := hP.node t
  have absurd_idle : σ.mem.control t = idle → m'.control = σ.mem.control → False := by
    intro hi he
    rw [he, hi] at hg
    subst hg
    cases hg2
  rcases threadStep_cases hs with ⟨sp, f, rest', pre, _, he, hf, hpre⟩ | ⟨_, h⟩ | ⟨_, h, he⟩ |
    ⟨hu, h⟩
  · have run : (∀ S since full pc, f = .load S since full pc → ∃ g, pc = .done g) → False := by
      intro hl
      have htop := hn.top
      rw [he] at htop
      have hi : σ.mem.control t = idle := by
        cases f with
        | load S since full pc =>
          obtain ⟨g, rfl⟩ := hl _ _ _ _ rfl
          exact htop.1.control
        | panic => cases hf
        | _ => exact htop.1.control
      refine (Frame.step_space hf).control_of_idle hi hl (hP.help t f (by simp [he])) ?_
      rw [hg, hg2]
    cases Frame.step_cases cfg t hf with
    | load hl =>
      obtain ⟨rfl, hS | ⟨hc', hctl⟩⟩ := loadStep_candidate cfg hl hpre.symm hc
      · exact .inl hS
      · exact .inr ⟨hctl ▸ hg, _, _, _, _, he, hc'⟩
    | pay => exact (run (by simp)).elim
    | write hw => cases hw <;> exact (run (by simp)).elim
    | other _ _ _ hl => exact (run hl).elim
  · obtain ⟨f, v, rest', he, hv, hm⟩ := retStep_cases h
    rw [he] at hn
    refine (absurd_idle (hn.calm_of_result hv).1.control ?_).elim
    rcases hm with ⟨rfl, _⟩ | ⟨_, _, _, _, _, rfl, _⟩
    · cases v <;> rfl
    · rw [Shared.recordFor_eq]
  · right
    rw [claimStep] at h
    split at h <;> cases h
    exact ⟨hg, _, _, _, _, he.symm, hc⟩
  · exact (absurd_idle (hn.calm_of_user hu).1.1.control (userStep_cases h).1.control).elim

theorem Coverage.step (hC : Coverage σ) (hP : Protocol cfg.width σ)
    (hst : ∀ t, Stacked (σ.stack t)) (hs : State.step cfg l σ = some σ') : Coverage σ' := by
  have hP' := hP.step hst hs
  obtain ⟨m', st', ht, rfl⟩ := State.step_cases hs
  have hr := threadStep_ok hP (hst _) ht
  refine ⟨?_, ?_⟩
  · intro d (hd : m'.debt d ≠ debtNone)
    have stays : m'.debt d = σ.mem.debt d → Covered σ (σ.mem.debt d) d →
        Covered ⟨m', Function.update σ.stack l.1 st'⟩ (m'.debt d) d := by
      intro he hc
      rw [he] at hd ⊢
      exact hc.step hP (hst _) ht rfl he hd
    by_cases hdt : d.1 = l.1
    · show (∃ f ∈ (Function.update σ.stack l.1 st' d.1).head?, _) ∨ _
      rw [hdt, Function.update_self]
      rcases threadStep_debt hC hP ht hd with hp | ⟨he, hnp | hc⟩
      · exact .inl hp
      · refine .inr (stays he ((hC.covered d (he ▸ hd)).resolve_left ?_))
        rintro ⟨f, hf, hfd⟩
        rw [hdt] at hf hfd
        exact hnp f hf hfd
      · exact .inr (stays he hc)
    · have he := ((hr.others d.1 hdt).debt d.2).resolve_right hd
      show (∃ f ∈ (Function.update σ.stack l.1 st' d.1).head?, _) ∨ _
      rw [Function.update_of_ne hdt]
      exact (hC.covered d (he ▸ hd)).imp id (stays he)
  · intro t S since full pc rest g c hstack hc (hg : m'.control t = g)
    have htop := (hP'.node t).top
    rw [hstack] at htop
    have ho' : Open m' t S g := LoadPc.NodeInv.candidate htop hc
    have stays : ∀ since full pc rest, σ.stack t = .load S since full pc :: rest →
        pc.candidate? = some (g, c) → σ.mem.control t = g →
        Guarded ⟨m', Function.update σ.stack l.1 st'⟩ S c t := by
      intro since full pc rest he hc hctl
      have hn := hP.node t
      rw [he] at hn
      have ho : Open σ.mem t S g := LoadPc.NodeInv.candidate hn.top hc
      have hlist : t ∈ σ.mem.listHead := by
        refine hn.listed.1 (hn.owns_of_load ?_)
        rintro rfl
        cases hc
      refine (hC.guarded t S since full pc rest g c he hc hctl).step hP (hst _) ht hlist ?_
      rw [Unhelped, hctl, hg]
      exact ⟨ho, rfl⟩
    by_cases htl : t = l.1
    · subst htl
      simp only [Function.update_self] at hstack
      subst hstack
      rcases threadStep_candidate hP ht hc hg ho'.2.2.1 with hS |
        ⟨hctl, since', full', pc', rest', he, hc'⟩
      · rcases threadStep_storage (hst _) ht hS with hS' | hf
        · exact .inl ⟨S, rfl, hS'⟩
        · refine .inr ⟨l.1, S, .start, rfl, ?_, trivial⟩
          simpa using hf
      · exact stays _ _ _ _ he hc' hctl
    · simp only [Function.update_of_ne htl] at hstack
      refine stays _ _ _ _ hstack hc ?_
      rcases (hr.others t htl).control with ⟨he, _⟩ | ⟨_, h1, _⟩
      · rw [← he, hg]
      · have hg2 := ho'.2.2.1
        rw [← hg] at hg2
        omega

theorem Coverage.reach (h : (machine cfg).Reach ok σ) : Coverage σ :=
  h.invariant_of (fun _ hr => And.intro (Protocol.reach hr) (Stacked.reach hr))
    (fun _ hi => hi ▸ .initial cfg) (fun _ _ _ hQ hC _ hs => hC.step hQ.1 hQ.2 hs)

end ArcSwap
