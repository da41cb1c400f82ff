import ArcSwap.Envelopes
import ArcSwap.Transfer

namespace ArcSwap
set_option autoImplicit true

variable {Thr Sto : Type}
variable {m m' : Shared Thr Sto} {L L' R : List (Guard Thr)} {pre rest : List (Frame Thr Sto)}

theorem Open.offered_eq_none (ho : Open m t S g) (hc : m.control t = g) : m.offered t = none := by
  obtain ⟨_, _, hg, h | h, _⟩ := ho
  · exact h.2
  · rw [hc, hg] at h
    cases h.1

theorem Observed.refs (h : Observed m n v) (t : Thr) (ptr : Nat) (S : Sto) (todo : List Thr) :
    Frame.refs t ((helpNext n todo v).elim .panic (Frame.payAll ptr S)) =
      [⟨none, ptr⟩, ⟨none, ptr⟩] := by
  rcases h.next todo with h | ⟨h, _⟩
  · rw [h]
    rfl
  · rw [h]
    rfl

variable [DecidableEq Thr]

theorem count_cons_eq (x : Guard Thr) (L : List (Guard Thr)) (g : Guard Thr) :
    (x :: L).count g = L.count g + [x].count g := by
  rw [List.count_cons, List.count_singleton]

variable [Fintype Thr] [Fintype Sto]

theorem Transfer.goto (hs : m'.strong = m.strong) (hd : m'.debt = m.debt)
    (hr : ∀ g, m'.refs g = m.refs g) (h : L'.Perm L) : Transfer m L m' L' :=
  .move hs hd (fun g _ => by rw [hr, h.count_eq])

theorem Transfer.inc_perm (m : Shared Thr Sto) (p : Nat) (h : L'.Perm (⟨none, p⟩ :: L)) :
    Transfer m L (m.inc p) L' := by
  have hr : ∀ g, (m.inc p).refs g = m.refs g := by
    intro g
    rw [Shared.inc]
    split <;> rfl
  refine .inc rfl ?_ (fun g _ => by rw [hr, h.count_eq, count_cons_eq, Nat.add_assoc])
  rw [Shared.inc]
  split <;> rfl

theorem Transfer.release (t : Thr) (f' : Frame Thr Sto)
    (h : L.Perm (⟨none, p⟩ :: f'.refs t)) (hs : release m p f' = (m', pre)) :
    Transfer m L m' (pre.flatMap (Frame.refs t)) := by
  obtain ⟨rfl, rfl⟩ := Prod.mk.inj hs
  have hr : ∀ g, (m.dec p).refs g = m.refs g := by
    intro g
    rw [Shared.dec]
    split <;> rfl
  have hpre : (if m.destroys p then [Frame.user, f'] else [f']).flatMap (Frame.refs t) =
      f'.refs t := by
    split
    · exact List.append_nil _
    · exact List.append_nil _
  refine .dec rfl ?_ (fun g _ => by rw [hr, hpre, h.count_eq, count_cons_eq, Nat.add_assoc])
  rw [Shared.dec]
  split <;> rfl

theorem Transfer.fill_perm (hd : m.debt d = debtNone) (hs : m'.strong = m.strong)
    (hd' : m'.debt = Function.update m.debt d p) (hr : ∀ g, m'.refs g = m.refs g)
    (h : L'.Perm (⟨some d, p⟩ :: L)) : Transfer m L m' L' :=
  .fill hd hs hd' (fun g _ => by rw [hr, h.count_eq, count_cons_eq, Nat.add_assoc])

theorem Transfer.pay_perm (o : Option (Debt Thr)) (ho : o = none ∨ o = some d)
    (hd : m.debt d = p) (h : L.Perm (⟨o, p⟩ :: L')) :
    Transfer m L (m.setDebt d debtNone) L' := by
  refine .pay o ho hd rfl rfl ?_
  intro g _
  rw [h.count_eq, count_cons_eq, ← Nat.add_assoc]
  rfl

theorem Transfer.paid_perm (hd : m.debt d ≠ p) (h : L.Perm (⟨some d, p⟩ :: R))
    (h' : L'.Perm (⟨none, p⟩ :: R)) : Transfer m L m L' := by
  refine .paid hd rfl rfl ?_
  intro g _
  rw [h.count_eq, h'.count_eq, count_cons_eq _ R, count_cons_eq _ R]
  omega

theorem innerStep_transfer (t : Thr)
    (hs : innerStep m g (.intoInner src g) pc = some (m', pre)) :
    Transfer m (Frame.refs t (.intoInner src g pc : Frame Thr Sto)) m'
      (pre.flatMap (Frame.refs t)) := by
  cases pc with
  | start =>
    obtain ⟨d, p⟩ := g
    cases d with
    | none =>
      cases hs
      exact .goto rfl rfl (fun _ => rfl) (.refl _)
    | some d =>
      cases hs
      exact .inc_perm m p (.refl _)
  | pay d =>
    simp only [innerStep] at hs
    split at hs
    · rename_i hd
      cases hs
      exact .pay_perm (some d) (.inr rfl) hd (.swap ..)
    · rename_i hd
      cases hs
      exact .paid_perm hd (.swap ..) (.refl _)
  | dec =>
    simp only [innerStep, Option.some.injEq] at hs
    exact .release t (.intoInner src g .done) (.refl _) hs
  | done => cases hs

theorem dropStep_transfer (t : Thr) (hs : dropStep m g (.guardDrop g) pc = some (m', pre)) :
    Transfer m (Frame.refs t (.guardDrop g pc : Frame Thr Sto)) m'
      (pre.flatMap (Frame.refs t)) := by
  cases pc with
  | start =>
    obtain ⟨d, p⟩ := g
    cases d with
    | none =>
      cases hs
      exact .goto rfl rfl (fun _ => rfl) (.refl _)
    | some d =>
      simp only [dropStep] at hs
      split at hs
      · rename_i hd
        cases hs
        exact .pay_perm (some d) (.inr rfl) hd (.refl _)
      · rename_i hd
        cases hs
        exact .paid_perm hd (.refl _) (.refl _)
  | dec =>
    simp only [dropStep, Option.some.injEq] at hs
    exact .release t (.guardDrop g .done) (.refl _) hs
  | done => cases hs

theorem loadStep_transfer (cfg : Config Thr Sto)
    (hn : NodeOk w m t (.load S since full pc :: rest))
    (hw : Writing m t (.load S since full pc :: rest))
    (hs : loadStep cfg t m S (.load S since full) pc = some (m', pre)) :
    Transfer m (Frame.refs t (.load S since full pc)) m' (pre.flatMap (Frame.refs t)) := by
  have ht : pc.NodeInv m t S := hn.top
  cases pc with
  | enter =>
    simp only [loadStep] at hs
    split at hs <;> cases hs
    split <;> exact .goto rfl rfl (fun _ => rfl) (.refl _)
  | first | candidate =>
    simp only [loadStep, Option.map_eq_some_iff] at hs
    obtain ⟨p, _, he⟩ := hs
    cases he
    split <;> exact .goto rfl rfl (fun _ => rfl) (.refl _)
  | scan p e i =>
    cases hs
    split
    · exact .goto rfl rfl (fun _ => rfl) (.refl _)
    · split <;> exact .goto rfl rfl (fun _ => rfl) (.refl _)
  | take p e d =>
    cases hs
    exact .fill_perm ht.2.2.2.2 rfl rfl (fun _ => rfl) (.refl _)
  | confirm p e d =>
    simp only [loadStep, Option.map_eq_some_iff] at hs
    obtain ⟨c, _, he⟩ := hs
    cases he
    split
    · rename_i he
      subst he
      exact .goto rfl rfl (fun _ => rfl) (.refl _)
    · exact .goto rfl rfl (fun _ => rfl) (.refl _)
  | repay p e d =>
    simp only [loadStep] at hs
    split at hs
    · rename_i hd
      cases hs
      exact .pay_perm (some d) (.inr rfl) hd (.refl _)
    · rename_i hd
      cases hs
      exact .paid_perm hd (.refl _) (.refl _)
  | setAddr =>
    simp only [loadStep] at hs
    split at hs <;> cases hs <;> exact .goto rfl rfl (fun _ => rfl) (.refl _)
  | setControl g b =>
    cases hs
    split <;> exact .goto rfl rfl (fun _ => rfl) (.refl _)
  | cooldown g =>
    cases hs
    split <;> exact .goto rfl rfl (fun _ => rfl) (.refl _)
  | reserve | release =>
    cases hs
    exact .goto rfl rfl (fun _ => rfl) (.refl _)
  | setSlot g c =>
    cases hs
    exact .fill_perm (ht.2.1.elim id id) rfl rfl (fun _ => rfl) (.refl _)
  | setIdle g c =>
    cases hs
    generalize hm : ({ m.setControl t idle with
      offered := Function.update m.offered t none } : Shared Thr Sto) = m'
    have hr : ∀ x, m'.refs x + (owed (m.offered t)).count x = m.refs x := by
      intro x
      subst hm
      exact refs_offered (m := m) (n := t) (o := none) (by rfl) (by rfl) (by rfl) (by rfl) x
    have hstrong : m'.strong = m.strong := by subst hm; rfl
    have hdebt : m'.debt = m.debt := by subst hm; rfl
    split
    · rename_i hc
      rw [ht.1.offered_eq_none hc] at hr
      exact .goto hstrong hdebt hr (.refl _)
    · rename_i hc
      obtain ⟨_, _, _, h | h, _⟩ := ht.1
      · exact absurd h.1 hc
      · obtain ⟨p, hp⟩ := Option.isSome_iff_exists.1 h.2
        rw [hp] at hr ⊢
        refine .move hstrong hdebt ?_
        intro x _
        have hrx : m'.refs x + [⟨none, p⟩].count x = m.refs x := hr x
        change m'.refs x + ([⟨none, p⟩] ++ [⟨some (helpingSlot t), c⟩] : List (Guard Thr)).count x =
          m.refs x + [(⟨some (helpingSlot t), c⟩ : Guard Thr)].count x
        rw [List.count_append]
        omega
  | inc c =>
    cases hs
    exact .inc_perm m c (.refl _)
  | pay c =>
    simp only [loadStep] at hs
    split at hs
    · rename_i hd
      cases hs
      exact .pay_perm (some _) (.inr rfl) hd (.swap ..)
    · rename_i hd
      cases hs
      exact .paid_perm hd (.swap ..) (.refl _)
  | dec c =>
    simp only [loadStep, Option.some.injEq] at hs
    exact .release t (.load S since full (.done ⟨none, c⟩)) (.refl _) hs
  | envelope g c space p =>
    cases hs
    have hp : m.handover space = p := hw
    subst hp
    exact .goto rfl rfl (fun _ => rfl) (.refl _)
  | offer c r space =>
    cases hs
    exact .goto rfl rfl (fun _ => rfl) (.refl _)
  | repayUnused c r =>
    simp only [loadStep] at hs
    split at hs
    · rename_i hd
      cases hs
      exact .pay_perm (some _) (.inr rfl) hd (.swap ..)
    · rename_i hd
      cases hs
      exact .paid_perm hd (.swap ..) (.refl _)
  | decUnused c r =>
    simp only [loadStep, Option.some.injEq] at hs
    exact .release t (.load S since full (.done ⟨none, r⟩)) (.refl _) hs
  | done => cases hs

variable [DecidableEq Sto]

theorem helpStep_transfer (hn : NodeOk w m t (.payAll ptr S (.help n todo h) :: rest))
    (hw : ∀ n, Watched m n) (hh : h.Inv m n S)
    (hs : helpStep t m S (.payAll ptr S) n todo h = some (m', pre)) :
    Transfer m (Frame.refs t (.payAll ptr S (.help n todo h))) m'
      (pre.flatMap (Frame.refs t)) := by
  have ht : Idle m t ∧ HelpingHolds m t debtNone := hn.top
  have hl := (hn.entered _ (List.mem_cons_self ..) trivial : Owns m t).localNode ht.1.fresh
  have ho := (hw n).observed
  cases h with
  | load =>
    simp only [helpStep, hl, if_true] at hs
    cases hs
    refine .goto rfl rfl (fun _ => rfl) ?_
    rw [List.flatMap_singleton, ho.refs]
    exact .refl _
  | addr v =>
    simp only [helpStep] at hs
    split at hs <;> cases hs <;> exact .goto rfl rfl (fun _ => rfl) (.refl _)
  | recheck v =>
    cases hs
    refine .goto rfl rfl (fun _ => rfl) ?_
    split
    · exact .refl _
    · rw [List.flatMap_singleton, ho.refs]
      exact .refl _
  | await v since => cases hs
  | theirSpace | mySpace =>
    cases hs
    exact .goto rfl rfl (fun _ => rfl) (.refl _)
  | write v since r their mine =>
    simp only [helpStep, tagOf_eq, hh.2.2, if_true] at hs
    cases hs
    exact .goto rfl rfl (fun _ => rfl) (.refl _)
  | exchange v since r their mine =>
    simp only [helpStep] at hs
    split at hs
    · rename_i hc
      cases hs
      generalize hm : ({ m.setControl n (mine ||| replacementTag) with
        offered := Function.update m.offered n (some r)
        sent := ⟨n, v, r⟩ :: m.sent } : Shared Thr Sto) = m'
      obtain ⟨S', hopen⟩ := (hw n).opened (hc ▸ hh.1.seen.1)
      have hr : ∀ x, m'.refs x + (owed (m.offered n)).count x =
          m.refs x + (owed (some r)).count x := by
        intro x
        subst hm
        exact refs_offered (m := m) (n := n) (o := some r) (by rfl) (by rfl) (by rfl) (by rfl) x
      rw [hopen.offered_eq_none rfl] at hr
      refine .move (by subst hm; rfl) (by subst hm; rfl) ?_
      intro x _
      have hrx : m'.refs x = m.refs x + [⟨none, r⟩].count x := hr x
      change m'.refs x + ([⟨none, ptr⟩, ⟨none, ptr⟩] : List (Guard Thr)).count x =
        m.refs x + ([⟨none, r⟩] ++ [⟨none, ptr⟩, ⟨none, ptr⟩] : List (Guard Thr)).count x
      rw [List.count_append]
      omega
    · cases hs
      exact .goto rfl rfl (fun _ => rfl) (.refl _)
  | offer their =>
    cases hs
    exact .goto rfl rfl (fun _ => rfl) (.refl _)
  | drop v r =>
    simp only [helpStep, Option.some.injEq] at hs
    refine .release t _ ?_ hs
    rw [Observed.refs hh]
    exact .refl _

theorem payStep_transfer (hn : NodeOk w m t (.payAll ptr S pc :: rest)) (hw : ∀ n, Watched m n)
    (hh : (Frame.payAll ptr S pc).HelpInv m)
    (hs : payStep t m ptr S (.payAll ptr S) pc = some (m', pre)) :
    Transfer m (Frame.refs t (.payAll ptr S pc)) m' (pre.flatMap (Frame.refs t)) := by
  have slots : ∀ n todo j, Frame.refs t (Frame.payAll ptr S (nextSlot n todo j)) =
      [⟨none, ptr⟩, ⟨none, ptr⟩] := by
    intro n todo j
    rw [nextSlot]
    split <;> rfl
  cases pc with
  | start =>
    simp only [payStep] at hs
    split at hs <;> cases hs
    exact .inc_perm m ptr (.refl _)
  | next todo =>
    cases todo <;> cases hs <;> exact .goto rfl rfl (fun _ => rfl) (.refl _)
  | help n todo h => exact helpStep_transfer hn hw hh hs
  | slot n todo j =>
    simp only [payStep] at hs
    split at hs
    · rename_i hd
      cases hs
      exact .pay_perm none (.inl rfl) hd (.refl _)
    · cases hs
      refine .goto rfl rfl (fun _ => rfl) ?_
      rw [List.flatMap_singleton, slots]
      exact .refl _
  | inc n todo j =>
    cases hs
    refine .inc_perm m ptr ?_
    rw [List.flatMap_singleton, slots]
    exact .refl _
  | dec =>
    simp only [payStep, Option.some.injEq] at hs
    exact .release t (.payAll ptr S .done) (.refl _) hs
  | done => cases hs
  | _ =>
    cases hs
    exact .goto rfl rfl (fun _ => rfl) (.refl _)

/-- Writing `new` into a storage moves the reference to the old content out of it. -/
theorem Transfer.write (op : Nat) (hS : m.storage S = some old)
    (h : L.Perm (⟨none, new⟩ :: R)) (h' : L'.Perm (⟨none, old⟩ :: R)) :
    Transfer m L (m.setStorage op S (some new)) L' := by
  refine .move rfl rfl ?_
  intro g _
  have hr := refs_setStorage m op S (some new) g
  rw [hS] at hr
  change (m.setStorage op S (some new)).refs g + [⟨none, old⟩].count g =
    m.refs g + [⟨none, new⟩].count g at hr
  rw [h.count_eq, h'.count_eq, count_cons_eq _ R, count_cons_eq _ R]
  omega

theorem Frame.step_transfer {f : Frame Thr Sto} (hn : NodeOk w m t (f :: rest))
    (hw : ∀ n, Watched m n) (hh : f.HelpInv m) (hwr : Writing m t (f :: rest)) (hr : f.Ready)
    (hs : f.step cfg t m sp = some (m', pre)) :
    Transfer m (f.refs t) m' (pre.flatMap (Frame.refs t)) := by
  cases f with
  | user => cases hs
  | panic => cases hs
  | load S since full pc =>
    rcases Frame.step_load hs with ⟨g, rfl, rfl, rfl, rfl⟩ | hs
    · exact .goto rfl rfl (fun _ => rfl) (.refl _)
    · exact loadStep_transfer cfg hn hwr hs
  | intoInner src g pc => exact innerStep_transfer t hs
  | guardDrop g pc => exact dropStep_transfer t hs
  | payAll ptr S pc => exact payStep_transfer hn hw hh hs
  | swap op S new pc =>
    cases pc with
    | start =>
      simp only [Frame.step, swapStep, Option.map_eq_some_iff] at hs
      obtain ⟨old, hS, he⟩ := hs
      cases he
      exact .write op hS (.refl _) (.refl _)
    | await => cases hs
    | done => cases hs
  | discard pc =>
    cases pc with
    | await => cases hs
    | dec a =>
      simp only [Frame.step, discardStep, Option.some.injEq] at hs
      exact .release t (.discard .done) (.refl _) hs
    | done => cases hs
  | cas op S current new dst pc =>
    cases pc with
    | retry =>
      cases hs
      exact .goto rfl rfl (fun _ => rfl) (.refl _)
    | exchange old =>
      simp only [Frame.step, casStep, Option.map_eq_some_iff] at hs
      obtain ⟨ptr, hS, he⟩ := hs
      split at he
      · rename_i hc
        cases he
        have hold : old.ptr = current := hr
        refine .write op (hS.trans (congrArg some (hc.1.trans hold.symm))) (.refl _) (.refl _)
      · cases he
        exact .goto rfl rfl (fun _ => rfl) (.swap ..)
    | dec old u =>
      simp only [Frame.step, casStep, Option.some.injEq] at hs
      exact .release t (.cas op S current new dst (.done old (some u))) (.refl _) hs
    | dropNew old =>
      simp only [Frame.step, casStep, Option.some.injEq] at hs
      exact .release t (.cas op S current new dst (.done old none)) (.refl _) hs
    | _ => cases hs
  | rcu op S pc =>
    cases pc with
    | compare cur prev arg res =>
      simp only [Frame.step, rcuStep] at hs
      split at hs <;> cases hs
      · exact .goto rfl rfl (fun _ => rfl) (.swap ..)
      · exact .goto rfl rfl (fun _ => rfl) (.refl _)
    | release cur ret arg res =>
      cases hs
      exact .goto rfl rfl (fun _ => rfl) (.swap ..)
    | _ => cases hs

end ArcSwap
