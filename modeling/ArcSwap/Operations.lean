import ArcSwap.LoadHistory

namespace ArcSwap
set_option autoImplicit true

variable {Thr Sto : Type}

/-- The operation an activation carries out. While an attempt of `rcu` runs, the attempt does. -/
def Frame.op : Frame Thr Sto → Option Nat
  | .swap op _ _ _ | .cas op _ _ _ _ _ => some op
  | .rcu _ _ (.cas _ _ _) => none
  | .rcu op _ _ => some op
  | _ => none

def Call.op : Call Sto → Option Nat
  | .load _ _ _ _ => none
  | .swap op _ _ _ | .cas op _ _ _ _ | .rcu op _ _ _ _ => some op

def running (st : List (Frame Thr Sto)) (op : Nat) : Nat := st.countP (·.op = some op)

def Shared.finished (m : Shared Thr Sto) (op : Nat) : Nat := m.calls.countP (·.op = some op)

@[simp] theorem running_nil : running ([] : List (Frame Thr Sto)) op = 0 := rfl

@[simp] theorem running_cons (f : Frame Thr Sto) (st : List (Frame Thr Sto)) (op : Nat) :
    running (f :: st) op = running st op + if f.op = some op then 1 else 0 := by
  rw [running, List.countP_cons]
  simp [running]

@[simp] theorem running_append (pre st : List (Frame Thr Sto)) (op : Nat) :
    running (pre ++ st) op = running pre op + running st op :=
  List.countP_append

theorem running_pos {f : Frame Thr Sto} (hf : f ∈ st) (hop : f.op = some op) :
    0 < running st op :=
  List.countP_pos_iff.2 ⟨f, hf, by simpa using hop⟩

/-- An activation that is part of other operations only. -/
def Frame.Auxiliary (f : Frame Thr Sto) : Prop := f.op = none ∧ f.callee ≠ .rcu

theorem Callee.Inner.auxiliary {f : Frame Thr Sto} (h : f.callee.Inner) : f.Auxiliary := by
  cases f with
  | swap | cas | rcu => exact h.elim
  | intoInner src => cases src <;> exact ⟨rfl, by simp [Frame.callee]⟩
  | _ => exact ⟨rfl, by simp [Frame.callee]⟩

theorem Frame.Auxiliary.goto {f f' : Frame Thr Sto} (hf : f.Auxiliary)
    (hc : f' = .panic ∨ f'.callee = f.callee) : f'.Auxiliary := by
  rcases hc with rfl | hc
  · exact ⟨rfl, by simp [Frame.callee]⟩
  refine ⟨?_, hc ▸ hf.2⟩
  obtain ⟨hop, hr⟩ := hf
  cases f' with
  | swap | cas | rcu =>
    cases f with
    | rcu => exact absurd rfl hr
    | intoInner src => cases src <;> cases hc
    | swap | cas => cases hop
    | _ => cases hc
  | _ => rfl

variable {m m' : Shared Thr Sto} {st st' pre rest : List (Frame Thr Sto)} {op : Nat}

theorem Outcome.auxiliary {f : Frame Thr Sto} (h : Outcome f pre) (hf : f.Auxiliary) :
    ∀ g ∈ pre, g.Auxiliary := by
  cases h with
  | goto _ hc => simpa using hf.goto hc
  | call _ hi _ hc => simpa using ⟨hi.auxiliary, hf.goto hc⟩

theorem running_auxiliary (h : ∀ g ∈ pre, g.Auxiliary) : running pre op = 0 := by
  refine List.countP_eq_zero.2 fun g hg => ?_
  simp [(h g hg).1]

theorem release_running {f : Frame Thr Sto} (hs : release m a f = (m', pre)) (op : Nat) :
    running pre op = running [f] op := by
  obtain ⟨_, rfl⟩ := Prod.mk.inj hs
  split
  · simp [Frame.op]
  · rfl

theorem Frame.call_op {f : Frame Thr Sto} (h : f.call m = some c) (hc : c.op = some n) :
    f.op = some n := by
  unfold Frame.call at h
  split at h <;> cases h <;> exact hc

theorem Shared.record_finished (m : Shared Thr Sto) (f : Frame Thr Sto) (op : Nat) :
    (m.record f).finished op ≤ m.finished op + if f.op = some op then 1 else 0 := by
  have hc : (f.call m).toList.countP (fun c => c.op = some op) ≤
      if f.op = some op then 1 else 0 := by
    cases h : f.call m with
    | none => exact Nat.zero_le _
    | some c =>
      by_cases hop : c.op = some op
      · simp [hop, Frame.call_op h hop]
      · simp [hop]
  rw [Shared.finished, Shared.record, List.countP_append, Nat.add_comm]
  exact Nat.add_le_add_left hc _

/-- An attempt of `rcu` hands the operation back to its call. -/
theorem Called.handed {f g g' : Frame Thr Sto} (hc : Called f g) (hv : f.result = some v)
    (hg : g.resume m v = some g') : g'.op = g.op ∨
      ∃ op S cur arg res, g = .rcu op S (.cas cur arg res) ∧ f.op = some op ∧ g'.op = some op := by
  have ha := hc.resolve_left (Frame.result_ne_panic hv)
  unfold Frame.resume at hg
  split at hg <;> cases hg
  case h_8 op S cur arg res prev =>
    refine .inr ⟨op, S, cur, arg, res, rfl, ?_, rfl⟩
    cases f with
    | cas => cases ha; rfl
    | intoInner src => cases src <;> cases ha
    | _ => cases ha
  all_goals exact .inl rfl

variable [DecidableEq Thr]

theorem retStep_running (hst : Stacked st) (hs : retStep m st = some (m', st')) (op : Nat) :
    m'.nextOp = m.nextOp ∧ running st' op + m'.finished op ≤ running st op + m.finished op := by
  obtain ⟨f, v, rest, rfl, hv, ⟨rfl, rfl, _⟩ | ⟨g, g', rest', rfl, hg, rfl, rfl⟩⟩ := retStep_cases hs
  · have hr := m.record_finished f op
    have hg : ((m.record f).give v).nextOp = m.nextOp ∧
        ((m.record f).give v).finished op = (m.record f).finished op := by
      cases v <;> exact ⟨rfl, rfl⟩
    rw [hg.2, running_cons]
    exact ⟨hg.1, by omega⟩
  · refine ⟨by rw [Shared.recordFor_eq], ?_⟩
    simp only [running_cons]
    rcases (List.isChain_cons_cons.1 hst.called).1.handed hv hg with
      ho | ⟨op', S, cur, arg, res, rfl, hf, ho⟩
    · have hr : (m.recordFor g f).finished op ≤ m.finished op + if f.op = some op then 1 else 0 := by
        unfold Shared.recordFor
        split
        · exact Nat.le_add_right ..
        · exact m.record_finished f op
      rw [ho]
      omega
    · rw [ho, hf]
      show running rest' op + _ + m.finished op ≤ _
      omega

variable [DecidableEq Sto]

theorem Frame.step_running (cfg : Config Thr Sto) (t : Thr) {f : Frame Thr Sto}
    (hs : f.step cfg t m sp = some (m', pre)) (op : Nat) : running pre op = running [f] op := by
  have ho := (Frame.step_outcome hs).2
  cases f with
  | user => cases hs
  | panic => cases hs
  | load | payAll | guardDrop | discard => exact running_auxiliary (ho.auxiliary ⟨rfl, by simp [Frame.callee]⟩)
  | intoInner src =>
    exact running_auxiliary (ho.auxiliary ⟨rfl, by cases src <;> simp [Frame.callee]⟩)
  | swap op' S new pc =>
    cases pc with
    | start =>
      simp only [Frame.step, swapStep, Option.map_eq_some_iff] at hs
      obtain ⟨old, _, he⟩ := hs
      cases he
      simp [Frame.op]
    | await => cases hs
    | done => cases hs
  | cas op' S current new dst pc =>
    cases pc with
    | retry =>
      cases hs
      simp [Frame.op]
    | exchange old =>
      simp only [Frame.step, casStep, Option.map_eq_some_iff] at hs
      obtain ⟨ptr, _, he⟩ := hs
      split at he <;> cases he <;> simp [Frame.op]
    | dec old u =>
      simp only [Frame.step, casStep, Option.some.injEq] at hs
      exact release_running hs op
    | dropNew old =>
      simp only [Frame.step, casStep, Option.some.injEq] at hs
      exact release_running hs op
    | _ => cases hs
  | rcu op' S pc =>
    cases pc with
    | compare cur prev arg res =>
      simp only [Frame.step, rcuStep] at hs
      split at hs <;> cases hs <;> simp [Frame.op]
    | release cur ret arg res =>
      cases hs
      simp [Frame.op]
    | _ => cases hs

theorem userStep_running (hs : userStep m free st act = some (m', st')) (op : Nat) :
    m.nextOp ≤ m'.nextOp ∧ running st' op + m'.finished op ≤
      running st op + m.finished op + if m.nextOp ≤ op ∧ op < m'.nextOp then 1 else 0 := by
  have hm := (userStep_cases hs).2
  have hw := userStep_write hs
  have hc : m'.calls = m.calls ∧ m.nextOp ≤ m'.nextOp := by
    clear hm hs
    cases hw with
    | same _ _ _ hc hn => exact ⟨hc, hn⟩
    | alloc h =>
      rw [allocate_eq h]
      exact ⟨rfl, Nat.le_refl _⟩
    | create _ h =>
      rw [takeHandle_eq h]
      exact ⟨rfl, Nat.le_succ _⟩
    | remove => exact ⟨rfl, Nat.le_succ _⟩
  refine ⟨hc.2, ?_⟩
  have hfin : m'.finished op = m.finished op := by rw [Shared.finished, hc.1, ← Shared.finished]
  have begins : ∀ {f : Frame Thr Sto} {op'}, m.Begins m' op' → f.op = some op' →
      (if f.op = some op then 1 else 0) ≤ if m.nextOp ≤ op ∧ op < m'.nextOp then 1 else 0 := by
    rintro f _ ⟨rfl, hn⟩ hf
    rw [hf, hn]
    split
    · rename_i he
      cases he
      rw [if_pos (by omega)]
    · exact Nat.zero_le _
  have entry : ∀ {f : Frame Thr Sto}, f.Entry m m' →
      (if f.op = some op then 1 else 0) ≤ if m.nextOp ≤ op ∧ op < m'.nextOp then 1 else 0 := by
    intro f hf
    unfold Frame.Entry at hf
    split at hf
    case h_6 => exact begins hf rfl
    case h_7 => exact begins hf.1 rfl
    case h_8 => exact hf.elim
    all_goals simp [Frame.op]
  have outer : ∀ {f : Frame Thr Sto}, f.Outer m m' →
      (if f.op = some op then 1 else 0) ≤ if m.nextOp ≤ op ∧ op < m'.nextOp then 1 else 0 := by
    intro f hf
    unfold Frame.Outer at hf
    split at hf
    · simp [Frame.op]
    · exact begins hf rfl
    · exact hf.elim
  rw [hfin]
  clear hs hw
  cases hm with
  | stay => exact Nat.le_add_right ..
  | enter hf =>
    have he := entry hf
    rw [running_cons]
    omega
  | call hf hg ho =>
    have he := entry hf
    have hge := outer hg
    simp only [running_cons]
    rcases ho with rfl | ⟨S, since, rfl⟩
    · rw [show (Frame.discard .await : Frame Thr Sto).op = none from rfl]
      simp only [reduceCtorEq, if_false]
      omega
    · rw [show (Frame.load S since false .enter : Frame Thr Sto).op = none from rfl]
      simp only [reduceCtorEq, if_false]
      omega
  | closure => simp [Frame.op, Nat.add_assoc, Nat.add_comm]
  | ret =>
    simp only [running_cons]
    omega

theorem threadStep_running (hst : Stacked st) (hs : threadStep cfg t m free st act = some (m', st'))
    (op : Nat) : m.nextOp ≤ m'.nextOp ∧ running st' op + m'.finished op ≤
      running st op + m.finished op + if m.nextOp ≤ op ∧ op < m'.nextOp then 1 else 0 := by
  rcases threadStep_cases hs with ⟨sp, f, rest, pre, _, rfl, hf, rfl⟩ | ⟨_, h⟩ | ⟨_, h, rfl⟩ | ⟨_, h⟩
  · have hrun := Frame.step_running cfg t hf op
    have hm : m'.nextOp = m.nextOp ∧ m'.calls = m.calls := by
      rcases (Frame.step_cases cfg t hf).internal_or_write with hi | hw
      · exact ⟨hi.nextOp, hi.calls⟩
      · cases hw <;> exact ⟨rfl, rfl⟩
    refine ⟨hm.1.ge, ?_⟩
    rw [running_append, hrun, Shared.finished, hm.2, ← Shared.finished, ← running_append]
    exact Nat.le_add_right ..
  · have hr := retStep_running hst h op
    exact ⟨hr.1.ge, Nat.le_trans hr.2 (Nat.le_add_right ..)⟩
  · rw [claimStep] at h
    split at h <;> cases h
    exact ⟨Nat.le_refl _, Nat.le_add_right ..⟩
  · exact userStep_running h op

variable {σ σ' : State Thr Sto} {cfg : Config Thr Sto} [Fintype Thr]

def State.begun (σ : State Thr Sto) (op : Nat) : Nat :=
  ∑ t, running (σ.stack t) op + σ.mem.finished op

theorem State.step_begun (hst : ∀ t, Stacked (σ.stack t)) (hs : State.step cfg l σ = some σ')
    (op : Nat) : σ.mem.nextOp ≤ σ'.mem.nextOp ∧ σ'.begun op ≤
      σ.begun op + if σ.mem.nextOp ≤ op ∧ op < σ'.mem.nextOp then 1 else 0 := by
  obtain ⟨m', st', ht, rfl⟩ := State.step_cases hs
  have h := threadStep_running (hst l.1) ht op
  have hsum := Concurrent.sum_update_add σ.stack (fun st => running st op) l.1 st'
  refine ⟨h.1, ?_⟩
  simp only [State.begun]
  omega

theorem begun_le (hr : (machine cfg).Reach ok σ) (op : Nat) :
    σ.begun op ≤ if op < σ.mem.nextOp then 1 else 0 := by
  refine hr.invariant_of (Q := fun σ => ∀ t, Stacked (σ.stack t))
    (P := fun σ => σ.begun op ≤ if op < σ.mem.nextOp then 1 else 0)
    (fun _ hr t => Stacked.reach hr t) ?_ ?_
  · rintro _ rfl
    simp [State.begun, State.initial, Shared.finished]
  · intro l σ σ' hst hP _ hs
    have h := State.step_begun hst hs op
    split at hP <;> split at h <;> split <;> omega

end ArcSwap
