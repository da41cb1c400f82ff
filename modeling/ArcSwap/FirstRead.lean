import ArcSwap.LoadHistory
import ArcSwap.Activation

namespace ArcSwap
set_option autoImplicit true

variable {Thr Sto : Type} {x : Obj}

/-- The first read of a load is over, and was of `x` if the load is still in its fast path. -/
def LoadPc.Read (x : Obj) : LoadPc Thr → Prop
  | .enter | .first => False
  | .scan p e _ | .take p e _ | .confirm p e _ | .repay p e _ => (p, e) = x
  | _ => True

def Frame.Read (x : Obj) : Frame Thr Sto → Prop
  | .load _ _ _ pc => pc.Read x
  | .intoInner _ _ _ | .panic => True
  | _ => False

section Steps

variable {m m' : Shared Thr Sto} {pre : List (Frame Thr Sto)}

theorem Frame.Read.one {f : Frame Thr Sto} (h : f.Read x) :
    ∃ above g, [f] = above ++ [g] ∧ g.Read x :=
  ⟨[], f, rfl, h⟩

theorem Frame.Read.release {f : Frame Thr Sto} (h : f.Read x)
    (hs : release m a f = (m', pre)) : ∃ above g, pre = above ++ [g] ∧ g.Read x := by
  obtain ⟨_, rfl⟩ := Prod.mk.inj hs
  split
  · exact ⟨[.user], f, rfl, h⟩
  · exact h.one

variable [DecidableEq Thr]

theorem loadStep_read (cfg : Config Thr Sto) {pc : LoadPc Thr} (h : pc.Read x)
    (hs : loadStep cfg t m S (.load S since full) pc = some (m', pre)) :
    ∃ above f, pre = above ++ [f] ∧ f.Read x := by
  cases pc with
  | enter => exact h.elim
  | first => exact h.elim
  | scan p e i =>
    cases hs
    apply Frame.Read.one
    split
    · exact h
    · split
      · exact h
      · exact trivial
  | take p e d =>
    cases hs
    exact Frame.Read.one h
  | confirm p e d =>
    simp only [loadStep, Option.map_eq_some_iff] at hs
    obtain ⟨q, _, he⟩ := hs
    cases he
    apply Frame.Read.one
    split
    · exact trivial
    · exact h
  | repay | setAddr | pay | repayUnused =>
    simp only [loadStep] at hs
    split at hs <;> cases hs <;> exact Frame.Read.one trivial
  | setControl gen discard =>
    cases hs
    apply Frame.Read.one
    split <;> exact trivial
  | cooldown gen =>
    cases hs
    apply Frame.Read.one
    split <;> exact trivial
  | candidate gen =>
    simp only [loadStep, Option.map_eq_some_iff] at hs
    obtain ⟨c, _, he⟩ := hs
    cases he
    apply Frame.Read.one
    split <;> exact trivial
  | setIdle gen c =>
    cases hs
    apply Frame.Read.one
    split <;> exact trivial
  | dec c =>
    exact Frame.Read.release (f := .load S since full (.done ⟨none, c⟩)) trivial (Option.some.inj hs)
  | decUnused c r =>
    exact Frame.Read.release (f := .load S since full (.done ⟨none, r⟩)) trivial (Option.some.inj hs)
  | done g => cases hs
  | _ =>
    cases hs
    exact Frame.Read.one trivial

variable [DecidableEq Sto]

theorem Frame.Read.step {f : Frame Thr Sto} (h : f.Read x)
    (hs : f.step cfg t m sp = some (m', pre)) : ∃ above g, pre = above ++ [g] ∧ g.Read x := by
  cases f with
  | load S since full pc =>
    rcases Frame.step_load hs with ⟨g, rfl, _, _, rfl⟩ | hs
    · exact Frame.Read.one trivial
    · exact loadStep_read cfg h hs
  | intoInner src g pc =>
    cases pc with
    | start | pay =>
      simp only [Frame.step, innerStep] at hs
      split at hs <;> cases hs <;> exact Frame.Read.one trivial
    | dec => exact Frame.Read.release (f := .intoInner src g .done) trivial (Option.some.inj hs)
    | done => cases hs
  | panic => cases hs
  | _ => exact h.elim

end Steps

variable [DecidableEq Thr] [DecidableEq Sto] [Fintype Thr] {s s' s₁ s₂ s₃ : State Thr Sto}
  {rest : List (Frame Thr Sto)} {cfg : Config Thr Sto}

/-- The load above `rest` has read `x` first, or has returned. -/
def Follows (t : Thr) (rest : List (Frame Thr Sto)) (x : Obj) (s : State Thr Sto) : Prop :=
  (s.stack t).length ≤ rest.length ∨ ∃ above f, s.stack t = above ++ f :: rest ∧ f.Read x

theorem Follows.step (hrun : Running t rest.length s) (h : Follows t rest x s)
    (hs : State.step cfg l s = some s') : Follows t rest x s' := by
  obtain ⟨above, f, hst, hf⟩ := h.resolve_left (Nat.not_le_of_lt hrun)
  by_cases hl : l.1 = t
  · obtain ⟨t', act⟩ := l
    obtain rfl : t' = t := hl
    have ht := State.step_own hs
    rw [hst] at ht
    cases above with
    | nil =>
      rcases threadStep_cases ht with ⟨sp, g, below, pre, _, he, hg, hst'⟩ | ⟨_, hret⟩ |
        ⟨_, _, hst'⟩ | ⟨hu, _⟩
      · cases he
        obtain ⟨above, g', rfl, hg'⟩ := hf.step hg
        exact .inr ⟨above, g', by rw [hst', List.append_assoc]; rfl, hg'⟩
      · left
        obtain ⟨g, v, below, he, _, ⟨_, h, _⟩ | ⟨g, g', below', hb, _, _, h⟩⟩ := retStep_cases hret
        · cases he
          rw [h]
        · cases he
          rw [h, hb, List.length_cons, List.length_cons]
      · exact .inr ⟨[], f, hst', hf⟩
      · cases f with
        | user => exact hf.elim
        | rcu => exact hf.elim
        | _ => cases hu
    | cons top above =>
      rcases threadStep_above ht with ⟨above', hst'⟩ | ⟨v, f', _, _, _, hres, _, _⟩
      · exact .inr ⟨above', f, hst', hf⟩
      · cases f <;> first | cases hres | exact hf.elim
  · exact .inr ⟨above, f, (State.step_other hs hl).trans hst, hf⟩

theorem Follows.run (h : Follows t rest x s)
    (htr : (machine cfg).Trace (fun _ s => Running t rest.length s) s tr s') :
    Follows t rest x s' := by
  induction htr with
  | nil => exact h
  | step _ hrun hs ih => exact ih.step hrun hs

theorem Follows.first (hst : s.stack t = .load S since full .first :: rest)
    (hs : State.step cfg (t, .run sp) s = some s₁) :
    ∃ p, s.mem.storage S = some p ∧ Follows t rest (s.mem.objAt p) s₁ := by
  have ht := State.step_own hs
  rw [hst] at ht
  simp only [threadStep, Frame.step, loadStep, Option.map_map, Option.map_eq_some_iff] at ht
  obtain ⟨p, hp, he⟩ := ht
  obtain ⟨_, hst'⟩ := Prod.mk.inj he
  refine ⟨p, hp, .inr ⟨[], _, hst'.symm, ?_⟩⟩
  split
  · exact rfl
  · exact trivial

/-- How many objects are allocated at an address in a run. -/
def allocations (a : Nat) (tr : List (Happened Thr Sto)) : Nat :=
  tr.countP fun e => e.act.2.allocates a

theorem epoch_allocations (htr : (machine cfg).Trace ok s tr s') (a : Nat) :
    s'.mem.epoch a = s.mem.epoch a + allocations a tr := by
  induction htr with
  | nil => rfl
  | step _ _ hs ih =>
    obtain ⟨m', st', ht, rfl⟩ := State.step_cases hs
    rw [threadStep_allocates ht a, ih, Nat.add_assoc, allocations, allocations, List.countP_cons]

/-- The third branch of `attempt`: what the load has read first and the debt that was paid. -/
theorem third_branch (hst : s.stack t = .load S since full (.repay p e d) :: rest)
    (hd : s.mem.debt d ≠ p) (hs : State.step cfg (t, .run sp) s = some s') :
    s'.stack t = .load S since full (.done ⟨none, p⟩) :: rest ∧ s'.mem = s.mem := by
  have ht := State.step_own hs
  rw [hst] at ht
  simp only [threadStep, Frame.step, loadStep, if_neg hd, Option.map_some, Option.some.injEq,
    Prod.mk.injEq] at ht
  exact ⟨ht.2.symm, ht.1.symm⟩

variable [Fintype Sto]

/-- In a run in which a load keeps what it read first only if no object has come to its address
since, every load returns an object that its storage has held while it was running; and one that
finds its debt paid returns the object it read first. -/
theorem load_returns_held (hr : (machine cfg).Reach FirstReadStays s) :
    (∀ S since till o, .load S since till o ∈ s.mem.calls →
      Concurrent.HeldDuring (s.mem.log S) since.version till.version o) ∧
    ∀ t S since full rest sp sp' s₁ s₂ s₃ tr p e d,
      s.stack t = .load S since full .first :: rest → State.step cfg (t, .run sp) s = some s₁ →
      (machine cfg).Trace (fun _ s => Running t rest.length s) s₁ tr s₂ →
      s₂.stack t = .load S since full (.repay p e d) :: rest → s₂.mem.debt d ≠ p →
      State.step cfg (t, .run sp') s₂ = some s₃ →
      (FirstReadStays (t, .run sp') s₂ ↔ allocations p tr = 0) ∧
      (FirstReadStays (t, .run sp') s₂ →
        s₃.stack t = .load S since full (.done ⟨none, p⟩) :: rest ∧
        s.mem.storage S = some p ∧ s₃.mem.objAt p = s.mem.objAt p) := by
  refine ⟨(Genuine.reach hr).calls, ?_⟩
  intro t S since full rest sp sp' s₁ s₂ s₃ tr p e d hst hs₁ htr hst₂ hd hs₃
  obtain ⟨q, hq, hfollows⟩ := Follows.first hst hs₁
  have hread : (p, e) = s.mem.objAt q := by
    rcases hfollows.run htr with hlen | ⟨above, f, hf, hx⟩
    · rw [hst₂, List.length_cons] at hlen
      omega
    · cases above_unique (x := []) (hst₂.symm.trans hf)
      exact hx
  obtain ⟨rfl, rfl⟩ := Prod.mk.inj hread
  have hcount : s₂.mem.epoch p = s.mem.epoch p + allocations p tr := by
    rw [epoch_allocations htr p]
    obtain ⟨m', st', ht, rfl⟩ := State.step_cases hs₁
    rw [threadStep_allocates ht p]
    rfl
  have hstays : FirstReadStays (t, .run sp') s₂ ↔ s₂.mem.epoch p = s.mem.epoch p := by
    refine ⟨fun h => h S since full p _ d rest hst₂ hd, ?_⟩
    intro he S' since' full' p' e' d' rest' hst' _
    cases hst₂.symm.trans hst'
    exact he
  refine ⟨by rw [hstays]; omega, fun h => ?_⟩
  obtain ⟨hst₃, hm⟩ := third_branch hst₂ hd hs₃
  exact ⟨hst₃, hq, by rw [hm, Shared.objAt, Shared.objAt, hstays.1 h]⟩

/-- A load takes a slot, which a writer pays before the load reads again. -/
def paidBetween (s : State (Fin 2) (Fin 2)) :
    Option (List (Happened (Fin 2) (Fin 2)) × State (Fin 2) (Fin 2)) :=
  (machine (twoThreads true)).record (fun _ s => Running 0 0 s)
    (steps (twoThreads true) 0 2 ++ whole (twoThreads true) 1 (.store 0 24) ++
      steps (twoThreads true) 0 1) [] s

def keepsFirst (tr : List (Happened (Fin 2) (Fin 2))) (s : State (Fin 2) (Fin 2)) : Bool :=
  s.loading 0 = some (0, ⟨1, 0⟩, false, .repay 8 1 (0, 0)) ∧ s.mem.storage 0 = some 24 ∧
    s.mem.debt (0, 0) ≠ 8 ∧ allocations 8 tr = 0 ∧
    (State.step (twoThreads true) (0, .run false) s).isSome

/-- The debt of a load is paid before its second read, while its object is still alive. -/
theorem load_returns_held_paid :
    (∃ σ, (machine (twoThreads true)).Reach FirstReadStays σ ∧ ∃ since till,
      .load 0 since till (8, 1) ∈ σ.mem.calls ∧ σ.mem.storage 0 = some 24 ∧
      Concurrent.HeldDuring (σ.mem.log 0) since.version till.version (8, 1)) ∧
    ∃ s s₁ s₂ s₃ tr, (machine (twoThreads true)).Reach FirstReadStays s ∧
      State.step (twoThreads true) (0, .run false) s = some s₁ ∧
      (machine (twoThreads true)).Trace (fun _ s => Running 0 0 s) s₁ tr s₂ ∧
      s₂.mem.storage 0 = some 24 ∧ s₂.mem.debt (0, 0) ≠ 8 ∧
      State.step (twoThreads true) (0, .run false) s₂ = some s₃ ∧ allocations 8 tr = 0 ∧
      s.mem.storage 0 = some 8 ∧ s₃.mem.objAt 8 = s.mem.objAt 8 := by
  constructor
  · obtain ⟨σ, hr, hp⟩ := reach_after FirstReadStays true
      (prepared ++ [order 0 (.load 0)] ++ steps (twoThreads true) 0 4 ++
        whole (twoThreads true) 1 (.store 0 24) ++ steps (twoThreads true) 0 3)
      (fun σ => σ.mem.storage 0 = some 24 && σ.lastLoad = some (0, (8, 1)))
      (by decide +kernel)
    simp only [Bool.and_eq_true, decide_eq_true_eq] at hp
    obtain ⟨since, till, hmem⟩ := State.lastLoad_mem hp.2
    exact ⟨σ, hr, since, till, hmem, hp.1, (load_returns_held hr).1 _ _ _ _ hmem⟩
  · obtain ⟨s, hr, hp⟩ := reach_after FirstReadStays true
      (prepared ++ [order 0 (.load 0)] ++ steps (twoThreads true) 0 1)
      (fun s => decide (s.loading 0 = some (0, ⟨1, 0⟩, false, .first)) &&
        (State.step (twoThreads true) (0, .run false) s).any fun s₁ =>
          (paidBetween s₁).any fun r => keepsFirst r.1 r.2) (by decide +kernel)
    simp only [Bool.and_eq_true, decide_eq_true_eq, Option.any_eq_true, keepsFirst] at hp
    obtain ⟨hfirst, s₁, hs₁, ⟨tr, s₂⟩, he, hrepay, hS, hd, hnone, hs₃⟩ := hp
    obtain ⟨s₃, hs₃⟩ := Option.isSome_iff_exists.1 hs₃
    have htr := Concurrent.Machine.Trace.record .nil he
    obtain ⟨hiff, hkept⟩ := (load_returns_held hr).2 0 0 _ _ [] _ _ s₁ s₂ s₃ tr 8 1 (0, 0)
      (State.stack_of_loading hfirst) hs₁ htr (State.stack_of_loading hrepay) hd hs₃
    obtain ⟨_, hread, hsame⟩ := hkept (hiff.2 hnone)
    exact ⟨s, s₁, s₂, s₃, tr, hr, hs₁, htr, hS, hd, hs₃, hnone, hread, hsame⟩

/-- A load reads the first object at 8 from its storage. While it is stopped, that object is
destroyed and a second one comes to 8 and to the other storage; its writer pays the debt of the
load for it, and the load returns the second object. -/
theorem load_returns_foreign_object :
    ∃ σ, (machine (twoThreads true)).Reach (fun _ _ => True) σ ∧ ∃ since till,
      .load 0 since till (8, 2) ∈ σ.mem.calls ∧
      ¬ Concurrent.HeldDuring (σ.mem.log 0) since.version till.version (8, 2) := by
  obtain ⟨σ, hr, hp⟩ := reach_after (fun _ _ => True) true
    (prepared ++ [order 0 (.load 0)] ++ steps (twoThreads true) 0 3 ++
      whole (twoThreads true) 1 (.store 0 24) ++ [order 1 (.alloc 8)] ++
      whole (twoThreads true) 1 (.store 1 8) ++ steps (twoThreads true) 0 1 ++
      whole (twoThreads true) 1 (.store 1 32) ++ steps (twoThreads true) 0 3)
    (fun σ => σ.lastLoad = some (0, (8, 2)) && decide (∀ u ∈ σ.mem.log 0, u.new ≠ some (8, 2)))
    (by decide +kernel)
  simp only [Bool.and_eq_true, decide_eq_true_eq] at hp
  obtain ⟨since, till, hmem⟩ := State.lastLoad_mem hp.1
  exact ⟨σ, hr, since, till, hmem, Concurrent.not_heldDuring hp.2⟩

end ArcSwap
