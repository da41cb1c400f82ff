import ArcSwap.Run
import Mathlib.Data.List.Chain

namespace ArcSwap
set_option autoImplicit true

/-- What an activation is to its caller. -/
inductive Callee (Sto : Type)
  | user
  | load (S : Sto) (since : Stamp) (full : Bool)
  | inner (ptr : Nat)
  | drop
  | payAll (ptr : Nat) (S : Sto)
  | swap
  | discard
  | cas (op : Nat) (S : Sto) (current : Nat) (dst : Obj)
  | rcu

variable {Thr Sto : Type}

def Frame.callee : Frame Thr Sto → Callee Sto
  | .user | .panic => .user
  | .load S since full _ => .load S since full
  | .intoInner (some (S, since)) _ _ => .load S since true
  | .intoInner none g _ => .inner g.ptr
  | .guardDrop _ _ => .drop
  | .payAll ptr S _ => .payAll ptr S
  | .swap _ _ _ _ => .swap
  | .discard _ => .discard
  | .cas op S current _ dst _ => .cas op S current dst
  | .rcu _ _ _ => .rcu

/-- What an activation waits for. User code may have called anything, and a destructor may run
once a reference has been released. -/
def Frame.Awaits : Frame Thr Sto → Callee Sto → Prop
  | .user, _ | .panic, _ | .rcu _ _ (.closure _ _), _ => True
  | .payAll _ S (.help _ _ (.await _ since)), c => c = .load S since true
  | .swap _ S _ (.await old _), c => c = .payAll old S
  | .discard .await, c => c = .swap ∨ ∃ ptr S, c = .payAll ptr S
  | .cas _ S _ _ _ .load, c => ∃ since, c = .load S since false
  | .cas _ S _ _ _ (.pay old _), c => c = .payAll old.ptr S
  | .cas _ _ _ _ _ .drop, c => c = .drop
  | .rcu _ S .load, c => ∃ since, c = .load S since false
  | .rcu op S (.cas cur _ res), c => c = .cas op S cur.ptr res
  | .rcu _ _ (.inner cur _ _), c => c = .inner cur.ptr
  | .rcu _ _ (.dropCur _ _ _), c | .rcu _ _ (.dropOld _), c => c = .drop
  | .load _ _ _ (.done _), c | .intoInner _ _ .done, c | .guardDrop _ .done, c
  | .payAll _ _ .done, c | .payAll _ _ (.slot _ _ _), c | .payAll _ _ (.help _ _ (.addr _)), c
  | .discard .done, c | .cas _ _ _ _ _ (.done _ _), c => c = .user
  | _, _ => False

/-- The activations that do not wait for another one. An exchange is only tried when the pointer
loaded before is the expected one. -/
def Frame.Ready : Frame Thr Sto → Prop
  | .cas _ _ current _ _ (.exchange old) => old.ptr = current
  | .payAll _ _ (.help _ _ (.await _ _)) => False
  | .swap _ _ _ (.await _ _) => False
  | .discard .await => False
  | .cas _ _ _ _ _ .load | .cas _ _ _ _ _ (.pay _ _) | .cas _ _ _ _ _ .drop => False
  | .rcu _ _ .load | .rcu _ _ (.cas _ _ _) | .rcu _ _ (.inner _ _ _) => False
  | .rcu _ _ (.dropCur _ _ _) | .rcu _ _ (.dropOld _) => False
  | _ => True

def Called (f g : Frame Thr Sto) : Prop := f = .panic ∨ g.Awaits f.callee

theorem Frame.Awaits.ready {g : Frame Thr Sto} (h : g.Awaits .user) : g.Ready := by
  unfold Frame.Awaits at h
  split at h <;> first
    | trivial
    | simp at h

/-- Every activation waits for the one on top of it. -/
structure Stacked (st : List (Frame Thr Sto)) : Prop where
  ready : ∀ f ∈ st.head?, f.Ready
  called : st.IsChain Called

theorem Called.of_callee {f f' g : Frame Thr Sto} (h : Called f g) (hf : f ≠ .panic)
    (hc : f' = .panic ∨ f'.callee = f.callee) : Called f' g := by
  rcases hc with rfl | hc
  · exact .inl rfl
  · exact .inr (hc ▸ h.resolve_left hf)

/-- The calls the library makes on its own account; the others begin operations of user code. -/
def Callee.Inner : Callee Sto → Prop
  | .swap | .discard | .cas _ _ _ _ | .rcu => False
  | _ => True

/-- A step goes on with the same call, perhaps on top of it with a new one. -/
inductive Outcome (f : Frame Thr Sto) : List (Frame Thr Sto) → Prop
  | goto (hr : f'.Ready) (hc : f' = .panic ∨ f'.callee = f.callee) : Outcome f [f']
  | call (hr : g.Ready) (hi : g.callee.Inner) (ha : f'.Awaits g.callee)
    (hc : f' = .panic ∨ f'.callee = f.callee) : Outcome f [g, f']

theorem Stacked.replace {f : Frame Thr Sto} (h : Stacked (f :: rest)) (hf : f ≠ .panic)
    (ho : Outcome f pre) : Stacked (pre ++ rest) := by
  have below : ∀ f', f' = .panic ∨ f'.callee = f.callee → List.IsChain Called (f' :: rest) := by
    intro f' hc
    cases rest with
    | nil => exact .singleton _
    | cons g rest =>
      rw [List.isChain_cons_cons]
      have hg := List.isChain_cons_cons.1 h.called
      exact ⟨hg.1.of_callee hf hc, hg.2⟩
  cases ho with
  | goto hr hc => exact ⟨by simpa using hr, below _ hc⟩
  | call hr _ ha hc =>
    exact ⟨by simpa using hr, List.isChain_cons_cons.2 ⟨.inr ha, below _ hc⟩⟩

variable {m m' : Shared Thr Sto} {pre rest st st' : List (Frame Thr Sto)}

theorem Outcome.release {f : Frame Thr Sto} (f' : Frame Thr Sto) (hr : f'.Ready) (ha : f'.Awaits .user)
    (hc : f' = .panic ∨ f'.callee = f.callee) (hs : release m a f' = (m', pre)) :
    Outcome f pre := by
  obtain ⟨_, rfl⟩ := Prod.mk.inj hs
  split
  · exact .call trivial trivial ha hc
  · exact .goto hr hc

theorem helpNext_ready (n : Thr) (todo : List Thr) (control : Nat) (ptr : Nat) (S : Sto) :
    let f := (helpNext n todo control).elim .panic (Frame.payAll ptr S)
    f.Ready ∧ f.Awaits .user ∧ (f = .panic ∨ f.callee = .payAll ptr S) := by
  simp only [helpNext]
  split
  · split
    · exact ⟨trivial, rfl, .inr rfl⟩
    · exact ⟨trivial, trivial, .inl rfl⟩
  · exact ⟨trivial, rfl, .inr rfl⟩
  · exact ⟨trivial, rfl, .inr rfl⟩
  · exact ⟨trivial, trivial, .inl rfl⟩

theorem intoInner_callee (src : Option (Sto × Stamp)) (g : Guard Thr) (pc pc' : InnerPc Thr) :
    (Frame.intoInner src g pc).callee = (Frame.intoInner src g pc').callee := by
  cases src <;> rfl

theorem Frame.resume_callee {g g' : Frame Thr Sto} (h : g.resume m v = some g') :
    g'.Ready ∧ g'.callee = g.callee ∧ g ≠ .panic := by
  unfold Frame.resume at h
  split at h <;> cases h <;> refine ⟨?_, rfl, by simp⟩
  all_goals first
    | trivial
    | split
      · assumption
      · trivial

/-- The result a call ends with. -/
def Callee.Gives : Callee Sto → Ret Thr → Prop
  | .user, _ => False
  | .load _ _ false, v | .cas _ _ _ _, v => ∃ g, v = .guard g
  | .load _ _ true, v | .swap, v | .rcu, v => ∃ a, v = .handle a
  | .inner ptr, v | .payAll ptr _, v => v = .handle ptr
  | .drop, v | .discard, v => v = .unit

theorem Frame.result_gives {f : Frame Thr Sto} (h : f.result = some v) : f.callee.Gives v := by
  unfold Frame.result at h
  split at h <;> cases h
  · exact ⟨_, rfl⟩
  · rename_i src g
    cases src
    · rfl
    · exact ⟨_, rfl⟩
  · rfl
  · rfl
  · exact ⟨_, rfl⟩
  · rfl
  · exact ⟨_, rfl⟩
  · exact ⟨_, rfl⟩

theorem Frame.result_ne_panic {f : Frame Thr Sto} (h : f.result = some v) : f ≠ .panic := by
  rintro rfl
  cases h

theorem Stacked.tail {f : Frame Thr Sto} (h : Stacked (f :: rest)) : rest.IsChain Called := by
  cases rest with
  | nil => exact .nil
  | cons g rest => exact (List.isChain_cons_cons.1 h.called).2

theorem Stacked.enter (h : Stacked st) (hu : atUser st = true) (f : Frame Thr Sto) :
    List.IsChain Called (f :: st) := by
  match st, hu with
  | [], _ => exact .singleton _
  | .user :: rest, _ => exact List.isChain_cons_cons.2 ⟨.inr trivial, h.called⟩
  | .rcu _ _ (.closure _ _) :: rest, _ => exact List.isChain_cons_cons.2 ⟨.inr trivial, h.called⟩

theorem Called.ready {f g : Frame Thr Sto} (h : Called f g) (hv : f.result = some v)
    (hr : g.resume m v = none) : g.Ready := by
  have ha := h.resolve_left (Frame.result_ne_panic hv)
  have hg := Frame.result_gives hv
  cases g with
  | payAll ptr S pc =>
    cases pc with
    | help n todo hp =>
      cases hp with
      | await control since =>
        rw [show f.callee = _ from ha] at hg
        obtain ⟨a, rfl⟩ := hg
        cases hr
      | _ => trivial
    | _ => trivial
  | swap op S new pc =>
    cases pc with
    | await old u =>
      rw [show f.callee = _ from ha] at hg
      cases hg
      cases hr
    | _ => trivial
  | discard pc =>
    cases pc with
    | await =>
      rcases ha with ha | ⟨ptr, S, ha⟩
      · rw [ha] at hg
        obtain ⟨a, rfl⟩ := hg
        cases hr
      · rw [ha] at hg
        cases hg
        cases hr
    | _ => trivial
  | cas op S current new dst pc =>
    cases pc with
    | load =>
      obtain ⟨since, ha⟩ := ha
      rw [ha] at hg
      obtain ⟨a, rfl⟩ := hg
      cases hr
    | pay old u =>
      rw [show f.callee = _ from ha] at hg
      cases hg
      cases hr
    | drop =>
      rw [show f.callee = _ from ha] at hg
      cases hg
      cases hr
    | _ => trivial
  | rcu op S pc =>
    cases pc with
    | load =>
      obtain ⟨since, ha⟩ := ha
      rw [ha] at hg
      obtain ⟨a, rfl⟩ := hg
      cases hr
    | cas cur arg res =>
      rw [show f.callee = _ from ha] at hg
      obtain ⟨a, rfl⟩ := hg
      cases hr
    | inner cur arg res =>
      rw [show f.callee = _ from ha] at hg
      cases hg
      cases hr
    | dropCur ret arg res =>
      rw [show f.callee = _ from ha] at hg
      cases hg
      cases hr
    | dropOld prev =>
      rw [show f.callee = _ from ha] at hg
      cases hg
      cases hr
    | _ => trivial
  | _ => trivial

variable [DecidableEq Thr]

theorem loadStep_outcome (cfg : Config Thr Sto) (t : Thr)
    (hs : loadStep cfg t m S (.load S since full) pc = some (m', pre)) :
    Outcome (.load S since full pc) pre := by
  have goto : ∀ pc', Outcome (.load S since full pc) [.load S since full pc'] :=
    fun pc' => .goto trivial (.inr rfl)
  have panic : Outcome (Frame.load S since full pc) [Frame.panic] := .goto trivial (.inl rfl)
  cases pc with
  | dec c =>
    simp only [loadStep, Option.some.injEq] at hs
    exact .release (.load S since full (.done ⟨none, c⟩)) trivial rfl (.inr rfl) hs
  | decUnused c r =>
    simp only [loadStep, Option.some.injEq] at hs
    exact .release (.load S since full (.done ⟨none, r⟩)) trivial rfl (.inr rfl) hs
  | first | candidate | confirm =>
    simp only [loadStep, Option.map_eq_some_iff] at hs
    obtain ⟨p, _, he⟩ := hs
    cases he
    first
    | exact goto _
    | split
      · exact goto _
      · exact panic
  | enter | repay | pay | repayUnused | setAddr =>
    simp only [loadStep] at hs
    split at hs <;> cases hs <;> first | exact goto _ | exact panic
  | cooldown =>
    cases hs
    split
    · exact goto _
    · exact panic
  | done => cases hs
  | _ =>
    cases hs
    exact goto _

theorem Stacked.retStep (h : Stacked st) (hs : retStep m st = some (m', st')) : Stacked st' := by
  obtain ⟨f, v, rest, rfl, hv, ⟨rfl, rfl, hr⟩ | ⟨g, g', rest', rfl, hg, rfl, rfl⟩⟩ :=
    retStep_cases hs
  · refine ⟨?_, h.tail⟩
    intro g hg
    cases st' with
    | nil => cases hg
    | cons g' rest =>
      cases hg
      exact (List.isChain_cons_cons.1 h.called).1.ready hv (hr g rfl)
  · obtain ⟨hr, hc, hp⟩ := Frame.resume_callee hg
    refine ⟨by simpa using hr, ?_⟩
    cases rest' with
    | nil => exact .singleton _
    | cons k rest' =>
      have ht := List.isChain_cons_cons.1 h.tail
      exact List.isChain_cons_cons.2 ⟨ht.1.of_callee hp (.inr hc), ht.2⟩

variable [DecidableEq Sto]

theorem payStep_outcome (hs : payStep t m ptr S (.payAll ptr S) pc = some (m', pre)) :
    Outcome (.payAll ptr S pc) pre := by
  have next : ∀ n todo control,
      Outcome (Frame.payAll ptr S pc) [(helpNext n todo control).elim .panic (.payAll ptr S)] := by
    intro n todo control
    obtain ⟨hr, _, hc⟩ := helpNext_ready n todo control ptr S
    exact .goto hr hc
  have panic : Outcome (Frame.payAll ptr S pc) [Frame.panic] := .goto trivial (.inl rfl)
  have slots : ∀ n todo j, Outcome (.payAll ptr S pc) [.payAll ptr S (nextSlot n todo j)] := by
    intro n todo j
    refine .goto ?_ (.inr rfl)
    rw [nextSlot]
    split <;> trivial
  cases pc with
  | start =>
    simp only [payStep] at hs
    split at hs <;> cases hs
    exact .goto trivial (.inr rfl)
  | next todo =>
    cases todo <;> cases hs <;> exact .goto trivial (.inr rfl)
  | help n todo h =>
    cases h with
    | load =>
      cases hs
      split
      · exact next n todo _
      · exact panic
    | addr v =>
      simp only [payStep, helpStep] at hs
      split at hs <;> cases hs
      · exact .call trivial trivial rfl (.inr rfl)
      · exact .goto trivial (.inr rfl)
    | recheck v =>
      cases hs
      split
      · exact .goto trivial (.inr rfl)
      · exact next n todo _
    | write v since r their mine =>
      cases hs
      split
      · exact .goto trivial (.inr rfl)
      · exact panic
    | exchange v since r their mine =>
      simp only [payStep, helpStep] at hs
      split at hs <;> cases hs <;> exact .goto trivial (.inr rfl)
    | drop v r =>
      simp only [payStep, helpStep, Option.some.injEq] at hs
      obtain ⟨hr, ha, hc⟩ := helpNext_ready n todo v ptr S
      exact .release _ hr ha hc hs
    | await => cases hs
    | _ =>
      cases hs
      exact .goto trivial (.inr rfl)
  | slot n todo j =>
    simp only [payStep] at hs
    split at hs <;> cases hs
    · exact .goto trivial (.inr rfl)
    · exact slots n todo j
  | inc n todo j =>
    cases hs
    exact slots n todo j
  | dec =>
    simp only [payStep, Option.some.injEq] at hs
    exact .release (.payAll ptr S .done) trivial rfl (.inr rfl) hs
  | done => cases hs
  | _ =>
    cases hs
    exact .goto trivial (.inr rfl)

theorem Frame.step_outcome {f : Frame Thr Sto} (hs : f.step cfg t m sp = some (m', pre)) :
    f ≠ .panic ∧ Outcome f pre := by
  cases f with
  | user => cases hs
  | panic => cases hs
  | load S since full pc =>
    refine ⟨by simp, ?_⟩
    rcases Frame.step_load hs with ⟨g, rfl, rfl, rfl, rfl⟩ | hs
    · exact .goto trivial (.inr rfl)
    · exact loadStep_outcome cfg t hs
  | intoInner src g pc =>
    refine ⟨by simp, ?_⟩
    have hc := fun pc' => intoInner_callee src g pc' pc
    cases pc with
    | start =>
      simp only [Frame.step, innerStep] at hs
      split at hs <;> cases hs <;> exact .goto trivial (.inr (hc _))
    | pay d =>
      simp only [Frame.step, innerStep] at hs
      split at hs <;> cases hs <;> exact .goto trivial (.inr (hc _))
    | dec =>
      simp only [Frame.step, innerStep, Option.some.injEq] at hs
      exact .release (.intoInner src g .done) trivial rfl (.inr (hc _)) hs
    | done => cases hs
  | guardDrop g pc =>
    refine ⟨by simp, ?_⟩
    cases pc with
    | start =>
      simp only [Frame.step, dropStep] at hs
      split at hs
      · cases hs
        exact .goto trivial (.inr rfl)
      · split at hs <;> cases hs <;> exact .goto trivial (.inr rfl)
    | dec =>
      simp only [Frame.step, dropStep, Option.some.injEq] at hs
      exact .release (.guardDrop g .done) trivial rfl (.inr rfl) hs
    | done => cases hs
  | payAll ptr S pc => exact ⟨by simp, payStep_outcome hs⟩
  | swap op S new pc =>
    refine ⟨by simp, ?_⟩
    cases pc with
    | start =>
      simp only [Frame.step, swapStep, Option.map_eq_some_iff] at hs
      obtain ⟨old, _, he⟩ := hs
      cases he
      exact .call trivial trivial rfl (.inr rfl)
    | await => cases hs
    | done => cases hs
  | discard pc =>
    refine ⟨by simp, ?_⟩
    cases pc with
    | await => cases hs
    | dec a =>
      simp only [Frame.step, discardStep, Option.some.injEq] at hs
      exact .release (.discard .done) trivial rfl (.inr rfl) hs
    | done => cases hs
  | cas op S current new dst pc =>
    refine ⟨by simp, ?_⟩
    cases pc with
    | retry =>
      cases hs
      exact .call trivial trivial ⟨_, rfl⟩ (.inr rfl)
    | exchange old =>
      simp only [Frame.step, casStep, Option.map_eq_some_iff] at hs
      obtain ⟨ptr, _, he⟩ := hs
      split at he <;> cases he
      · exact .call trivial trivial rfl (.inr rfl)
      · exact .call trivial trivial rfl (.inr rfl)
    | dec old u =>
      simp only [Frame.step, casStep, Option.some.injEq] at hs
      exact .release (.cas op S current new dst (.done old (some u))) trivial rfl (.inr rfl) hs
    | dropNew old =>
      simp only [Frame.step, casStep, Option.some.injEq] at hs
      exact .release (.cas op S current new dst (.done old none)) trivial rfl (.inr rfl) hs
    | _ => cases hs
  | rcu op S pc =>
    refine ⟨by simp, ?_⟩
    cases pc with
    | compare cur prev arg res =>
      simp only [Frame.step, rcuStep] at hs
      split at hs <;> cases hs
      · rename_i he
        refine .call trivial trivial ?_ (.inr rfl)
        rw [Frame.callee, ← he]
        rfl
      · exact .call trivial trivial rfl (.inr rfl)
    | release cur ret arg res =>
      cases hs
      exact .call trivial trivial rfl (.inr rfl)
    | _ => cases hs

theorem Stacked.userStep (h : Stacked st) (hu : atUser st = true)
    (hs : userStep m free st act = some (m', st')) : Stacked st' := by
  have push : ∀ f : Frame Thr Sto, f.Ready → Stacked (f :: st) :=
    fun f hf => ⟨by simpa using hf, h.enter hu f⟩
  have push₂ : ∀ f g : Frame Thr Sto, f.Ready → g.Awaits f.callee → Stacked (f :: g :: st) :=
    fun f g hf ha => ⟨by simpa using hf, List.isChain_cons_cons.2 ⟨.inr ha, h.enter hu g⟩⟩
  cases act with
  | alloc | dropHandle | load | loadFull | guardDrop | guardIntoInner | guardFromInner =>
    simp only [ArcSwap.userStep, Option.map_eq_some_iff] at hs
    obtain ⟨_, _, he⟩ := hs
    cases he
    first
    | exact h
    | exact push _ trivial
  | clone | cloneGuard =>
    simp only [ArcSwap.userStep] at hs
    split at hs <;> cases hs
    exact h
  | cloneCur =>
    simp only [ArcSwap.userStep] at hs
    split at hs <;> cases hs
    exact h
  | create | intoInner | dropStorage =>
    simp only [ArcSwap.userStep] at hs
    split at hs
    · simp only [Option.map_eq_some_iff] at hs
      obtain ⟨_, _, he⟩ := hs
      cases he
      first
      | exact h
      | exact push _ trivial
      | exact push₂ _ _ trivial (.inr ⟨_, _, rfl⟩)
    · cases hs
  | swap | store | cas =>
    simp only [ArcSwap.userStep, Option.bind_eq_some_iff, Option.map_eq_some_iff] at hs
    obtain ⟨_, _, _, _, he⟩ := hs
    cases he
    first
    | exact push _ trivial
    | exact push₂ _ _ trivial (.inl rfl)
  | rcu S =>
    simp only [ArcSwap.userStep, Option.map_eq_some_iff] at hs
    obtain ⟨_, _, he⟩ := hs
    cases he
    exact push₂ _ _ trivial ⟨_, rfl⟩
  | closureRet new =>
    simp only [ArcSwap.userStep, closureStep] at hs
    split at hs
    · rename_i op S cur arg rest
      simp only [Option.map_eq_some_iff] at hs
      obtain ⟨_, _, he⟩ := hs
      cases he
      refine ⟨by simp [Frame.Ready], List.isChain_cons_cons.2 ⟨.inr rfl, ?_⟩⟩
      cases rest with
      | nil => exact .singleton _
      | cons k rest =>
        have hc := List.isChain_cons_cons.1 h.called
        exact List.isChain_cons_cons.2 ⟨hc.1.of_callee (by simp) (.inr rfl), hc.2⟩
    · cases hs
  | userRet =>
    simp only [ArcSwap.userStep] at hs
    split at hs
    · cases hs
      refine ⟨?_, h.tail⟩
      intro g hg
      cases st' with
      | nil => cases hg
      | cons g' rest =>
        cases hg
        have ha := (List.isChain_cons_cons.1 h.called).1.resolve_left (by simp)
        exact Frame.Awaits.ready ha
    · cases hs
  | run => cases hs
  | ret => cases hs
  | claim => cases hs

variable {cfg : Config Thr Sto} {σ : State Thr Sto} [Fintype Thr]

theorem Stacked.reach (h : (machine cfg).Reach ok σ) (t : Thr) : Stacked (σ.stack t) := by
  induction h with
  | init h =>
    cases h
    exact ⟨by simp [State.initial], .nil⟩
  | @step σ l σ' hr ha hs ih =>
    obtain ⟨m', st', hts, rfl⟩ := State.step_cases hs
    by_cases ht : t = l.1
    · subst ht
      simp only [Function.update_self]
      rcases threadStep_cases hts with ⟨sp, f, rest, pre, _, hst, hf, rfl⟩ | ⟨_, hr⟩ |
        ⟨_, _, rfl⟩ | ⟨hu, hr⟩
      · rw [hst] at ih
        obtain ⟨hp, ho⟩ := Frame.step_outcome hf
        exact ih.replace hp ho
      · exact ih.retStep hr
      · exact ih
      · exact ih.userStep hu hr
    · simpa [ht] using ih

end ArcSwap
