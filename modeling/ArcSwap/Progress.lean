import ArcSwap.Borrow

namespace ArcSwap
set_option autoImplicit true

variable {Thr Sto : Type} {m : Shared Thr Sto} {rest : List (Frame Thr Sto)} [DecidableEq Thr]

theorem NodeOk.claims (hn : NodeOk w m t st) (hp : m.published t ≠ 2)
    (hl : m.localNode t ≠ true) : (claimStep t m).isSome := by
  rw [claimStep, if_neg]
  · rfl
  · exact fun h => (hn.listed.2 h).elim hl hp

variable [DecidableEq Sto]

/-- What the library can do next for a thread whose innermost activation is `f`. -/
def Frame.Advances (cfg : Config Thr Sto) (m : Shared Thr Sto) (t : Thr) (f : Frame Thr Sto) :
    Prop :=
  (f.step cfg t m false).isSome ∨ f.result.isSome ∨ (claimStep t m).isSome

theorem loadStep_advances (cfg : Config Thr Sto)
    (hn : NodeOk w m t (.load S since full pc :: rest)) (hp : m.published t ≠ 2)
    (hS : m.storage S ≠ none) : (Frame.load S since full pc).Advances cfg m t := by
  have stored : ∀ {α : Type} (g : Nat → α), ((m.storage S).map g).isSome := by
    intro α g
    rw [Option.isSome_map]
    exact Option.isSome_iff_ne_none.2 hS
  cases pc with
  | enter =>
    by_cases hl : m.localNode t = true
    · left
      simp [Frame.step, loadStep, hl]
    · exact .inr (.inr (hn.claims hp hl))
  | first => exact .inl (stored _)
  | confirm => exact .inl (stored _)
  | candidate => exact .inl (stored _)
  | repay | setAddr | pay | repayUnused =>
    left
    simp only [Frame.step, loadStep]
    split <;> rfl
  | done g =>
    cases full with
    | true => exact .inl rfl
    | false => exact .inr (.inl rfl)
  | _ => exact .inl rfl

theorem payStep_advances (cfg : Config Thr Sto)
    (hn : NodeOk w m t (.payAll ptr S pc :: rest)) (hp : m.published t ≠ 2)
    (hready : (Frame.payAll ptr S pc).Ready) : (Frame.payAll ptr S pc).Advances cfg m t := by
  cases pc with
  | start =>
    by_cases hl : m.localNode t = true
    · left
      simp [Frame.step, payStep, hl]
    · exact .inr (.inr (hn.claims hp hl))
  | next todo => cases todo <;> exact .inl rfl
  | help n todo h =>
    cases h with
    | addr | exchange =>
      left
      simp only [Frame.step, payStep, helpStep]
      split <;> rfl
    | await => exact hready.elim
    | _ => exact .inl rfl
  | slot =>
    left
    simp only [Frame.step, payStep]
    split <;> rfl
  | done => exact .inr (.inl rfl)
  | _ => exact .inl rfl

theorem Frame.advances (cfg : Config Thr Sto) {f : Frame Thr Sto} (hn : NodeOk w m t (f :: rest))
    (hp : m.published t ≠ 2) (hready : f.Ready) (hb : f.Borrows m) (hpanic : f ≠ .panic) :
    atUser (f :: rest) = true ∨ f.Advances cfg m t := by
  have stored : ∀ {α : Type} {S : Sto} (g : Nat → α), m.storage S ≠ none →
      ((m.storage S).map g).isSome := by
    intro α S g hS
    rw [Option.isSome_map]
    exact Option.isSome_iff_ne_none.2 hS
  cases f with
  | user => exact .inl rfl
  | panic => exact absurd rfl hpanic
  | load S since full pc => exact .inr (loadStep_advances cfg hn hp hb)
  | payAll ptr S pc => exact .inr (payStep_advances cfg hn hp hready)
  | intoInner src g pc =>
    right
    cases pc with
    | start | pay =>
      left
      simp only [Frame.step, innerStep]
      split <;> rfl
    | dec => exact .inl rfl
    | done => exact .inr (.inl rfl)
  | guardDrop g pc =>
    right
    cases pc with
    | start =>
      left
      simp only [Frame.step, dropStep]
      split
      · rfl
      · split <;> rfl
    | dec => exact .inl rfl
    | done => exact .inr (.inl rfl)
  | swap op S new pc =>
    right
    cases pc with
    | start => exact .inl (stored _ hb)
    | await => exact hready.elim
    | done => exact .inr (.inl rfl)
  | discard pc =>
    right
    cases pc with
    | await => exact hready.elim
    | dec => exact .inl rfl
    | done => exact .inr (.inl rfl)
  | cas op S current new dst pc =>
    right
    cases pc with
    | exchange => exact .inl (stored _ hb)
    | load | pay | drop => exact hready.elim
    | done => exact .inr (.inl rfl)
    | _ => exact .inl rfl
  | rcu op S pc =>
    cases pc with
    | closure => exact .inl rfl
    | compare cur prev =>
      right
      left
      simp only [Frame.step, rcuStep]
      split <;> rfl
    | release => exact .inr (.inl rfl)
    | done => exact .inr (.inr (.inl rfl))
    | _ => exact hready.elim

variable {σ : State Thr Sto} {cfg : Config Thr Sto} [Fintype Thr]

/-- Outside of user code a thread can always go on, as long as no counter wraps. -/
theorem thread_advances (hr : (machine cfg).Reach NoWrap σ) (t : Thr) :
    atUser (σ.stack t) = true ∨ ∃ act, (State.step cfg (t, act) σ).isSome := by
  cases hst : σ.stack t with
  | nil => exact .inl rfl
  | cons f rest =>
    have hn := (Protocol.reach hr).node t
    rw [hst] at hn
    have hpanic : f ≠ .panic := by
      rintro rfl
      exact asserted_reach hr hst
    have hb : f.Borrows σ.mem := borrowed_reach hr t f (by simp [hst])
    rcases Frame.advances cfg hn (published_ne_two hr t) ((Stacked.reach hr t).ready f (by simp [hst]))
      hb hpanic with h | h | h | h
    · exact .inl h
    · exact .inr ⟨.run false, by simpa [State.step, threadStep, hst] using h⟩
    · refine .inr ⟨.ret, ?_⟩
      simp only [State.step, threadStep, hst, Option.isSome_map, retStep]
      exact h
    · exact .inr ⟨.claim, by simpa [State.step, threadStep] using h⟩

end ArcSwap
