import ArcSwap.System

namespace ArcSwap
set_option autoImplicit true

variable {Thr Sto : Type}

/-- The number of an operation that begins. -/
def Shared.Begins (m m' : Shared Thr Sto) (op : Nat) : Prop := op = m.nextOp ∧ m'.nextOp = op + 1

/-- The activations an operation of user code begins with. -/
def Frame.Entry (m m' : Shared Thr Sto) : Frame Thr Sto → Prop
  | .load S since _ .enter => since = m.stamp S
  | .intoInner src _ .start => src = none
  | .guardDrop _ .start | .payAll _ _ .start | .discard (.dec _) => True
  | .swap op _ _ .start => m.Begins m' op
  | .cas op _ _ new dst .retry => m.Begins m' op ∧ dst = m.objAt new
  | _ => False

/-- The activations that begin below another one. -/
def Frame.Outer (m m' : Shared Thr Sto) : Frame Thr Sto → Prop
  | .discard .await => True
  | .rcu op _ .load => m.Begins m' op
  | _ => False

/-- What user code does to the stack of its thread. -/
inductive UserMove (m m' : Shared Thr Sto) : List (Frame Thr Sto) → List (Frame Thr Sto) → Prop
  | stay : UserMove m m' st st
  | enter (hf : f.Entry m m') : UserMove m m' st (f :: st)
  | call (hf : f.Entry m m') (hg : g.Outer m m')
    (ho : g = .discard .await ∨ ∃ S since, f = .load S since false .enter) :
    UserMove m m' st (f :: g :: st)
  | closure (hd : dst = m.objAt new) : UserMove m m' (.rcu op S (.closure cur arg) :: rest)
      (.cas op S cur.ptr new dst .retry :: .rcu op S (.cas cur arg dst) :: rest)
  | ret : UserMove m m' (.user :: rest) rest

variable {m m' : Shared Thr Sto} {st st' : List (Frame Thr Sto)}

theorem takeHandle_eq (h : m.takeHandle a = some m') :
    m' = { m with handles := m'.handles } := by
  rw [Shared.takeHandle] at h
  split at h
  · cases h
    rfl
  · split at h <;> cases h
    rfl

theorem Shared.recordFor_eq (m : Shared Thr Sto) (g f : Frame Thr Sto) :
    m.recordFor g f = { m with calls := (m.recordFor g f).calls } := by
  unfold Shared.recordFor
  split <;> rfl

variable [DecidableEq Thr]

theorem takeGuard_eq (h : m.takeGuard g = some m') : m' = { m with guards := m'.guards } := by
  rw [Shared.takeGuard] at h
  split at h <;> cases h
  rfl

theorem retStep_cases (h : retStep m st = some (m', st')) :
    ∃ f v rest, st = f :: rest ∧ f.result = some v ∧
      ((m' = (m.record f).give v ∧ st' = rest ∧ ∀ g ∈ rest.head?, g.resume m v = none) ∨
      ∃ g g' rest', rest = g :: rest' ∧ g.resume m v = some g' ∧ m' = m.recordFor g f ∧
        st' = g' :: rest') := by
  cases st with
  | nil => cases h
  | cons f rest =>
    simp only [retStep, Option.map_eq_some_iff] at h
    obtain ⟨v, hv, he⟩ := h
    refine ⟨f, v, rest, rfl, hv, ?_⟩
    cases rest with
    | nil =>
      cases he
      exact .inl ⟨rfl, rfl, by simp⟩
    | cons g rest' =>
      cases hg : g.resume m v with
      | none =>
        simp only [hg] at he
        cases he
        exact .inl ⟨rfl, rfl, by simpa using hg⟩
      | some g' =>
        simp only [hg] at he
        cases he
        exact .inr ⟨g, g', rest', rfl, hg, rfl, rfl⟩

variable [DecidableEq Sto]

theorem State.step_cases [Fintype Thr] {σ σ' : State Thr Sto} {l : Thr × Action Thr Sto}
    (h : State.step cfg l σ = some σ') :
    ∃ m' st', threadStep cfg l.1 σ.mem σ.free (σ.stack l.1) l.2 = some (m', st') ∧
      σ' = ⟨m', Function.update σ.stack l.1 st'⟩ := by
  rw [State.step, Option.map_eq_some_iff] at h
  obtain ⟨⟨m', st'⟩, hs, he⟩ := h
  exact ⟨m', st', hs, he.symm⟩

theorem Frame.step_load {pre : List (Frame Thr Sto)}
    (hs : Frame.step cfg t m sp (.load S since full pc) = some (m', pre)) :
    (∃ g, pc = .done g ∧ full = true ∧ m' = m ∧ pre = [.intoInner (some (S, since)) g .start]) ∨
      loadStep cfg t m S (.load S since full) pc = some (m', pre) := by
  cases pc with
  | done g =>
    cases full <;> cases hs
    exact .inl ⟨g, rfl, rfl, rfl, rfl⟩
  | _ => exact .inr hs

theorem threadStep_cases (h : threadStep cfg t m free st act = some (m', st')) :
    (∃ sp f rest pre, act = .run sp ∧ st = f :: rest ∧ f.step cfg t m sp = some (m', pre) ∧
      st' = pre ++ rest) ∨
    (act = .ret ∧ retStep m st = some (m', st')) ∨
    (act = .claim ∧ claimStep t m = some m' ∧ st' = st) ∨
    (atUser st = true ∧ userStep m free st act = some (m', st')) := by
  cases act with
  | run sp =>
    left
    cases st with
    | nil => cases h
    | cons f rest =>
      simp only [threadStep, Option.map_eq_some_iff] at h
      obtain ⟨⟨m₁, pre⟩, hs, he⟩ := h
      cases he
      exact ⟨sp, f, rest, pre, rfl, rfl, hs, rfl⟩
  | ret => exact .inr (.inl ⟨rfl, h⟩)
  | claim =>
    simp only [threadStep, Option.map_eq_some_iff] at h
    obtain ⟨m₁, hs, he⟩ := h
    cases he
    exact .inr (.inr (.inl ⟨rfl, hs, rfl⟩))
  | _ =>
    simp only [threadStep] at h
    split at h
    · exact .inr (.inr (.inr ⟨by assumption, h⟩))
    · cases h

end ArcSwap
