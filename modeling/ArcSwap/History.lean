import ArcSwap.Protection

namespace ArcSwap
set_option autoImplicit true

variable {Thr Sto : Type} [DecidableEq Thr] [DecidableEq Sto]
variable {m m' : Shared Thr Sto} {st st' pre rest : List (Frame Thr Sto)}

theorem threadStep_log (hs : threadStep cfg t m free st act = some (m', st')) (S : Sto) :
    m'.storage S = m.storage S ∧ m'.log S = m.log S ∨
      m'.epoch = m.epoch ∧ ∃ op, m'.log S =
        ⟨op, (m.storage S).map m.objAt, (m'.storage S).map m.objAt⟩ :: m.log S := by
  have write : ∀ (m : Shared Thr Sto) op S' new,
      (m.setStorage op S' new).storage S = m.storage S ∧ (m.setStorage op S' new).log S = m.log S ∨
      ∃ op', (m.setStorage op S' new).log S = ⟨op', (m.storage S).map m.objAt,
        ((m.setStorage op S' new).storage S).map m.objAt⟩ :: m.log S := by
    intro m op S' new
    by_cases hS : S = S'
    · subst hS
      exact .inr ⟨op, by simp [Shared.setStorage]⟩
    · exact .inl ⟨Function.update_of_ne hS .., Function.update_of_ne hS ..⟩
  rcases threadStep_cases hs with ⟨sp, f, rest, pre, _, _, hf, _⟩ | ⟨_, h⟩ | ⟨_, h, _⟩ | ⟨_, h⟩
  · rcases (Frame.step_cases cfg t hf).internal_or_write with hi | hw
    · exact .inl ⟨by rw [hi.storage], by rw [hi.log]⟩
    · cases hw <;> exact (write ..).imp id (⟨rfl, ·⟩)
  · left
    obtain ⟨f, v, rest, _, _, ⟨rfl, _⟩ | ⟨_, _, _, _, _, rfl, _⟩⟩ := retStep_cases h
    · cases v <;> exact ⟨rfl, rfl⟩
    · rw [Shared.recordFor_eq]
      exact ⟨rfl, rfl⟩
  · left
    rw [claimStep] at h
    split at h <;> cases h
    exact ⟨rfl, rfl⟩
  · have hw := userStep_write h
    clear h hs
    cases hw with
    | same h hl => exact .inl ⟨by rw [h], by rw [hl]⟩
    | alloc h =>
      rw [allocate_eq h]
      exact .inl ⟨rfl, rfl⟩
    | @create S' b m₁ _ h₁ =>
      have hw := write m₁ m.nextOp S' (some b)
      rw [takeHandle_eq h₁] at hw ⊢
      exact hw.imp id (⟨rfl, ·⟩)
    | remove => exact (write ..).imp id (⟨rfl, ·⟩)

theorem threadStep_log_append (hs : threadStep cfg t m free st act = some (m', st')) (S : Sto) :
    ∃ newer, m'.log S = newer ++ m.log S := by
  rcases threadStep_log hs S with ⟨_, h⟩ | ⟨_, op, h⟩
  · exact ⟨[], h⟩
  · exact ⟨[_], h⟩

theorem threadStep_held (hs : threadStep cfg t m free st act = some (m', st'))
    (h : Concurrent.HeldSince (m.log S) k o) : Concurrent.HeldSince (m'.log S) k o := by
  obtain ⟨newer, he⟩ := threadStep_log_append hs S
  rw [he]
  exact h.append newer

variable [Fintype Thr] [Fintype Sto] {σ σ' : State Thr Sto} {cfg : Config Thr Sto}

theorem stays_of_storage (hr : (machine cfg).Reach ok σ) (hS : σ.mem.storage S = some a) :
    σ.mem.Stays a := by
  by_cases ha : a = 0
  · exact .inl ha
  by_cases ha3 : a = debtNone
  · exact .inr (.inl ha3)
  · exact .inr (.inr (strong_pos hr ha ha3 (.inr (.inr ⟨S, hS⟩))))

theorem log_chained (hr : (machine cfg).Reach ok σ) (S : Sto) :
    Concurrent.Chained (σ.mem.log S) ((σ.mem.storage S).map σ.mem.objAt) := by
  refine hr.invariant_of (Q := fun σ => ∀ S a, σ.mem.storage S = some a → σ.mem.Stays a)
    (P := fun σ => Concurrent.Chained (σ.mem.log S) ((σ.mem.storage S).map σ.mem.objAt))
    (fun _ hr _ _ => stays_of_storage hr) ?_ ?_
  · rintro _ rfl
    rfl
  · intro l σ σ' hQ hC _ hs
    obtain ⟨m', st', ht, rfl⟩ := State.step_cases hs
    rcases threadStep_log ht S with ⟨hS, hl⟩ | ⟨he, op, hl⟩
    · show Concurrent.Chained (m'.log S) ((m'.storage S).map m'.objAt)
      have hobj : (σ.mem.storage S).map m'.objAt = (σ.mem.storage S).map σ.mem.objAt := by
        cases h : σ.mem.storage S with
        | none => rfl
        | some a => simp [Shared.objAt, threadStep_epoch ht (hQ S a h)]
      rw [hS, hl, hobj]
      exact hC
    · show Concurrent.Chained (m'.log S) ((m'.storage S).map m'.objAt)
      rw [hl]
      have hobj : σ.mem.objAt = m'.objAt := by
        funext a
        rw [Shared.objAt, Shared.objAt, he]
      exact ⟨by rw [hobj], hC⟩

end ArcSwap
