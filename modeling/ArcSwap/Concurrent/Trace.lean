import ArcSwap.Concurrent.Machine

namespace Concurrent
set_option autoImplicit true

structure Event (σ α : Type) where
  pre : σ
  act : α
  post : σ

/-- A run with the steps it has made, newest first. -/
inductive Machine.Trace (M : Machine σ α) (ok : α → σ → Prop) : σ → List (Event σ α) → σ → Prop
  | nil : Trace M ok s [] s
  | step (h : Trace M ok s tr s') (ha : ok a s') (hs : M.step a s' = some s'') :
    Trace M ok s (⟨s', a, s''⟩ :: tr) s''

variable {M : Machine σ α} {ok ok' : α → σ → Prop}

theorem Machine.Trace.run (h : M.Trace ok s tr s') : M.Run ok s s' := by
  induction h with
  | nil => exact .refl
  | step _ ha hs ih => exact .step ih ha hs

theorem Machine.Trace.mono (h : M.Trace ok s tr s') (hok : ∀ a s, ok a s → ok' a s) :
    M.Trace ok' s tr s' := by
  induction h with
  | nil => exact .nil
  | step _ ha hs ih => exact .step ih (hok _ _ ha) hs

theorem Machine.Trace.keeps {P : List (Event σ α) → σ → Prop} (h : M.Trace ok' s tr s')
    (hs : M.Reach ok s) (hok : ∀ a s, ok' a s → ok a s) (hp : P [] s)
    (hstep : ∀ tr a s s', M.Reach ok s → P tr s → ok' a s → M.step a s = some s' →
      P (⟨s, a, s'⟩ :: tr) s') : P tr s' := by
  induction h with
  | nil => exact hp
  | step hr ha hs' ih => exact hstep _ _ _ _ ((hr.mono hok).run.reach hs) ih ha hs'

theorem Machine.Trace.of_mem (h : M.Trace ok s tr s') (hr : M.Reach ok s) (he : e ∈ tr) :
    M.Reach ok e.pre ∧ ok e.act e.pre ∧ M.step e.act e.pre = some e.post := by
  induction h with
  | nil => cases he
  | step h ha hs ih =>
    rcases List.mem_cons.1 he with rfl | he
    · exact ⟨h.run.reach hr, ha, hs⟩
    · exact ih he

/-- What every step keeps or drops is there at the end or has been dropped. -/
theorem Machine.Trace.kept_or_dropped {f : σ → Option β} (h : M.Trace ok s tr s')
    (hr : M.Reach ok s) (hstep : ∀ a s s', M.Reach ok s → M.step a s = some s' → f s = some b →
      f s' = some b ∨ f s' = none) (hf : f s = some b) :
    f s' = some b ∨ ∃ e ∈ tr, f e.pre = some b ∧ f e.post = none := by
  induction h with
  | nil => exact .inl hf
  | step h ha hs ih =>
    rcases ih with hf | ⟨e, he, hdrop⟩
    · rcases hstep _ _ _ (h.run.reach hr) hs hf with hf' | hf'
      · exact .inl hf'
      · exact .inr ⟨_, List.mem_cons_self .., hf, hf'⟩
    · exact .inr ⟨e, List.mem_cons_of_mem _ he, hdrop⟩

def Machine.record (M : Machine σ α) (ok : α → σ → Prop) [∀ a s, Decidable (ok a s)] :
    List (σ → Option α) → List (Event σ α) → σ → Option (List (Event σ α) × σ)
  | [], tr, s => some (tr, s)
  | o :: os, tr, s =>
    match o s with
    | none => M.record ok os tr s
    | some a =>
      if ok a s then (M.step a s).bind fun s' => M.record ok os (⟨s, a, s'⟩ :: tr) s' else none

theorem Machine.Trace.record [∀ a s, Decidable (ok a s)] {os : List (σ → Option α)}
    (h : M.Trace ok s₀ tr s) (he : M.record ok os tr s = some (tr', s')) :
    M.Trace ok s₀ tr' s' := by
  induction os generalizing tr s with
  | nil =>
    cases he
    exact h
  | cons o os ih =>
    rw [Machine.record] at he
    split at he
    · exact ih h he
    · split at he
      · rename_i a _ ha
        obtain ⟨s₁, hs, he⟩ := Option.bind_eq_some_iff.1 he
        exact ih (.step h ha hs) he
      · cases he

end Concurrent
