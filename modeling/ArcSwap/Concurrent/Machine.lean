import Mathlib.Data.List.Basic

namespace Concurrent
set_option autoImplicit true

/-- A transition system whose steps are named by a label and computed by a partial function. -/
structure Machine (σ α : Type) where
  init : σ → Prop
  step : α → σ → Option σ

/-- The states reached by runs all of whose steps are admitted. -/
inductive Machine.Reach (M : Machine σ α) (ok : α → σ → Prop) : σ → Prop
  | init (h : M.init s) : Reach M ok s
  | step (h : Reach M ok s) (ha : ok a s) (hs : M.step a s = some s') : Reach M ok s'

theorem Machine.Reach.mono {M : Machine σ α} {ok ok' : α → σ → Prop}
    (h : M.Reach ok s) (hok : ∀ a s, ok a s → ok' a s) : M.Reach ok' s := by
  induction h with
  | init h => exact .init h
  | step _ ha hs ih => exact .step ih (hok _ _ ha) hs

theorem Machine.Reach.invariant {M : Machine σ α} {ok : α → σ → Prop} {P : σ → Prop}
    (h : M.Reach ok s) (hinit : ∀ s, M.init s → P s)
    (hstep : ∀ a s s', P s → ok a s → M.step a s = some s' → P s') : P s := by
  induction h with
  | init h => exact hinit _ h
  | step _ ha hs ih => exact hstep _ _ _ ih ha hs

/-- An invariant may be proved relative to another property of all reachable states. -/
theorem Machine.Reach.invariant_of {M : Machine σ α} {ok : α → σ → Prop} {P Q : σ → Prop}
    (h : M.Reach ok s) (hQ : ∀ s, M.Reach ok s → Q s) (hinit : ∀ s, M.init s → P s)
    (hstep : ∀ a s s', Q s → P s → ok a s → M.step a s = some s' → P s') : P s := by
  induction h with
  | init h => exact hinit _ h
  | step hr ha hs ih => exact hstep _ _ _ (hQ _ hr) ih ha hs

inductive Machine.Run (M : Machine σ α) (ok : α → σ → Prop) : σ → σ → Prop
  | refl : Run M ok s s
  | step (h : Run M ok s s') (ha : ok a s') (hs : M.step a s' = some s'') : Run M ok s s''

theorem Machine.Run.mono {M : Machine σ α} {ok ok' : α → σ → Prop} (h : M.Run ok s s')
    (hok : ∀ a s, ok a s → ok' a s) : M.Run ok' s s' := by
  induction h with
  | refl => exact .refl
  | step _ ha hs ih => exact .step ih (hok _ _ ha) hs

theorem Machine.Run.reach {M : Machine σ α} {ok : α → σ → Prop}
    (h : M.Run ok s s') (hs : M.Reach ok s) : M.Reach ok s' := by
  induction h with
  | refl => exact hs
  | step _ ha hs ih => exact .step ih ha hs

theorem Machine.Run.keeps {M : Machine σ α} {ok : α → σ → Prop} {P : σ → Prop}
    (h : M.Run ok s s') (hs : M.Reach ok s) (hp : P s)
    (hstep : ∀ a s s', M.Reach ok s → P s → ok a s → M.step a s = some s' → P s') : P s' := by
  induction h with
  | refl => exact hp
  | step hr ha hs' ih => exact hstep _ _ _ (hr.reach hs) ih ha hs'

def Machine.exec (M : Machine σ α) (ok : α → σ → Prop) [∀ a s, Decidable (ok a s)] :
    List (σ → Option α) → σ → Option σ
  | [], s => some s
  | o :: os, s =>
    match o s with
    | none => M.exec ok os s
    | some a => if ok a s then (M.step a s).bind (M.exec ok os) else none

theorem Machine.Run.exec {M : Machine σ α} {ok : α → σ → Prop} [∀ a s, Decidable (ok a s)]
    {os : List (σ → Option α)} (h : M.Run ok s₀ s) (he : M.exec ok os s = some s') :
    M.Run ok s₀ s' := by
  induction os generalizing s with
  | nil =>
    cases he
    exact h
  | cons o os ih =>
    rw [Machine.exec] at he
    split at he
    · exact ih h he
    · split at he
      · rename_i a _ ha
        cases hs : M.step a s with
        | none =>
          rw [hs] at he
          cases he
        | some s₁ =>
          rw [hs] at he
          exact ih (.step h ha hs) he
      · cases he

theorem Machine.Reach.exec {M : Machine σ α} {ok : α → σ → Prop} [∀ a s, Decidable (ok a s)]
    {os : List (σ → Option α)} (h : M.Reach ok s) (he : M.exec ok os s = some s') :
    M.Reach ok s' :=
  (Machine.Run.exec .refl he).reach h

end Concurrent
