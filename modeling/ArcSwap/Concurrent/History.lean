import Mathlib.Data.List.Basic

namespace Concurrent
set_option autoImplicit true

/-- One atomic replacement of a cell's content by the operation `op`; `none` stands for no cell
being there. -/
structure Change (α : Type) where
  op : Nat
  old : Option α
  new : Option α
deriving DecidableEq

/-- The changes, newest first, lead to the content `now`, each from what the one before it left. -/
def Chained : List (Change α) → Option α → Prop
  | [], now => now = none
  | u :: us, now => u.new = now ∧ Chained us u.old

/-- The cell has held `a` at some time when the log was between `k` and `k'` long. -/
def HeldDuring (log : List (Change α)) (k k' : Nat) (a : α) : Prop :=
  ∃ newer u older, log = newer ++ u :: older ∧ u.new = some a ∧ k ≤ older.length + 1 ∧
    older.length + 1 ≤ k'

/-- The cell has held `a` at some time since the log had the length `k`. -/
def HeldSince (log : List (Change α)) (k : Nat) (a : α) : Prop := HeldDuring log k log.length a

variable {log : List (Change α)}

theorem HeldDuring.append (h : HeldDuring log k k' a) (newer : List (Change α)) :
    HeldDuring (newer ++ log) k k' a := by
  obtain ⟨pre, u, older, rfl, hu, hk⟩ := h
  exact ⟨newer ++ pre, u, older, (List.append_assoc ..).symm, hu, hk⟩

theorem HeldDuring.mono (h : HeldDuring log k k' a) (hk : j ≤ k) (hk' : k' ≤ j') :
    HeldDuring log j j' a := by
  obtain ⟨newer, u, older, he, hu, hle, hle'⟩ := h
  exact ⟨newer, u, older, he, hu, Nat.le_trans hk hle, Nat.le_trans hle' hk'⟩

theorem HeldSince.append (h : HeldSince log k a) (newer : List (Change α)) :
    HeldSince (newer ++ log) k a := by
  refine (HeldDuring.append h newer).mono (Nat.le_refl k) ?_
  rw [List.length_append]
  exact Nat.le_add_left ..

theorem HeldSince.mono (h : HeldSince log k a) (hk : k' ≤ k) : HeldSince log k' a :=
  HeldDuring.mono h hk (Nat.le_refl _)

theorem Chained.held (h : Chained log (some a)) (hk : k ≤ log.length) : HeldSince log k a := by
  cases log with
  | nil => cases h
  | cons u us => exact ⟨[], u, us, rfl, h.1, hk, Nat.le_refl _⟩

theorem not_heldDuring (hu : ∀ u ∈ log, u.new ≠ some a) : ¬ HeldDuring log k k' a := by
  rintro ⟨newer, u, older, rfl, hnew, _⟩
  exact hu u (by simp) hnew

theorem heldSince_iff : HeldSince log k a ↔ ∃ u ∈ log.take (log.length + 1 - k), u.new = some a := by
  constructor
  · rintro ⟨newer, u, older, rfl, hu, hk, _⟩
    refine ⟨u, ?_, hu⟩
    rw [List.length_append, List.length_cons]
    refine List.mem_take_iff_getElem.2 ⟨newer.length, ?_, by simp⟩
    simp only [List.length_append, List.length_cons]
    omega
  · rintro ⟨u, hm, hu⟩
    obtain ⟨i, hi, rfl⟩ := List.mem_take_iff_getElem.1 hm
    have hlt : i < log.length := by omega
    refine ⟨log.take i, log[i], log.drop (i + 1), ?_, hu, ?_, ?_⟩
    · rw [List.getElem_cons_drop, List.take_append_drop]
    · rw [List.length_drop]
      omega
    · rw [List.length_drop]
      omega

instance [DecidableEq α] (log : List (Change α)) (k : Nat) (a : α) : Decidable (HeldSince log k a) :=
  decidable_of_iff _ heldSince_iff.symm

theorem HeldDuring.at (h : HeldDuring log k k' a) :
    ∃ j, k ≤ j ∧ j ≤ k' ∧ HeldDuring log j j a := by
  obtain ⟨newer, u, older, he, hu, hk, hk'⟩ := h
  exact ⟨older.length + 1, hk, hk', newer, u, older, he, hu, Nat.le_refl _, Nat.le_refl _⟩

/-- What has been observed in intervals one after the other has been there in that order. -/
theorem exists_points {xs : List β} {since till : β → Nat} {obj : β → α}
    (h : ∀ x ∈ xs, HeldDuring log (since x) (till x) (obj x))
    (ho : xs.Pairwise fun x y => till y ≤ since x) :
    ∃ point : β → Nat, (∀ x ∈ xs, since x ≤ point x ∧ point x ≤ till x ∧
      HeldDuring log (point x) (point x) (obj x)) ∧ xs.Pairwise fun x y => point y ≤ point x := by
  have hall : ∀ x, ∃ j, x ∈ xs → since x ≤ j ∧ j ≤ till x ∧ HeldDuring log j j (obj x) := by
    intro x
    by_cases hx : x ∈ xs
    · obtain ⟨j, hj⟩ := (h x hx).at
      exact ⟨j, fun _ => hj⟩
    · exact ⟨0, fun hx' => (hx hx').elim⟩
  obtain ⟨point, hpoint⟩ := Classical.axiomOfChoice hall
  refine ⟨point, hpoint, ho.imp_of_mem fun hx hy hle => ?_⟩
  exact Nat.le_trans (hpoint _ hy).2.1 (Nat.le_trans hle (hpoint _ hx).1)

end Concurrent
