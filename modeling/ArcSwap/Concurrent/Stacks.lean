import Mathlib.Data.Fintype.BigOperators
import Mathlib.Algebra.Order.BigOperators.Group.List
import Mathlib.Algebra.Order.BigOperators.Group.Finset
import Mathlib.Algebra.Order.Ring.Nat

namespace Concurrent
set_option autoImplicit true

variable [Fintype ι] [DecidableEq ι] {w : F → Nat} {stack : ι → List F}

/-- The weight of all activations on all stacks. -/
def total (w : F → Nat) (stack : ι → List F) : Nat := ∑ t, ((stack t).map w).sum

def others (w : F → Nat) (stack : ι → List F) (t : ι) : Nat :=
  ∑ x ∈ Finset.univ.erase t, ((stack x).map w).sum

theorem total_eq (w : F → Nat) (stack : ι → List F) (t : ι) :
    total w stack = ((stack t).map w).sum + others w stack t :=
  (Finset.add_sum_erase Finset.univ _ (Finset.mem_univ t)).symm

theorem total_update (w : F → Nat) (stack : ι → List F) (t : ι) (st : List F) :
    total w (Function.update stack t st) = (st.map w).sum + others w stack t := by
  rw [total_eq w _ t, Function.update_self]
  congr 1
  apply Finset.sum_congr rfl
  intro x hx
  rw [Function.update_of_ne (Finset.ne_of_mem_erase hx)]

theorem le_others (hf : f ∈ stack x) (hx : x ≠ t) : w f ≤ others w stack t :=
  Nat.le_trans (List.single_le_sum (fun _ _ => Nat.zero_le _) _ (List.mem_map_of_mem hf))
    (Finset.single_le_sum (f := fun x => ((stack x).map w).sum) (fun _ _ => Nat.zero_le _)
      (Finset.mem_erase.2 ⟨hx, Finset.mem_univ x⟩))

theorem le_total (hf : f ∈ stack t) : w f ≤ total w stack := by
  rw [total_eq w stack t]
  exact Nat.le_trans (List.single_le_sum (fun _ _ => Nat.zero_le _) _ (List.mem_map_of_mem hf))
    (Nat.le_add_right _ _)

theorem add_le_total (hst : stack t = g :: rest) (hf : f ∈ stack x) (hx : x = t → f ∈ rest) :
    w g + w f ≤ total w stack := by
  rw [total_eq w stack t, hst, List.map_cons, List.sum_cons]
  by_cases h : x = t
  · have hle := List.single_le_sum (fun _ _ => Nat.zero_le _) _ (List.mem_map_of_mem (f := w) (hx h))
    omega
  · have hle := le_others (w := w) hf h
    omega

end Concurrent
