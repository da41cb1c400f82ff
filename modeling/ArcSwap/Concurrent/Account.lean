import Mathlib.Algebra.BigOperators.Group.Finset.Piecewise
import Mathlib.Data.Fintype.BigOperators
import Mathlib.Algebra.Order.BigOperators.Group.Finset

namespace Concurrent
set_option autoImplicit true

theorem sum_update_add [Fintype ι] [DecidableEq ι] (f : ι → β) (g : β → Nat) (i : ι) (b : β) :
    ∑ j, g (Function.update f i b j) + g (f i) = ∑ j, g (f j) + g b := by
  have h := Finset.sum_update_of_mem (Finset.mem_univ i) (fun j => g (f j)) (g b)
  have hg : (fun j => g (Function.update f i b j)) =
      Function.update (fun j => g (f j)) i (g b) := by
    funext j
    by_cases hj : j = i
    · subst hj
      simp
    · simp [hj]
  have hs := Finset.add_sum_erase Finset.univ (fun j => g (f j)) (Finset.mem_univ i)
  rw [hg, h, ← hs, Finset.erase_eq]
  omega

/-- The account of one reference-counted object. `slot` are the debt slots that hold it, and `refs`
the references to it, either counted ones or ones recorded on a slot. -/
structure Account (D : Type) where
  count : Nat
  slot : D → Bool
  refs : Option D → Nat

variable {D : Type} {A B : Account D}

def unit [DecidableEq D] (o o' : Option D) : Nat := if o = o' then 1 else 0

/-- One step of the accounting. -/
inductive Account.Move [DecidableEq D] (A B : Account D) : Prop
  | skip (hc : B.count = A.count) (hs : ∀ d, B.slot d = A.slot d)
      (hr : ∀ o, B.refs o = A.refs o)
  | inc (hc : B.count = A.count + 1) (hs : ∀ d, B.slot d = A.slot d)
      (hr : ∀ o, B.refs o = A.refs o + unit o none)
  | dec (hc : B.count = A.count - 1) (hs : ∀ d, B.slot d = A.slot d)
      (hr : ∀ o, A.refs o = B.refs o + unit o none)
  | fill (d : D) (hc : B.count = A.count) (hd : A.slot d = false)
      (hs : ∀ x, B.slot x = if x = d then true else A.slot x)
      (hr : ∀ o, B.refs o = A.refs o + unit o (some d))
  | pay (d : D) (p : Option D) (hp : p = none ∨ p = some d) (hc : B.count = A.count)
      (hd : A.slot d = true) (hs : ∀ x, B.slot x = if x = d then false else A.slot x)
      (hr : ∀ o, A.refs o = B.refs o + unit o p)
  | paid (d : D) (hc : B.count = A.count) (hd : A.slot d = false)
      (hs : ∀ x, B.slot x = A.slot x)
      (hr : ∀ o, B.refs o + unit o (some d) = A.refs o + unit o none)

/-- References that take no part in a step are added on both sides. -/
def Account.add (A : Account D) (E : Option D → Nat) : Account D :=
  { A with refs := fun o => A.refs o + E o }

theorem Account.Move.add [DecidableEq D] (h : A.Move B) (E : Option D → Nat) :
    (A.add E).Move (B.add E) := by
  have comm : ∀ x y z : Nat, x + y + z = x + z + y := Nat.add_right_comm
  cases h with
  | skip hc hs hr => exact .skip hc hs (fun o => by simp only [Account.add, hr])
  | inc hc hs hr => exact .inc hc hs (fun o => by simp only [Account.add, hr, comm])
  | dec hc hs hr => exact .dec hc hs (fun o => by simp only [Account.add, hr, comm])
  | fill d hc hd hs hr => exact .fill d hc hd hs (fun o => by simp only [Account.add, hr, comm])
  | pay d p hp hc hd hs hr =>
    exact .pay d p hp hc hd hs (fun o => by simp only [Account.add, hr, comm])
  | paid d hc hd hs hr =>
    refine .paid d hc hd hs ?_
    intro o
    have := hr o
    simp only [Account.add]
    omega

variable [Fintype D]

def Account.slots (A : Account D) : Nat := ∑ d, if A.slot d then 1 else 0

/-- Every reference is counted or owed through a slot, and every debt is that of a reference. -/
structure Account.Balanced (A : Account D) : Prop where
  balance : A.count + A.slots = ∑ o, A.refs o
  recorded : ∀ d, A.slot d = true → 0 < A.refs (some d)

theorem Account.slots_congr (h : ∀ d, B.slot d = A.slot d) : B.slots = A.slots := by
  simp only [Account.slots, h]

theorem Account.slots_set [DecidableEq D] (d : D) (b : Bool)
    (h : ∀ x, B.slot x = if x = d then b else A.slot x) :
    B.slots + (if A.slot d then 1 else 0) = A.slots + if b then 1 else 0 := by
  have hs : B.slot = Function.update A.slot d b := by
    funext x
    rw [h x, Function.update_apply]
  rw [Account.slots, hs]
  exact sum_update_add A.slot (fun b => if b then 1 else 0) d b

theorem Account.Balanced.slots_le (h : A.Balanced) : A.slots ≤ ∑ d, A.refs (some d) := by
  apply Finset.sum_le_sum
  intro d _
  split
  · rename_i hd
    exact h.recorded d hd
  · exact Nat.zero_le _

theorem Account.Balanced.counted_le (h : A.Balanced) : A.refs none ≤ A.count := by
  have hb := h.balance
  have hs := h.slots_le
  rw [Fintype.sum_option] at hb
  omega

/-- The references recorded on one slot are counted too, except for the one it still owes. -/
theorem Account.Balanced.recorded_le (h : A.Balanced) (d : D) :
    A.refs none + A.refs (some d) ≤ A.count + if A.slot d then 1 else 0 := by
  classical
  have hb := h.balance
  rw [Fintype.sum_option] at hb
  have h₁ := Finset.add_sum_erase Finset.univ (fun x => A.refs (some x)) (Finset.mem_univ d)
  have h₂ := Finset.add_sum_erase Finset.univ (fun x => if A.slot x then 1 else 0)
    (Finset.mem_univ d)
  have h₃ : ∑ x ∈ Finset.univ.erase d, (if A.slot x then 1 else 0) ≤
      ∑ x ∈ Finset.univ.erase d, A.refs (some x) := by
    apply Finset.sum_le_sum
    intro x _
    split
    · rename_i hx
      exact h.recorded x hx
    · exact Nat.zero_le _
  rw [Account.slots, ← h₂, ← h₁] at hb
  omega

variable [DecidableEq D]

theorem sum_unit (o : Option D) : ∑ o', unit o' o = 1 := by
  simp [unit]

theorem Account.Move.balanced (h : A.Move B) (hA : A.Balanced) : B.Balanced := by
  have hb := hA.balance
  cases h with
  | skip hc hs hr =>
    refine ⟨?_, ?_⟩
    · simp only [hc, slots_congr hs, hr, hb]
    · intro d hd
      rw [hr]
      exact hA.recorded d (hs d ▸ hd)
  | inc hc hs hr =>
    refine ⟨?_, ?_⟩
    · simp only [hr, Finset.sum_add_distrib, sum_unit, ← hb, hc, slots_congr hs]
      omega
    · intro d hd
      rw [hr]
      exact Nat.lt_of_lt_of_le (hA.recorded d (hs d ▸ hd)) (Nat.le_add_right _ _)
  | dec hc hs hr =>
    have hpos : 1 ≤ A.refs none := by
      rw [hr, unit, if_pos rfl]
      omega
    have hcount := hA.counted_le
    refine ⟨?_, ?_⟩
    · simp only [hr, Finset.sum_add_distrib, sum_unit] at hb
      rw [hc, slots_congr hs]
      omega
    · intro d hd
      have := hA.recorded d (hs d ▸ hd)
      rw [hr, unit, if_neg (by simp)] at this
      exact this
  | fill d hc hd hs hr =>
    have hslots := slots_set d true hs
    rw [hd] at hslots
    refine ⟨?_, ?_⟩
    · simp only [hr, Finset.sum_add_distrib, sum_unit, ← hb, hc]
      simp only [Bool.false_eq_true, if_false, if_true] at hslots
      omega
    · intro x hx
      rw [hr]
      by_cases hxd : x = d
      · subst hxd
        rw [unit, if_pos rfl]
        omega
      · rw [hs, if_neg hxd] at hx
        exact Nat.lt_of_lt_of_le (hA.recorded x hx) (Nat.le_add_right _ _)
  | pay d p hp hc hd hs hr =>
    have hslots := slots_set d false hs
    rw [hd] at hslots
    refine ⟨?_, ?_⟩
    · simp only [hr, Finset.sum_add_distrib, sum_unit] at hb
      simp only [Bool.false_eq_true, if_false, if_true] at hslots
      omega
    · intro x hx
      rw [hs] at hx
      split at hx
      · cases hx
      · rename_i hxd
        have hrec := hA.recorded x hx
        rw [hr, unit, if_neg] at hrec
        · exact hrec
        · rcases hp with rfl | rfl
          · simp
          · simpa using hxd
  | paid d hc hd hs hr =>
    refine ⟨?_, ?_⟩
    · have hsum : ∑ o, (B.refs o + unit o (some d)) = ∑ o, (A.refs o + unit o none) :=
        Finset.sum_congr rfl (fun o _ => hr o)
      simp only [Finset.sum_add_distrib, sum_unit] at hsum
      rw [hc, slots_congr hs]
      omega
    · intro x hx
      rw [hs] at hx
      have hrx := hr (some x)
      have hxd : x ≠ d := by
        rintro rfl
        rw [hd] at hx
        cases hx
      simp only [unit, Option.some.injEq, hxd, if_false, reduceCtorEq, Nat.add_zero] at hrx
      rw [hrx]
      exact hA.recorded x hx

end Concurrent
