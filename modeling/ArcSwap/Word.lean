import Mathlib.Data.Nat.Bitwise

namespace ArcSwap
set_option autoImplicit true

/-- `Debt::NONE`. Words and raw pointers are natural numbers; null is `0`. -/
def debtNone : Nat := 0b11

def replacementTag : Nat := 0b01
def genTag : Nat := 0b10
def tagMask : Nat := 0b11
def idle : Nat := 0

def nodeUnused : Nat := 0
def nodeUsed : Nat := 1
def nodeCooldown : Nat := 2

def tagOf (control : Nat) : Nat := control &&& tagMask

def clearTag (control : Nat) : Nat := control - (control &&& tagMask)

@[simp] theorem tagOf_eq (c : Nat) : tagOf c = c % 4 :=
  Nat.and_two_pow_sub_one_eq_mod c 2

@[simp] theorem clearTag_eq (c : Nat) : clearTag c = c - c % 4 := by
  rw [clearTag, ← tagOf_eq]
  rfl

/-- Tagging a word whose two low bits are clear adds the tag. -/
theorem or_tag (ha : a % 4 = 0) (hb : b < 4) : a ||| b = a + b := by
  have h := Nat.two_pow_add_eq_or_of_lt (i := 2) hb (a / 4)
  have he : 2 ^ 2 * (a / 4) = a := by omega
  rw [he] at h
  exact h.symm

theorem genTag_or (ha : a % 4 = 0) : a ||| genTag = a + 2 :=
  or_tag ha (by decide)

theorem replacementTag_or (ha : a % 4 = 0) : a ||| replacementTag = a + 1 :=
  or_tag ha (by decide)

/-- The generation counter of the next transaction, `wrapping_add(4)` on words of `w` bits. -/
def nextGeneration (w : Nat) (g : Nat) : Nat := (g + 4) % 2 ^ w

theorem nextGeneration_eq (h : g + 4 < 2 ^ w) : nextGeneration w g = g + 4 :=
  Nat.mod_eq_of_lt h

theorem nextGeneration_lt (w g : Nat) : nextGeneration w g < 2 ^ w :=
  Nat.mod_lt _ (Nat.two_pow_pos w)

theorem nextGeneration_cases (hg : g % 4 = 0) (hlt : g < 2 ^ w) :
    nextGeneration w g = 0 ∨ nextGeneration w g = g + 4 := by
  match w with
  | 0 => exact .inl (Nat.mod_one _)
  | 1 =>
    left
    have hg : g = 0 := by omega
    subst hg
    rfl
  | n + 2 =>
    have hw : 2 ^ (n + 2) = 4 * 2 ^ n := by
      rw [Nat.pow_add]
      exact Nat.mul_comm ..
    by_cases hlt' : g + 4 < 2 ^ (n + 2)
    · exact .inr (nextGeneration_eq hlt')
    · left
      have he : g + 4 = 2 ^ (n + 2) := by omega
      rw [nextGeneration, he, Nat.mod_self]

end ArcSwap
