import Mathlib.Data.Nat.Notation

namespace Concurrent
set_option autoImplicit true

/-- A reader-writer lock: held by some readers, or by one writer. -/
inductive Lock
  | shared (readers : Nat)
  | exclusive
deriving DecidableEq

namespace Lock

def free : Lock := .shared 0

def read : Lock → Option Lock
  | .shared n => some (.shared (n + 1))
  | .exclusive => none

def unread : Lock → Lock
  | .shared n => .shared (n - 1)
  | .exclusive => .exclusive

def write : Lock → Option Lock
  | .shared 0 => some .exclusive
  | _ => none

def unwrite : Lock → Lock
  | .shared n => .shared n
  | .exclusive => .free

/-- The lock is held by `r` readers and `w` writers. -/
def Held : Lock → Nat → Nat → Prop
  | .shared n, r, w => r = n ∧ w = 0
  | .exclusive, r, w => r = 0 ∧ w = 1

variable {l l' : Lock} {r w : Nat}

theorem free_held : free.Held 0 0 := ⟨rfl, rfl⟩

theorem Held.read (h : l.Held r w) (hr : l.read = some l') : l'.Held (r + 1) w := by
  cases l with
  | shared n =>
    cases hr
    exact ⟨congrArg Nat.succ h.1, h.2⟩
  | exclusive => cases hr

theorem Held.unread (h : l.Held (r + 1) w) : l.unread.Held r w := by
  cases l with
  | shared n => exact ⟨Nat.eq_sub_of_add_eq h.1, h.2⟩
  | exclusive => cases h.1

theorem Held.write (h : l.Held r w) (hr : l.write = some l') : l'.Held r (w + 1) := by
  cases l with
  | shared n =>
    cases n with
    | zero =>
      cases hr
      exact ⟨h.1, congrArg Nat.succ h.2⟩
    | succ n => cases hr
  | exclusive => cases hr

theorem Held.unwrite (h : l.Held r (w + 1)) : l.unwrite.Held r w := by
  cases l with
  | shared n => cases h.2
  | exclusive => exact ⟨h.1, Nat.succ.inj h.2⟩

theorem Held.write_none (h : l.Held r w) (hp : 0 < r + w) : l.write = none := by
  cases l with
  | shared n =>
    cases n with
    | zero =>
      obtain ⟨rfl, rfl⟩ := h
      cases hp
    | succ n => rfl
  | exclusive => rfl

/-- What a step does to the lock and to the numbers of those who hold it. -/
inductive Step (l : Lock) (r w : Nat) : Lock → Nat → Nat → Prop
  | same : Step l r w l r w
  | read (h : l.read = some k) : Step l r w k (r + 1) w
  | unread (hr : r = r' + 1) : Step l r w l.unread r' w
  | write (h : l.write = some k) : Step l r w k r (w + 1)
  | unwrite (hw : w = w' + 1) : Step l r w l.unwrite r w'

theorem Step.add {r' w' : Nat} (hs : Step l r w l' r' w') :
    Step l (r + a) (w + b) l' (r' + a) (w' + b) := by
  cases hs with
  | same => exact .same
  | read h =>
    rw [Nat.add_right_comm]
    exact .read h
  | unread h => exact .unread (by omega)
  | write h =>
    rw [Nat.add_right_comm]
    exact .write h
  | unwrite h => exact .unwrite (by omega)

theorem Held.step {r' w' : Nat} (h : l.Held (r + a) (w + b)) (hs : Step l r w l' r' w') :
    l'.Held (r' + a) (w' + b) := by
  cases hs with
  | same => exact h
  | read hr =>
    rw [Nat.add_right_comm]
    exact h.read hr
  | unread hr =>
    rw [hr, Nat.add_right_comm] at h
    exact h.unread
  | write hw =>
    rw [Nat.add_right_comm]
    exact h.write hw
  | unwrite hw =>
    rw [hw, Nat.add_right_comm] at h
    exact h.unwrite

end Lock

end Concurrent
