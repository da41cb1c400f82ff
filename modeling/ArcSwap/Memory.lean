import ArcSwap.Word
import ArcSwap.Concurrent.History
import Mathlib.Logic.Function.Basic
import Mathlib.Data.Fin.Basic

namespace ArcSwap
set_option autoImplicit true

instance neZeroSlots : NeZero 9 := ⟨Nat.succ_ne_zero 8⟩

instance neZeroTwo : NeZero 2 := ⟨Nat.succ_ne_zero 1⟩

/-- A debt slot of a node: `fast_slots()` followed by `helping_slot()`. -/
abbrev Debt (Thr : Type) := Thr × Fin 9

def helpingSlot (n : Thr) : Debt Thr := (n, 8)

/-- The fast slot a rotated scan looks at, `(i + offset) % len`. -/
def fastSlot (n : Thr) (k : Nat) : Debt Thr := (n, ⟨k % 8, by omega⟩)

/-- `HybridProtection`: a pointer and possibly the debt it is still owed through. -/
structure Guard (Thr : Type) where
  debt : Option (Debt Thr)
  ptr : Nat
deriving DecidableEq

/-- An allocation: an address and how many objects were allocated there before. -/
abbrev Obj := Nat × Nat

abbrev Update := Concurrent.Change Obj

/-- A pointer handed to a reader for one of its generations. -/
structure Handoff (Thr : Type) where
  reader : Thr
  gen : Nat
  ptr : Nat
deriving DecidableEq

/-- When an operation began: the updates its storage had seen and a global clock. -/
structure Stamp where
  version : Nat
  time : Nat
deriving DecidableEq

/-- A finished call, with what it was given and what it returned, and when a load took place. -/
inductive Call (Sto : Type)
  | load (S : Sto) (since till : Stamp) (ret : Obj)
  | swap (op : Nat) (S : Sto) (new ret : Obj)
  | cas (op : Nat) (S : Sto) (current : Nat) (new ret : Obj)
  | rcu (op : Nat) (S : Sto) (arg new ret : Obj)

/-- What the threads share. The thread `t` owns the node `t`. The fields from `epoch` on are
history: no step depends on them. -/
structure Shared (Thr Sto : Type) where
  storage : Sto → Option Nat
  strong : Nat → Nat
  debt : Debt Thr → Nat
  control : Thr → Nat
  activeAddr : Thr → Option Sto
  handover : Nat → Nat
  spaceOffer : Thr → Nat
  inUse : Thr → Nat
  activeWriters : Thr → Nat
  listHead : List Thr
  localNode : Thr → Bool
  generation : Thr → Nat
  offset : Thr → Nat
  handles : Nat → Nat
  guards : Guard Thr → Nat
  epoch : Nat → Nat
  log : Sto → List Update
  nextOp : Nat
  calls : List (Call Sto)
  clock : Nat
  published : Thr → Nat
  publishedAt : Thr → Stamp
  offered : Thr → Option Nat
  sent : List (Handoff Thr)
  received : List (Handoff Thr)

variable {Thr Sto : Type} [DecidableEq Thr] [DecidableEq Sto]

namespace Shared

/-- `RefCnt::inc`; a null pointer has no count. -/
def inc (m : Shared Thr Sto) (a : Nat) : Shared Thr Sto :=
  if a = 0 then m else { m with strong := Function.update m.strong a (m.strong a + 1) }

def dec (m : Shared Thr Sto) (a : Nat) : Shared Thr Sto :=
  if a = 0 then m else { m with strong := Function.update m.strong a (m.strong a - 1) }

def destroys (m : Shared Thr Sto) (a : Nat) : Bool := a ≠ 0 && m.strong a = 1

def setDebt (m : Shared Thr Sto) (d : Debt Thr) (w : Nat) : Shared Thr Sto :=
  { m with debt := Function.update m.debt d w }

def setControl (m : Shared Thr Sto) (n : Thr) (w : Nat) : Shared Thr Sto :=
  { m with control := Function.update m.control n w }

def objAt (m : Shared Thr Sto) (a : Nat) : Obj := (a, m.epoch a)

def setStorage (m : Shared Thr Sto) (op : Nat) (S : Sto) (new : Option Nat) : Shared Thr Sto :=
  { m with
    storage := Function.update m.storage S new
    log := Function.update m.log S
      (⟨op, (m.storage S).map m.objAt, new.map m.objAt⟩ :: m.log S) }

def stamp (m : Shared Thr Sto) (S : Sto) : Stamp := ⟨(m.log S).length, m.clock⟩

def tick (m : Shared Thr Sto) : Shared Thr Sto := { m with clock := m.clock + 1 }

end Shared

end ArcSwap
