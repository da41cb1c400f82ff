import ArcSwap.Memory
import Mathlib.Data.Fintype.Basic

namespace ArcSwap.Sequential
set_option autoImplicit true

/-- A pointer with the reference count that it takes part in: `Arc` and `Option<Arc>` have the same,
`Weak` has another. The pointers of one allocation are equal. -/
abbrev Ref (K : Type) := K × Nat

/-- The storages, the reference counts, the pointers the program owns, and the counts that have come
to zero, the latest first. -/
structure Heap (K Sto : Type) where
  storage : Sto → Option (Ref K)
  count : Ref K → Nat
  handles : Ref K → Nat
  destroyed : List (Ref K)

variable {K Sto : Type} [DecidableEq K] [DecidableEq Sto]

namespace Heap

/-- `RefCnt::inc`; a null pointer has no count. -/
def inc (h : Heap K Sto) (r : Ref K) : Heap K Sto :=
  if r.2 = 0 then h else { h with count := Function.update h.count r (h.count r + 1) }

def dec (h : Heap K Sto) (r : Ref K) : Heap K Sto :=
  if r.2 = 0 then h
  else
    { h with
      count := Function.update h.count r (h.count r - 1)
      destroyed := if h.count r = 1 then r :: h.destroyed else h.destroyed }

def setStorage (h : Heap K Sto) (S : Sto) (r : Option (Ref K)) : Heap K Sto :=
  { h with storage := Function.update h.storage S r }

def addHandle (h : Heap K Sto) (r : Ref K) : Heap K Sto :=
  if r.2 = 0 then h else { h with handles := Function.update h.handles r (h.handles r + 1) }

def takeHandle (h : Heap K Sto) (r : Ref K) : Option (Heap K Sto) :=
  if r.2 = 0 then some h
  else if h.handles r = 0 then none
  else some { h with handles := Function.update h.handles r (h.handles r - 1) }

def alloc [Fintype K] (h : Heap K Sto) (r : Ref K) : Option (Heap K Sto) :=
  if r.2 ≠ 0 ∧ r.2 % 4 = 0 ∧ ∀ k, h.count (k, r.2) = 0 then some ((h.inc r).addHandle r) else none

/-- A pointer of the kind `k` is made from one of the same allocation: a clone, a downgrade, or an
upgrade, which comes out empty where nothing is counted any more. -/
def derive (upgrades : K → Bool) (h : Heap K Sto) (r : Ref K) (k : K) : Nat × Heap K Sto :=
  if upgrades k ∧ h.count (k, r.2) = 0 then (0, h)
  else (r.2, (h.inc (k, r.2)).addHandle (k, r.2))

end Heap

/-- What a program does next with its storages, pointers and guards. The pointers it gives away have
the kind of the storage, and it names its guards by their place among them. -/
inductive Op (K Sto : Type)
  | alloc (r : Ref K)
  | derive (r : Ref K) (k : K)
  | dropHandle (r : Ref K)
  | create (S : Sto) (r : Ref K)
  | load (S : Sto)
  | loadFull (S : Sto)
  | swap (S : Sto) (new : Nat)
  | store (S : Sto) (new : Nat)
  | cas (S : Sto) (current new spurious : Nat)
  | rcu (S : Sto) (f : Nat → Nat) (spurious : Nat)
  | intoInner (S : Sto)
  | dropStorage (S : Sto)
  | guardDrop (i : Nat)
  | guardIntoInner (i : Nat)
  | guardFromInner (r : Ref K)
  | guardDerive (i : Nat) (k : K)

/-- The plain cell: every load clones the pointer, and a guard is a pointer. -/
structure Cell (K Sto : Type) extends Heap K Sto where
  guards : List (Ref K)

namespace Cell

def map (c : Cell K Sto) (h : Heap K Sto → Heap K Sto) : Cell K Sto := { c with toHeap := h c.toHeap }

def addGuard (c : Cell K Sto) (r : Ref K) : Cell K Sto := { c with guards := r :: c.guards }

def takeHandle (c : Cell K Sto) (r : Ref K) : Option (Cell K Sto) :=
  (c.toHeap.takeHandle r).map fun h => { c with toHeap := h }

def takeGuard (c : Cell K Sto) (i : Nat) : Option (Ref K × Cell K Sto) :=
  c.guards[i]?.map fun r => (r, { c with guards := c.guards.eraseIdx i })

def step [Fintype K] (upgrades : K → Bool) (c : Cell K Sto) : Op K Sto → Option (Cell K Sto × Nat)
  | .alloc r => (c.toHeap.alloc r).map fun h => ({ c with toHeap := h }, r.2)
  | .derive r k =>
    (c.takeHandle r).map fun _ =>
      (c.map fun h => (h.derive upgrades r k).2, (c.toHeap.derive upgrades r k).1)
  | .dropHandle r => (c.takeHandle r).map fun c => (c.map (·.dec r), 0)
  | .create S r =>
    if c.storage S = none then
      (c.takeHandle r).map fun c => (c.map (·.setStorage S (some r)), 0)
    else none
  | .load S => (c.storage S).map fun r => ((c.map (·.inc r)).addGuard r, r.2)
  | .loadFull S => (c.storage S).map fun r => (c.map fun h => (h.inc r).addHandle r, r.2)
  | .swap S new =>
    (c.storage S).bind fun old => (c.takeHandle (old.1, new)).map fun c =>
      (c.map fun h => (h.setStorage S (some (old.1, new))).addHandle old, old.2)
  | .store S new =>
    (c.storage S).bind fun old => (c.takeHandle (old.1, new)).map fun c =>
      (c.map fun h => (h.setStorage S (some (old.1, new))).dec old, 0)
  | .cas S current new _ =>
    (c.storage S).bind fun old => (c.takeHandle (old.1, new)).map fun c =>
      ((if old.2 = current then c.map (·.setStorage S (some (old.1, new)))
        else c.map fun h => (h.inc old).dec (old.1, new)).addGuard old, old.2)
  | .rcu S f _ =>
    (c.storage S).bind fun old => (c.takeHandle (old.1, f old.2)).map fun c =>
      (c.map fun h => (h.setStorage S (some (old.1, f old.2))).addHandle old, old.2)
  | .intoInner S =>
    (c.storage S).map fun r => (c.map fun h => (h.setStorage S none).addHandle r, r.2)
  | .dropStorage S => (c.storage S).map fun r => (c.map fun h => (h.setStorage S none).dec r, 0)
  | .guardDrop i => (c.takeGuard i).map fun (r, c) => (c.map (·.dec r), 0)
  | .guardIntoInner i => (c.takeGuard i).map fun (r, c) => (c.map (·.addHandle r), r.2)
  | .guardFromInner r => (c.takeHandle r).map fun c => (c.addGuard r, r.2)
  | .guardDerive i k =>
    c.guards[i]?.map fun r =>
      (c.map fun h => (h.derive upgrades r k).2, (c.toHeap.derive upgrades r k).1)

def run [Fintype K] (upgrades : K → Bool) (c : Cell K Sto) :
    List (Op K Sto) → Option (Cell K Sto × List Nat)
  | [] => some (c, [])
  | op :: ops =>
    (c.step upgrades op).bind fun (c', v) => (c'.run upgrades ops).map fun (c'', vs) => (c'', v :: vs)

def empty : Cell K Sto := ⟨⟨fun _ => none, fun _ => 0, fun _ => 0, []⟩, []⟩

end Cell

end ArcSwap.Sequential
