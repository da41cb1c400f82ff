import ArcSwap.Generation
import ArcSwap.Sequential.Heap

namespace ArcSwap.Sequential
set_option autoImplicit true

/-- The strategy of a storage: `HybridStrategy` with or without fast slots, or `RwLock<()>`. -/
inductive Strategy
  | hybrid (useFast : Bool)
  | rwLock
deriving DecidableEq

structure Config (K Sto : Type) where
  width : Nat
  strategy : Sto → Strategy
  upgrades : K → Bool

/-- `Guard`, that is `HybridProtection` or, without a debt, the pointer itself. -/
structure Guard (K Thr : Type) where
  ref : Ref K
  debt : Option (Debt Thr)
deriving DecidableEq

/-- The memory between two operations, with the nodes of the threads. The field `lender` is history:
it tells for which count the debt in a slot was recorded. -/
structure Mem (K Thr Sto : Type) extends Heap K Sto where
  debt : Debt Thr → Nat
  control : Thr → Nat
  generation : Thr → Nat
  offset : Thr → Nat
  listHead : List Thr
  guards : List (Guard K Thr)
  lender : Debt Thr → Option K

variable {K Thr Sto : Type} [DecidableEq K] [DecidableEq Thr] [DecidableEq Sto]

namespace Mem

def map (m : Mem K Thr Sto) (f : Heap K Sto → Heap K Sto) : Mem K Thr Sto :=
  { m with toHeap := f m.toHeap }

def addGuard (m : Mem K Thr Sto) (g : Guard K Thr) : Mem K Thr Sto :=
  { m with guards := g :: m.guards }

def takeHandle (m : Mem K Thr Sto) (r : Ref K) : Option (Mem K Thr Sto) :=
  (m.toHeap.takeHandle r).map fun h => { m with toHeap := h }

def takeGuard (m : Mem K Thr Sto) (i : Nat) : Option (Guard K Thr × Mem K Thr Sto) :=
  m.guards[i]?.map fun g => (g, { m with guards := m.guards.eraseIdx i })

/-- `LocalNode::with`: the first time, a thread gets a node. -/
def enter (m : Mem K Thr Sto) (t : Thr) : Mem K Thr Sto :=
  if t ∈ m.listHead then m else { m with listHead := t :: m.listHead }

def lend (m : Mem K Thr Sto) (d : Debt Thr) (r : Ref K) : Mem K Thr Sto :=
  { m with
    debt := Function.update m.debt d r.2
    lender := Function.update m.lender d (some r.1) }

def clear (m : Mem K Thr Sto) (d : Debt Thr) : Mem K Thr Sto :=
  { m with
    debt := Function.update m.debt d debtNone
    lender := Function.update m.lender d none }

def pay (m : Mem K Thr Sto) (d : Debt Thr) (ptr : Nat) : Mem K Thr Sto × Bool :=
  if m.debt d = ptr then (m.clear d, true) else (m, false)

def newFast (m : Mem K Thr Sto) (t : Thr) (r : Ref K) : Option (Debt Thr × Mem K Thr Sto) :=
  ((List.range 8).find? fun i => m.debt (fastSlot t (i + m.offset t)) = debtNone).map fun i =>
    (fastSlot t (i + m.offset t),
      { m.lend (fastSlot t (i + m.offset t)) r with
        offset := Function.update m.offset t ((i + m.offset t) % 8 + 1) })

def intoInner (m : Mem K Thr Sto) (g : Guard K Thr) : Mem K Thr Sto :=
  match g.debt with
  | none => m
  | some d =>
    let (m', paid) := (m.map (·.inc g.ref)).pay d g.ref.2
    if paid then m' else m'.map (·.dec g.ref)

def guardDrop (m : Mem K Thr Sto) (g : Guard K Thr) : Mem K Thr Sto :=
  match g.debt with
  | none => m.map (·.dec g.ref)
  | some d =>
    let (m', paid) := m.pay d g.ref.2
    if paid then m' else m'.map (·.dec g.ref)

def attempt (m : Mem K Thr Sto) (t : Thr) (S : Sto) :
    Option (Option (Guard K Thr) × Mem K Thr Sto) :=
  (m.storage S).map fun r =>
    match m.newFast t r with
    | none => (none, m)
    | some (d, m₁) =>
      if m₁.storage S = some r then (some ⟨r, some d⟩, m₁)
      else
        let (m₂, paid) := m₁.pay d r.2
        (if paid then none else some ⟨r, none⟩, m₂)

def newHelping (m : Mem K Thr Sto) (t : Thr) (gen generation : Nat) : Mem K Thr Sto :=
  { m with
    generation := Function.update m.generation t generation
    control := Function.update m.control t gen }

/-- `helping::Slots::confirm` up to the exchange, which leaves the control idle. -/
def confirm (m : Mem K Thr Sto) (t : Thr) (r : Ref K) : Mem K Thr Sto :=
  { m.lend (helpingSlot t) r with control := Function.update m.control t idle }

/-- `HybridProtection::fallback`. It comes to nothing where `new_helping` gives the node up, and
where a writer has helped, as none does in the middle of an operation of another thread. -/
def fallback (width : Nat) (m : Mem K Thr Sto) (t : Thr) (S : Sto) :
    Option (Guard K Thr × Mem K Thr Sto) :=
  let (gen, discard, generation) := getDebt width (m.generation t)
  let m₁ := m.newHelping t gen generation
  (m₁.storage S).bind fun r =>
    if discard ∨ m₁.control t ≠ gen then none
    else some (⟨r, none⟩, (m₁.confirm t r).intoInner ⟨r, some (helpingSlot t)⟩)

def load (cfg : Config K Sto) (m : Mem K Thr Sto) (t : Thr) (S : Sto) :
    Option (Guard K Thr × Mem K Thr Sto) :=
  match cfg.strategy S with
  | .rwLock => (m.storage S).map fun r => (⟨r, none⟩, m.map (·.inc r))
  | .hybrid true =>
    ((m.enter t).attempt t S).bind fun
      | (some g, m') => some (g, m')
      | (none, m') => m'.fallback cfg.width t S
  | .hybrid false => (m.enter t).fallback cfg.width t S

def paySlot (r : Ref K) (m : Mem K Thr Sto) (d : Debt Thr) : Mem K Thr Sto :=
  let (m', paid) := m.pay d r.2
  if paid then m'.map (·.inc r) else m'

/-- A node in `Debt::pay_all`. In the middle of an operation no other thread is in a transaction, and
`help` finds the control idle. -/
def payNode (r : Ref K) (m : Mem K Thr Sto) (n : Thr) : Option (Mem K Thr Sto) :=
  if m.control n = idle then
    some (((List.finRange 9).map fun j => (n, j)).foldl (paySlot r) m)
  else none

def payAll (m : Mem K Thr Sto) (t : Thr) (r : Ref K) : Option (Mem K Thr Sto) :=
  ((m.enter t).listHead.foldlM (payNode r) ((m.enter t).map (·.inc r))).map (·.map (·.dec r))

def waitForReaders (cfg : Config K Sto) (m : Mem K Thr Sto) (t : Thr) (S : Sto) (r : Ref K) :
    Option (Mem K Thr Sto) :=
  match cfg.strategy S with
  | .rwLock => some m
  | .hybrid _ => m.payAll t r

def swap (cfg : Config K Sto) (m : Mem K Thr Sto) (t : Thr) (S : Sto) (new : Nat) :
    Option (Ref K × Mem K Thr Sto) :=
  (m.storage S).bind fun old =>
    ((m.map (·.setStorage S (some (old.1, new)))).waitForReaders cfg t S old).map fun m' => (old, m')

/-- What `ArcSwapAny::into_inner` and `drop` have in common, with the pointer that the one returns
and the other releases. -/
def remove (cfg : Config K Sto) (m : Mem K Thr Sto) (t : Thr) (S : Sto) :
    Option (Ref K × Mem K Thr Sto) :=
  (m.storage S).bind fun old =>
    (m.waitForReaders cfg t S old).map fun m' => (old, m'.map (·.setStorage S none))

/-- `HybridStrategy::compare_and_swap`. Its exchange fails `spurious` times before it can succeed. -/
def hybridCas (cfg : Config K Sto) (t : Thr) (S : Sto) (current new : Nat) :
    Nat → Mem K Thr Sto → Option (Guard K Thr × Mem K Thr Sto)
  | spurious, m =>
    (m.load cfg t S).bind fun (old, m₁) =>
      if old.ref.2 ≠ current then some (old, m₁.map (·.dec (old.ref.1, new)))
      else
        match spurious with
        | n + 1 => hybridCas cfg t S current new n (m₁.guardDrop old)
        | 0 =>
          if m₁.storage S = some (old.ref.1, current) then
            ((m₁.map (·.setStorage S (some (old.ref.1, new)))).waitForReaders cfg t S old.ref).map
              fun m₂ => (old, m₂.map (·.dec old.ref))
          else none

def rwLockCas (m : Mem K Thr Sto) (S : Sto) (current new : Nat) :
    Option (Guard K Thr × Mem K Thr Sto) :=
  (m.storage S).map fun old =>
    (⟨old, none⟩,
      if old.2 = current then m.map (·.setStorage S (some (old.1, new)))
      else m.map fun h => (h.inc old).dec (old.1, new))

def cas (cfg : Config K Sto) (m : Mem K Thr Sto) (t : Thr) (S : Sto) (current new spurious : Nat) :
    Option (Guard K Thr × Mem K Thr Sto) :=
  match cfg.strategy S with
  | .rwLock => m.rwLockCas S current new
  | .hybrid _ => hybridCas cfg t S current new spurious m

/-- The loop of `ArcSwapAny::rcu`, with as many rounds as are allowed. -/
def rcuLoop (cfg : Config K Sto) (t : Thr) (S : Sto) (f : Nat → Nat) (spurious : Nat) :
    Nat → Guard K Thr → Mem K Thr Sto → Option (Ref K × Mem K Thr Sto)
  | 0, _, _ => none
  | n + 1, cur, m =>
    (m.takeHandle (cur.ref.1, f cur.ref.2)).bind fun m₁ =>
      (m₁.cas cfg t S cur.ref.2 (f cur.ref.2) spurious).bind fun (prev, m₂) =>
        if cur.ref.2 = prev.ref.2 then some (prev.ref, (m₂.intoInner prev).guardDrop cur)
        else rcuLoop cfg t S f spurious n prev (m₂.guardDrop cur)

def step [Fintype K] (cfg : Config K Sto) (rounds : Nat) (m : Mem K Thr Sto) (t : Thr) :
    Op K Sto → Option (Mem K Thr Sto × Nat)
  | .alloc r => (m.toHeap.alloc r).map fun h => ({ m with toHeap := h }, r.2)
  | .derive r k =>
    (m.takeHandle r).map fun _ =>
      (m.map fun h => (h.derive cfg.upgrades r k).2, (m.toHeap.derive cfg.upgrades r k).1)
  | .dropHandle r => (m.takeHandle r).map fun m => (m.map (·.dec r), 0)
  | .create S r =>
    if m.storage S = none then
      (m.takeHandle r).map fun m => (m.map (·.setStorage S (some r)), 0)
    else none
  | .load S => (m.load cfg t S).map fun (g, m) => (m.addGuard g, g.ref.2)
  | .loadFull S =>
    (m.load cfg t S).map fun (g, m) => ((m.intoInner g).map (·.addHandle g.ref), g.ref.2)
  | .swap S new =>
    (m.storage S).bind fun old => (m.takeHandle (old.1, new)).bind fun m =>
      (m.swap cfg t S new).map fun (r, m) => (m.map (·.addHandle r), r.2)
  | .store S new =>
    (m.storage S).bind fun old => (m.takeHandle (old.1, new)).bind fun m =>
      (m.swap cfg t S new).map fun (r, m) => (m.map (·.dec r), 0)
  | .cas S current new spurious =>
    (m.storage S).bind fun old => (m.takeHandle (old.1, new)).bind fun m =>
      (m.cas cfg t S current new spurious).map fun (g, m) => (m.addGuard g, g.ref.2)
  | .rcu S f spurious =>
    (m.load cfg t S).bind fun (cur, m) =>
      (rcuLoop cfg t S f spurious (rounds + 1) cur m).map fun (r, m) =>
        (m.map (·.addHandle r), r.2)
  | .intoInner S => (m.remove cfg t S).map fun (r, m) => (m.map (·.addHandle r), r.2)
  | .dropStorage S => (m.remove cfg t S).map fun (r, m) => (m.map (·.dec r), 0)
  | .guardDrop i => (m.takeGuard i).map fun (g, m) => (m.guardDrop g, 0)
  | .guardIntoInner i =>
    (m.takeGuard i).map fun (g, m) => ((m.intoInner g).map (·.addHandle g.ref), g.ref.2)
  | .guardFromInner r => (m.takeHandle r).map fun m => (m.addGuard ⟨r, none⟩, r.2)
  | .guardDerive i k =>
    m.guards[i]?.map fun g =>
      (m.map fun h => (h.derive cfg.upgrades g.ref k).2, (m.toHeap.derive cfg.upgrades g.ref k).1)

def run [Fintype K] (cfg : Config K Sto) (rounds : Nat) (m : Mem K Thr Sto) :
    List (Thr × Op K Sto) → Option (Mem K Thr Sto × List Nat)
  | [] => some (m, [])
  | (t, op) :: ops =>
    (m.step cfg rounds t op).bind fun (m', v) =>
      (m'.run cfg rounds ops).map fun (m'', vs) => (m'', v :: vs)

def empty : Mem K Thr Sto where
  storage _ := none
  count _ := 0
  handles _ := 0
  destroyed := []
  debt _ := debtNone
  control _ := idle
  generation _ := 0
  offset _ := 0
  listHead := []
  guards := []
  lender _ := none

end Mem

end ArcSwap.Sequential
