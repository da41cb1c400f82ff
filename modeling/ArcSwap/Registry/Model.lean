import ArcSwap.Generation
import ArcSwap.Concurrent.Linked

namespace ArcSwap.Registry
set_option autoImplicit true

inductive Turn (L : Type)
  | claimed (l : L)
  | released (l : L)
deriving DecidableEq

def holder : List (Turn L) → Option L
  | .claimed l :: _ => some l
  | _ => none

@[simp] theorem holder_claimed (l : L) (es : List (Turn L)) : holder (.claimed l :: es) = some l :=
  rfl

@[simp] theorem holder_released (l : L) (es : List (Turn L)) : holder (.released l :: es) = none :=
  rfl

def Turn.isClaim : Turn L → Bool
  | .claimed _ => true
  | .released _ => false

/-- The list of nodes, and of each node what its claims, its cooldowns and its debts need. The
fields from `published` on are history: no step depends on them. -/
structure Shared (Node L Sto : Type) where
  listHead : Option Node
  next : Node → Option Node
  inUse : Node → Nat
  activeWriters : Node → Nat
  control : Node → Nat
  activeAddr : Node → Option Sto
  debt : Debt Node → Nat
  allocated : Node → Bool
  guards : Debt Node → Nat → Nat
  published : List Node
  turns : Node → List (Turn L)
  publisher : Node → Nat
  paid : Debt Node → Nat → Nat
  consumed : Debt Node → Nat → Nat

/-- Why a node is put into cooldown: its `LocalNode` is dropped, or the generation `gen` wrapped. -/
inductive Why
  | drop
  | discard (gen : Nat)
deriving DecidableEq

/-- What the owner of a `LocalNode` is doing with it: `Node::get` up to `prepend`,
`fast::Slots::get_debt` and the rest of `attempt` up to `settle`, `new_helping` up to `release`, and
then the rest of `fallback`. -/
inductive LocalPc (Node Sto : Type)
  | rest
  | head
  | inUse (n : Node)
  | writers (n : Node)
  | exchange (n : Node) (epoch : Nat)
  | claim (n : Node)
  | next (n : Node)
  | alloc
  | loadHead (node : Node)
  | link (node : Node) (head : Option Node)
  | prepend (node : Node) (head : Option Node)
  | scan (ptr i : Nat)
  | take (ptr i : Nat)
  | confirm (d : Debt Node) (ptr : Nat)
  | settle (d : Debt Node) (ptr : Nat)
  | setAddr (S : Sto)
  | setControl (gen : Nat) (discard : Bool)
  | reserve (why : Why)
  | cooldown (why : Why) (since : Nat)
  | release (why : Why) (since : Nat)
  | candidate (gen : Nat)
  | setSlot (gen ptr : Nat)
  | setIdle (gen ptr : Nat)
  | wrongControl
  | assertion
  | panic
deriving DecidableEq

/-- A `LocalNode`, that of a thread or a temporary one. `snapshot` is the list at the last read of
its head, and `visited` what the traversal has come to of it since. -/
structure Local (Node Sto : Type) extends LocalNode Node where
  offset : Nat
  pc : LocalPc Node Sto
  snapshot : List Node
  visited : List Node

/-- What a writer does in `Debt::pay_all`. `todo` are the slots of the node that remain. -/
inductive WriterPc (Node : Type)
  | rest
  | head
  | reserve (n : Node)
  | load (n : Node)
  | addr (n : Node) (control : Nat)
  | recheck (n : Node) (control : Nat)
  | offer (n : Node) (control : Nat)
  | pay (n : Node) (todo : List (Fin 9))
  | next (n : Node)
  | unwind (n : Node)
  | done
deriving DecidableEq

/-- A traversal of `Debt::pay_all`. `since` tells in which cooldown of the node its reservation was
taken, and `publisher` in which claim the word was published that it has read. -/
structure Writer (Node Sto : Type) where
  storage : Option Sto
  ptr : Nat
  pc : WriterPc Node
  since : Nat
  publisher : Nat
  snapshot : List Node
  visited : List Node

variable {Node L W Sto : Type} [DecidableEq Node] [DecidableEq L] [DecidableEq Sto]

namespace Shared

def claims (m : Shared Node L Sto) (n : Node) : Nat := (m.turns n).countP Turn.isClaim

def cooldowns (m : Shared Node L Sto) (n : Node) : Nat := (m.turns n).countP (!·.isClaim)

def setInUse (m : Shared Node L Sto) (n : Node) (w : Nat) : Shared Node L Sto :=
  { m with inUse := Function.update m.inUse n w }

def setControl (m : Shared Node L Sto) (n : Node) (w : Nat) : Shared Node L Sto :=
  { m with control := Function.update m.control n w }

def setDebt (m : Shared Node L Sto) (d : Debt Node) (w : Nat) : Shared Node L Sto :=
  { m with debt := Function.update m.debt d w }

def turn (m : Shared Node L Sto) (n : Node) (e : Turn L) : Shared Node L Sto :=
  { m with turns := Function.update m.turns n (e :: m.turns n) }

def reserve (m : Shared Node L Sto) (n : Node) : Shared Node L Sto :=
  { m with activeWriters := Function.update m.activeWriters n (m.activeWriters n + 1) }

def unreserve (m : Shared Node L Sto) (n : Node) : Shared Node L Sto :=
  { m with activeWriters := Function.update m.activeWriters n (m.activeWriters n - 1) }

def allocate (m : Shared Node L Sto) (n : Node) : Shared Node L Sto :=
  { m with
    next := Function.update m.next n none
    inUse := Function.update m.inUse n nodeUsed
    activeWriters := Function.update m.activeWriters n 0
    control := Function.update m.control n idle
    activeAddr := Function.update m.activeAddr n none
    debt := fun d => if d.1 = n then debtNone else m.debt d
    allocated := Function.update m.allocated n true }

/-- `Debt::pay` by the one the debt is of: where the debt is paid already, the reference that paid
it is released or turned into a handle. -/
def settle (m : Shared Node L Sto) (d : Debt Node) (ptr : Nat) : Shared Node L Sto :=
  if m.debt d = ptr then m.setDebt d debtNone
  else
    { m with
      consumed := Function.update m.consumed d
        (Function.update (m.consumed d) ptr (m.consumed d ptr + 1)) }

def pay (m : Shared Node L Sto) (d : Debt Node) (ptr : Nat) : Shared Node L Sto :=
  if m.debt d = ptr then
    { m.setDebt d debtNone with
      paid := Function.update m.paid d
        (Function.update (m.paid d) ptr (m.paid d ptr + 1)) }
  else m

def setGuards (m : Shared Node L Sto) (d : Debt Node) (ptr k : Nat) : Shared Node L Sto :=
  { m with guards := Function.update m.guards d (Function.update (m.guards d) ptr k) }

end Shared

/-- What a step takes from outside: the address of a new node, the content of a storage or the
address of an envelope, and whether an exchange fails spuriously, a storage is unchanged or debug
assertions are checked. -/
structure Input (Node : Type) where
  fresh : Node
  word : Nat
  flag : Bool

/-- What is done with a `LocalNode` next. The pointer of a load is the one it has read. -/
inductive Op (Sto : Type)
  | get
  | attempt (ptr : Nat)
  | fallback (S : Sto)
  | drop

namespace Local

def fresh : Local Node Sto := ⟨⟨none, 0⟩, 0, .rest, [], []⟩

def goto (x : Local Node Sto) (pc : LocalPc Node Sto) : Local Node Sto := { x with pc := pc }

def visit (x : Local Node Sto) : Option Node → Local Node Sto
  | some n => { x with pc := .inUse n, visited := x.visited ++ [n] }
  | none => { x with pc := .alloc }

def begin (x : Local Node Sto) (op : Op Sto) : Option (Local Node Sto) :=
  match x.pc, op with
  | .rest, .get => if x.node.isNone then some (x.goto .head) else none
  | .rest, .attempt ptr =>
    if x.node.isSome ∧ ptr ≠ debtNone then some (x.goto (.scan ptr 0)) else none
  | .rest, .fallback S => if x.node.isSome then some (x.goto (.setAddr S)) else none
  | .rest, .drop => some (if x.node.isSome then x.goto (.reserve .drop) else fresh)
  | _, _ => none

def step (w : Nat) (l : L) (i : Input Node) (m : Shared Node L Sto) (x : Local Node Sto) :
    Option (Shared Node L Sto × Local Node Sto) :=
  match x.pc with
  | .rest => none
  | .head => some (m, { x with snapshot := m.published, visited := [] }.visit m.listHead)
  | .inUse n => some (m, x.goto (if m.inUse n = nodeCooldown then .writers n else .claim n))
  | .writers n =>
    some (m, x.goto (if m.activeWriters n = 0 then .exchange n (m.cooldowns n) else .claim n))
  | .exchange n _ =>
    some (if m.inUse n = nodeCooldown then m.setInUse n nodeUnused else m, x.goto (.claim n))
  | .claim n =>
    if m.inUse n = nodeUnused then
      some ((m.setInUse n nodeUsed).turn n (.claimed l), { x with node := some n, pc := .rest })
    else some (m, x.goto (.next n))
  | .next n => some (m, x.visit (m.next n))
  | .alloc =>
    if m.allocated i.fresh then none
    else some ((m.allocate i.fresh).turn i.fresh (.claimed l), x.goto (.loadHead i.fresh))
  | .loadHead node => some (m, x.goto (.link node m.listHead))
  | .link node head =>
    some ({ m with next := Function.update m.next node head }, x.goto (.prepend node head))
  | .prepend node head =>
    if m.listHead = head ∧ i.flag = false then
      some ({ m with listHead := some node, published := node :: m.published },
        { x with node := some node, pc := .rest })
    else some (m, x.goto (.link node m.listHead))
  | .scan ptr k =>
    x.node.map fun n => (m, x.goto (
      if k = 8 then .rest
      else if m.debt (fastSlot n (k + x.offset)) = debtNone then .take ptr (k + x.offset)
      else .scan ptr (k + 1)))
  | .take ptr k =>
    x.node.map fun n => (m.setDebt (fastSlot n k) ptr,
      { x with offset := k % 8 + 1, pc := .confirm (fastSlot n k) ptr })
  | .confirm d ptr =>
    some (if i.flag then (m.setGuards d ptr (m.guards d ptr + 1), x.goto .rest)
      else (m, x.goto (.settle d ptr)))
  | .settle d ptr => some (m.settle d ptr, x.goto .rest)
  | .setAddr S =>
    x.node.map fun n => ({ m with activeAddr := Function.update m.activeAddr n (some S) },
      { x with
        generation := (getDebt w x.generation).2.2
        pc := .setControl (getDebt w x.generation).1 (getDebt w x.generation).2.1 })
  | .setControl gen discard =>
    x.node.map fun n =>
      ({ m.setControl n gen with publisher := Function.update m.publisher n (m.claims n) },
        x.goto (if i.flag ∧ m.control n ≠ idle then .wrongControl
          else if discard then .reserve (.discard gen) else .candidate gen))
  | .reserve why =>
    x.node.map fun n => (m.reserve n, x.goto (.cooldown why (m.cooldowns n)))
  | .cooldown why since =>
    x.node.map fun n => ((m.setInUse n nodeCooldown).turn n (.released l),
      x.goto (if m.inUse n = nodeUsed then .release why since else .assertion))
  | .release why _ =>
    x.node.map fun n => (m.unreserve n,
      match why with
      | .drop => fresh
      | .discard gen => { x with node := none, pc := .candidate gen })
  | .candidate gen => if i.word = debtNone then none else some (m, x.goto (.setSlot gen i.word))
  | .setSlot gen ptr =>
    some (match x.node with
      | some n => (m.setDebt (helpingSlot n) ptr, x.goto (.setIdle gen ptr))
      | none => (m, x.goto .panic))
  | .setIdle _ ptr =>
    x.node.map fun n => (m.setControl n idle, x.goto (.settle (helpingSlot n) ptr))
  | .assertion => none
  | .wrongControl | .panic => some (m, x.goto .rest)

end Local

namespace Writer

def fresh : Writer Node Sto := ⟨none, debtNone, .rest, 0, 0, [], []⟩

def goto (x : Writer Node Sto) (pc : WriterPc Node) : Writer Node Sto := { x with pc := pc }

def visit (x : Writer Node Sto) : Option Node → Writer Node Sto
  | some n => { x with pc := .reserve n, visited := x.visited ++ [n] }
  | none => { x with pc := .done }

/-- What `help` does with a control word it has read; of a word that is none it makes a panic. -/
def look (m : Shared Node L Sto) (x : Writer Node Sto) (n : Node) : Writer Node Sto :=
  { x with
    publisher := m.publisher n
    pc :=
      if tagOf (m.control n) = genTag then .addr n (m.control n)
      else if m.control n = idle ∨ tagOf (m.control n) = replacementTag then
        .pay n (List.finRange 9)
      else .unwind n }

def begin (x : Writer Node Sto) (S : Sto) (ptr : Nat) : Option (Writer Node Sto) :=
  match x.pc with
  | .rest | .done =>
    if ptr = debtNone then none else some { x with storage := some S, ptr := ptr, pc := .head }
  | _ => none

def step (i : Input Node) (m : Shared Node L Sto) (x : Writer Node Sto) :
    Option (Shared Node L Sto × Writer Node Sto) :=
  match x.pc with
  | .rest => none
  | .head => some (m, { x with snapshot := m.published, visited := [] }.visit m.listHead)
  | .reserve n => some (m.reserve n, { x with since := m.cooldowns n, pc := .load n })
  | .load n => some (m, look m x n)
  | .addr n c =>
    some (m, x.goto (if m.activeAddr n = x.storage then .offer n c else .recheck n c))
  | .recheck n c => some (m, if m.control n = c then x.goto (.pay n (List.finRange 9)) else look m x n)
  | .offer n c =>
    if i.word % 4 = 0 then
      some (if m.control n = c then
          (m.setControl n (i.word ||| replacementTag), x.goto (.pay n (List.finRange 9)))
        else (m, look m x n))
    else none
  | .pay n (j :: js) => some (m.pay (n, j) x.ptr, x.goto (.pay n js))
  | .pay n [] => some (m.unreserve n, x.goto (.next n))
  | .next n => some (m, x.visit (m.next n))
  | .unwind n => some (m.unreserve n, x.goto .rest)
  | .done => none

/-- A panic of the replacement's load, or of the destructor of a replacement that is not used. -/
def abort (x : Writer Node Sto) : Option (Writer Node Sto) :=
  match x.pc with
  | .load n | .addr n _ | .recheck n _ | .offer n _ | .pay n _ => some (x.goto (.unwind n))
  | _ => none

end Writer

structure State (Node L W Sto : Type) where
  shared : Shared Node L Sto
  locals : L → Local Node Sto
  writers : W → Writer Node Sto

/-- A step of one of the `LocalNode`s or of one of the writers, or one of the `Guard`s that have
their debts recorded is dropped or turned into a handle, by whatever thread it has come to. -/
inductive Action (Node L W Sto : Type)
  | begin (l : L) (op : Op Sto)
  | run (l : L) (i : Input Node)
  | payAll (w : W) (S : Sto) (ptr : Nat)
  | walk (w : W) (i : Input Node)
  | abort (w : W)
  | dropGuard (d : Debt Node) (ptr : Nat)

variable [DecidableEq W]

namespace State

def setLocal (σ : State Node L W Sto) (l : L) (r : Shared Node L Sto × Local Node Sto) :
    State Node L W Sto :=
  { σ with shared := r.1, locals := Function.update σ.locals l r.2 }

def setWriter (σ : State Node L W Sto) (w : W) (r : Shared Node L Sto × Writer Node Sto) :
    State Node L W Sto :=
  { σ with shared := r.1, writers := Function.update σ.writers w r.2 }

def step (width : Nat) (σ : State Node L W Sto) :
    Action Node L W Sto → Option (State Node L W Sto)
  | .begin l op => ((σ.locals l).begin op).map fun x => σ.setLocal l (σ.shared, x)
  | .run l i => ((σ.locals l).step width l i σ.shared).map (σ.setLocal l)
  | .payAll w S ptr => ((σ.writers w).begin S ptr).map fun x => σ.setWriter w (σ.shared, x)
  | .walk w i => ((σ.writers w).step i σ.shared).map (σ.setWriter w)
  | .abort w => (σ.writers w).abort.map fun x => σ.setWriter w (σ.shared, x)
  | .dropGuard d ptr =>
    if σ.shared.guards d ptr = 0 then none
    else some { σ with
      shared := (σ.shared.setGuards d ptr (σ.shared.guards d ptr - 1)).settle d ptr }

end State

def start (Node L W Sto : Type) : State Node L W Sto where
  shared :=
    { listHead := none
      next := fun _ => none
      inUse := fun _ => nodeUnused
      activeWriters := fun _ => 0
      control := fun _ => idle
      activeAddr := fun _ => none
      debt := fun _ => debtNone
      allocated := fun _ => false
      guards := fun _ _ => 0
      published := []
      turns := fun _ => []
      publisher := fun _ => 0
      paid := fun _ _ => 0
      consumed := fun _ _ => 0 }
  locals := fun _ => .fresh
  writers := fun _ => .fresh

def registry (width : Nat) (Node L W Sto : Type) [DecidableEq Node] [DecidableEq L]
    [DecidableEq W] [DecidableEq Sto] :
    Concurrent.Machine (State Node L W Sto) (Action Node L W Sto) where
  init σ := σ = start Node L W Sto
  step a σ := σ.step width a

/-- Lets a `LocalNode` take a number of steps; what it reads as the candidate is the address 8. -/
def steps (l : L) (fresh : Node) (k : Nat) : List (Action Node L W Sto) :=
  List.replicate k (.run l ⟨fresh, 8, false⟩)

/-- A `LocalNode` gets the first node, which it allocates. -/
def getFirst (l : L) (fresh : Node) : List (Action Node L W Sto) :=
  .begin l .get :: steps l fresh 5

theorem reach_after (width : Nat)
    (ok : Action Nat Bool Unit Unit → State Nat Bool Unit Unit → Prop) [∀ a s, Decidable (ok a s)]
    (as : List (Action Nat Bool Unit Unit)) (p : State Nat Bool Unit Unit → Bool)
    (h : ((registry width Nat Bool Unit Unit).exec ok (as.map fun a _ => some a)
      (start Nat Bool Unit Unit)).any p = true) :
    ∃ σ, (registry width Nat Bool Unit Unit).Reach ok σ ∧ p σ = true := by
  rw [Option.any_eq_true] at h
  obtain ⟨σ, hσ, hp⟩ := h
  exact ⟨σ, .exec (.init rfl) hσ, hp⟩

end ArcSwap.Registry
