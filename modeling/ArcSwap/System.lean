import ArcSwap.Step
import Mathlib.Data.Fintype.Basic
import Mathlib.Data.Fintype.Prod

namespace ArcSwap
set_option autoImplicit true

/-- The shared memory with the call stack of each thread, innermost activation first. -/
structure State (Thr Sto : Type) where
  mem : Shared Thr Sto
  stack : Thr → List (Frame Thr Sto)

/-- What a thread does next: the next step or the return of its innermost activation, taking a
node (`LocalNode::with`), or something user code does with the storages and pointers. -/
inductive Action (Thr Sto : Type)
  | run (spurious : Bool)
  | ret
  | claim
  | alloc (a : Nat)
  | clone (a : Nat)
  | cloneGuard (g : Guard Thr)
  | cloneCur
  | dropHandle (a : Nat)
  | create (S : Sto) (a : Nat)
  | load (S : Sto)
  | loadFull (S : Sto)
  | swap (S : Sto) (new : Nat)
  | store (S : Sto) (new : Nat)
  | cas (S : Sto) (current new : Nat)
  | rcu (S : Sto)
  | intoInner (S : Sto)
  | dropStorage (S : Sto)
  | guardDrop (g : Guard Thr)
  | guardIntoInner (g : Guard Thr)
  | guardFromInner (a : Nat)
  | closureRet (new : Nat)
  | userRet

variable {Thr Sto : Type} [DecidableEq Thr] [DecidableEq Sto]

def Frame.storage : Frame Thr Sto → Option Sto
  | .load S _ _ _ | .payAll _ S _ | .swap _ S _ _ | .cas _ S _ _ _ _ | .rcu _ S _ => some S
  | _ => none

/-- User code runs outside of calls, in destructors and in closures. -/
def atUser : List (Frame Thr Sto) → Bool
  | [] | .user :: _ | .rcu _ _ (.closure _ _) :: _ => true
  | _ => false

namespace Shared

def addHandle (m : Shared Thr Sto) (a : Nat) : Shared Thr Sto :=
  { m with handles := Function.update m.handles a (m.handles a + 1) }

/-- User code gives a pointer away; null is not owned. -/
def takeHandle (m : Shared Thr Sto) (a : Nat) : Option (Shared Thr Sto) :=
  if a = 0 then some m
  else if m.handles a = 0 then none
  else some { m with handles := Function.update m.handles a (m.handles a - 1) }

def addGuard (m : Shared Thr Sto) (g : Guard Thr) : Shared Thr Sto :=
  { m with guards := Function.update m.guards g (m.guards g + 1) }

def takeGuard (m : Shared Thr Sto) (g : Guard Thr) : Option (Shared Thr Sto) :=
  if m.guards g = 0 then none
  else some { m with guards := Function.update m.guards g (m.guards g - 1) }

def newOp (m : Shared Thr Sto) : Shared Thr Sto := { m with nextOp := m.nextOp + 1 }

/-- An allocation gives some free address, possibly one used before. -/
def allocate (m : Shared Thr Sto) (a : Nat) : Option (Shared Thr Sto) :=
  if a = 0 ∨ a = debtNone ∨ m.strong a ≠ 0 then none
  else some { m with
    strong := Function.update m.strong a 1
    epoch := Function.update m.epoch a (m.epoch a + 1) }

end Shared

def Shared.give (m : Shared Thr Sto) : Ret Thr → Shared Thr Sto
  | .guard g => m.addGuard g
  | .handle a => m.addHandle a
  | .unit => m

def Shared.record (m : Shared Thr Sto) (f : Frame Thr Sto) : Shared Thr Sto :=
  { m with calls := (f.call m).toList ++ m.calls }

/-- An attempt of `rcu` is part of its call and not remembered on its own. -/
def Shared.recordFor (m : Shared Thr Sto) (caller f : Frame Thr Sto) : Shared Thr Sto :=
  match caller with
  | .rcu _ _ (.cas _ _ _) => m
  | _ => m.record f

def retStep (m : Shared Thr Sto) :
    List (Frame Thr Sto) → Option (Shared Thr Sto × List (Frame Thr Sto))
  | [] => none
  | f :: st =>
    f.result.map fun v =>
      match st with
      | [] => ((m.record f).give v, [])
      | g :: rest =>
        match g.resume m v with
        | some g' => (m.recordFor g f, g' :: rest)
        | none => ((m.record f).give v, g :: rest)

def closureStep (m : Shared Thr Sto) (new : Nat) :
    List (Frame Thr Sto) → Option (Shared Thr Sto × List (Frame Thr Sto))
  | .rcu op S (.closure cur arg) :: rest =>
    (m.takeHandle new).map fun m' =>
      (m', .cas op S cur.ptr new (m.objAt new) .retry ::
        .rcu op S (.cas cur arg (m.objAt new)) :: rest)
  | _ => none

/-- What user code does, on top of the stack `st`; `free S` says that no activation borrows `S`. -/
def userStep (m : Shared Thr Sto) (free : Sto → Bool) (st : List (Frame Thr Sto)) :
    Action Thr Sto → Option (Shared Thr Sto × List (Frame Thr Sto))
  | .alloc a => (m.allocate a).map fun m' => (m'.addHandle a, st)
  | .clone a => if m.handles a = 0 then none else some ((m.inc a).addHandle a, st)
  | .cloneGuard g => if m.guards g = 0 then none else some ((m.inc g.ptr).addHandle g.ptr, st)
  | .cloneCur =>
    match st with
    | .rcu _ _ (.closure cur _) :: _ => some ((m.inc cur.ptr).addHandle cur.ptr, st)
    | _ => none
  | .dropHandle a => (m.takeHandle a).map fun m' => (m', .discard (.dec a) :: st)
  | .create S a =>
    if m.storage S = none ∧ free S then
      (m.takeHandle a).map fun m' => ((m'.setStorage m.nextOp S (some a)).newOp, st)
    else none
  | .load S =>
    (m.storage S).map fun _ => (m.tick, .load S (m.stamp S) false .enter :: st)
  | .loadFull S =>
    (m.storage S).map fun _ => (m.tick, .load S (m.stamp S) true .enter :: st)
  | .swap S new =>
    (m.storage S).bind fun _ =>
      (m.takeHandle new).map fun m' => (m'.newOp, .swap m.nextOp S new .start :: st)
  | .store S new =>
    (m.storage S).bind fun _ =>
      (m.takeHandle new).map fun m' =>
        (m'.newOp, .swap m.nextOp S new .start :: .discard .await :: st)
  | .cas S current new =>
    (m.storage S).bind fun _ =>
      (m.takeHandle new).map fun m' =>
        (m'.newOp, .cas m.nextOp S current new (m.objAt new) .retry :: st)
  | .rcu S =>
    (m.storage S).map fun _ =>
      (m.newOp.tick, .load S (m.stamp S) false .enter :: .rcu m.nextOp S .load :: st)
  | .intoInner S =>
    if free S then
      (m.storage S).map fun ptr =>
        ((m.setStorage m.nextOp S none).newOp, .payAll ptr S .start :: st)
    else none
  | .dropStorage S =>
    if free S then
      (m.storage S).map fun ptr =>
        ((m.setStorage m.nextOp S none).newOp, .payAll ptr S .start :: .discard .await :: st)
    else none
  | .guardDrop g => (m.takeGuard g).map fun m' => (m', .guardDrop g .start :: st)
  | .guardIntoInner g => (m.takeGuard g).map fun m' => (m', .intoInner none g .start :: st)
  | .guardFromInner a => (m.takeHandle a).map fun m' => (m'.addGuard ⟨none, a⟩, st)
  | .closureRet new => closureStep m new st
  | .userRet =>
    match st with
    | .user :: rest => some (m, rest)
    | _ => none
  | .run _ | .ret | .claim => none

/-- `Node::get` for a thread without a node, from the point where the node is in the list. -/
def claimStep (t : Thr) (m : Shared Thr Sto) : Option (Shared Thr Sto) :=
  if t ∈ m.listHead then none
  else some { m with
    listHead := t :: m.listHead
    inUse := Function.update m.inUse t nodeUsed
    localNode := Function.update m.localNode t true }

def threadStep (cfg : Config Thr Sto) (t : Thr) (m : Shared Thr Sto) (free : Sto → Bool)
    (st : List (Frame Thr Sto)) : Action Thr Sto → Option (Shared Thr Sto × List (Frame Thr Sto))
  | .run spurious =>
    match st with
    | [] => none
    | f :: rest => (f.step cfg t m spurious).map fun r => (r.1, r.2 ++ rest)
  | .ret => retStep m st
  | .claim => (claimStep t m).map fun m' => (m', st)
  | a => if atUser st then userStep m free st a else none

variable [Fintype Thr]

def State.free (σ : State Thr Sto) (S : Sto) : Bool :=
  decide (∀ t, ∀ f ∈ σ.stack t, f.storage ≠ some S)

def State.step (cfg : Config Thr Sto) (l : Thr × Action Thr Sto) (σ : State Thr Sto) :
    Option (State Thr Sto) :=
  (threadStep cfg l.1 σ.mem σ.free (σ.stack l.1) l.2).map fun r =>
    ⟨r.1, Function.update σ.stack l.1 r.2⟩

def State.initial (cfg : Config Thr Sto) : State Thr Sto where
  mem :=
    { storage := fun _ => none
      strong := fun _ => 0
      debt := fun _ => debtNone
      control := fun _ => idle
      activeAddr := fun _ => none
      handover := fun _ => 0
      spaceOffer := cfg.handover
      inUse := fun _ => nodeUsed
      activeWriters := fun _ => 0
      listHead := []
      localNode := fun _ => false
      generation := fun _ => 0
      offset := fun _ => 0
      handles := fun _ => 0
      guards := fun _ => 0
      epoch := fun _ => 0
      log := fun _ => []
      nextOp := 0
      calls := []
      clock := 0
      published := fun _ => 0
      publishedAt := fun _ => ⟨0, 0⟩
      offered := fun _ => none
      sent := []
      received := [] }
  stack := fun _ => []

def machine (cfg : Config Thr Sto) : Concurrent.Machine (State Thr Sto) (Thr × Action Thr Sto) where
  init σ := σ = State.initial cfg
  step := State.step cfg

end ArcSwap
