import ArcSwap.Memory
import ArcSwap.Concurrent.Machine
import ArcSwap.Concurrent.Lock
import Mathlib.Data.Fintype.Basic

namespace ArcSwap.RwLock
set_option autoImplicit true

/-- A finished load: the replacements its storage had seen when it began and when it ended. -/
structure Loaded (Sto : Type) where
  storage : Sto
  since : Nat
  till : Nat
  ret : Obj

/-- What the threads share. The fields from `epoch` on are history. -/
structure Shared (Sto : Type) where
  storage : Sto → Option Nat
  lock : Sto → Concurrent.Lock
  strong : Nat → Nat
  handles : Nat → Nat
  epoch : Nat → Nat
  log : Sto → List Update
  nextOp : Nat
  loads : List (Loaded Sto)

inductive LoadPc
  | lock
  | read
  | inc (ptr : Nat) (epoch : Nat)
  | unlock (ptr : Nat) (epoch : Nat)
  | done (ptr : Nat) (epoch : Nat)

inductive WaitPc
  | lock
  | unlock
  | done

inductive CasPc
  | lock
  | exchange
  | inc (old : Nat) (epoch : Nat)
  | dropNew (old : Nat)
  | unlock (old : Nat)
  | done (old : Nat)

/-- An activation on a thread's call stack. A pointer taken out of a storage is kept by `swap` and
`into_inner` and dropped by `store` and the storage's own `drop`. -/
inductive Frame (Sto : Type)
  | user
  | load (S : Sto) (since : Nat) (pc : LoadPc)
  | swap (op : Nat) (S : Sto) (new : Nat) (keep : Bool)
  | wait (S : Sto) (ptr : Nat) (keep : Bool) (pc : WaitPc)
  | cas (op : Nat) (S : Sto) (current new : Nat) (pc : CasPc)
  | discard (ptr : Option Nat)

variable {Thr Sto : Type} [DecidableEq Thr] [DecidableEq Sto]

namespace Shared

def inc (m : Shared Sto) (a : Nat) : Shared Sto :=
  if a = 0 then m else { m with strong := Function.update m.strong a (m.strong a + 1) }

def dec (m : Shared Sto) (a : Nat) : Shared Sto :=
  if a = 0 then m else { m with strong := Function.update m.strong a (m.strong a - 1) }

def destroys (m : Shared Sto) (a : Nat) : Bool := a ≠ 0 && m.strong a = 1

def objAt (m : Shared Sto) (a : Nat) : Obj := (a, m.epoch a)

def setLock (m : Shared Sto) (S : Sto) (l : Concurrent.Lock) : Shared Sto :=
  { m with lock := Function.update m.lock S l }

def setStorage (m : Shared Sto) (op : Nat) (S : Sto) (new : Option Nat) : Shared Sto :=
  { m with
    storage := Function.update m.storage S new
    log := Function.update m.log S
      (⟨op, (m.storage S).map m.objAt, new.map m.objAt⟩ :: m.log S) }

def addHandle (m : Shared Sto) (a : Nat) : Shared Sto :=
  { m with handles := Function.update m.handles a (m.handles a + 1) }

def takeHandle (m : Shared Sto) (a : Nat) : Option (Shared Sto) :=
  if a = 0 then some m
  else if m.handles a = 0 then none
  else some { m with handles := Function.update m.handles a (m.handles a - 1) }

def newOp (m : Shared Sto) : Shared Sto := { m with nextOp := m.nextOp + 1 }

def allocate (m : Shared Sto) (a : Nat) : Option (Shared Sto) :=
  if a = 0 ∨ m.strong a ≠ 0 then none
  else some { m with
    strong := Function.update m.strong a 1
    epoch := Function.update m.epoch a (m.epoch a + 1) }

end Shared

/-- Decrements, and runs the destructor on top of the continuation if the count drops to zero. -/
def release (m : Shared Sto) (a : Nat) (f : Frame Sto) : Shared Sto × List (Frame Sto) :=
  (m.dec a, if m.destroys a then [.user, f] else [f])

def loadStep (m : Shared Sto) (S : Sto) (k : LoadPc → Frame Sto) :
    LoadPc → Option (Shared Sto × List (Frame Sto))
  | .lock => (m.lock S).read.map fun l => (m.setLock S l, [k .read])
  | .read => (m.storage S).map fun ptr => (m, [k (.inc ptr (m.epoch ptr))])
  | .inc ptr e => some (m.inc ptr, [k (.unlock ptr e)])
  | .unlock ptr e => some (m.setLock S (m.lock S).unread, [k (.done ptr e)])
  | .done _ _ => none

def waitStep (m : Shared Sto) (S : Sto) (ptr : Nat) (keep : Bool) (k : WaitPc → Frame Sto) :
    WaitPc → Option (Shared Sto × List (Frame Sto))
  | .lock => (m.lock S).write.map fun l => (m.setLock S l, [k .unlock])
  | .unlock =>
    some (m.setLock S (m.lock S).unwrite, [if keep then k .done else .discard (some ptr)])
  | .done => none

def casStep (m : Shared Sto) (op : Nat) (S : Sto) (current new : Nat) (k : CasPc → Frame Sto) :
    CasPc → Option (Shared Sto × List (Frame Sto))
  | .lock => (m.lock S).write.map fun l => (m.setLock S l, [k .exchange])
  | .exchange =>
    (m.storage S).map fun old =>
      if old = current then (m.setStorage op S (some new), [k (.unlock old)])
      else (m, [k (.inc old (m.epoch old))])
  | .inc old _ => some (m.inc old, [k (.dropNew old)])
  | .dropNew old => some (release m new (k (.unlock old)))
  | .unlock old => some (m.setLock S (m.lock S).unwrite, [k (.done old)])
  | .done _ => none

/-- One step of the activation on top of a stack, with the activations that replace it. -/
def Frame.step (m : Shared Sto) : Frame Sto → Option (Shared Sto × List (Frame Sto))
  | .user => none
  | .load S since pc => loadStep m S (.load S since) pc
  | .swap op S new keep =>
    (m.storage S).map fun old => (m.setStorage op S (some new), [.wait S old keep .lock])
  | .wait S ptr keep pc => waitStep m S ptr keep (.wait S ptr keep) pc
  | .cas op S current new pc => casStep m op S current new (.cas op S current new) pc
  | .discard ptr => ptr.map fun a => release m a (.discard none)

def Frame.result : Frame Sto → Option (Option Nat)
  | .load _ _ (.done ptr _) => some (some ptr)
  | .wait _ ptr _ .done => some (some ptr)
  | .cas _ _ _ _ (.done old) => some (some old)
  | .discard none => some none
  | _ => none

def Frame.loaded (m : Shared Sto) : Frame Sto → Option (Loaded Sto)
  | .load S since (.done ptr _) => some ⟨S, since, (m.log S).length, m.objAt ptr⟩
  | _ => none

def Frame.storage : Frame Sto → Option Sto
  | .load S _ _ | .swap _ S _ _ | .wait S _ _ _ | .cas _ S _ _ _ => some S
  | _ => none

inductive Action (Sto : Type)
  | run
  | ret
  | alloc (a : Nat)
  | clone (a : Nat)
  | dropHandle (a : Nat)
  | create (S : Sto) (a : Nat)
  | load (S : Sto)
  | swap (S : Sto) (new : Nat)
  | store (S : Sto) (new : Nat)
  | cas (S : Sto) (current new : Nat)
  | intoInner (S : Sto)
  | dropStorage (S : Sto)
  | userRet

def atUser : List (Frame Sto) → Bool
  | [] | .user :: _ => true
  | _ => false

def Shared.give (m : Shared Sto) : Option Nat → Shared Sto
  | some a => m.addHandle a
  | none => m

def retStep (m : Shared Sto) : List (Frame Sto) → Option (Shared Sto × List (Frame Sto))
  | [] => none
  | f :: st =>
    f.result.map fun v => ({ m with loads := (f.loaded m).toList ++ m.loads }.give v, st)

def userStep (m : Shared Sto) (free : Sto → Bool) (st : List (Frame Sto)) :
    Action Sto → Option (Shared Sto × List (Frame Sto))
  | .alloc a => (m.allocate a).map fun m' => (m'.addHandle a, st)
  | .clone a => if m.handles a = 0 then none else some ((m.inc a).addHandle a, st)
  | .dropHandle a => (m.takeHandle a).map fun m' => (m', .discard (some a) :: st)
  | .create S a =>
    if m.storage S = none ∧ free S then
      (m.takeHandle a).map fun m' => ((m'.setStorage m.nextOp S (some a)).newOp, st)
    else none
  | .load S => (m.storage S).map fun _ => (m, .load S (m.log S).length .lock :: st)
  | .swap S new =>
    (m.storage S).bind fun _ =>
      (m.takeHandle new).map fun m' => (m'.newOp, .swap m.nextOp S new true :: st)
  | .store S new =>
    (m.storage S).bind fun _ =>
      (m.takeHandle new).map fun m' => (m'.newOp, .swap m.nextOp S new false :: st)
  | .cas S current new =>
    (m.storage S).bind fun _ =>
      (m.takeHandle new).map fun m' => (m'.newOp, .cas m.nextOp S current new .lock :: st)
  | .intoInner S =>
    if free S then
      (m.storage S).map fun ptr =>
        ((m.setStorage m.nextOp S none).newOp, .wait S ptr true .lock :: st)
    else none
  | .dropStorage S =>
    if free S then
      (m.storage S).map fun ptr =>
        ((m.setStorage m.nextOp S none).newOp, .wait S ptr false .lock :: st)
    else none
  | .userRet =>
    match st with
    | .user :: rest => some (m, rest)
    | _ => none
  | .run | .ret => none

def threadStep (m : Shared Sto) (free : Sto → Bool) (st : List (Frame Sto)) :
    Action Sto → Option (Shared Sto × List (Frame Sto))
  | .run =>
    match st with
    | [] => none
    | f :: rest => (f.step m).map fun r => (r.1, r.2 ++ rest)
  | .ret => retStep m st
  | a => if atUser st then userStep m free st a else none

structure State (Thr Sto : Type) where
  mem : Shared Sto
  stack : Thr → List (Frame Sto)

variable [Fintype Thr]

def State.free (σ : State Thr Sto) (S : Sto) : Bool :=
  decide (∀ t, ∀ f ∈ σ.stack t, f.storage ≠ some S)

def State.step (l : Thr × Action Sto) (σ : State Thr Sto) : Option (State Thr Sto) :=
  (threadStep σ.mem σ.free (σ.stack l.1) l.2).map fun r =>
    ⟨r.1, Function.update σ.stack l.1 r.2⟩

def State.initial : State Thr Sto where
  mem :=
    { storage := fun _ => none
      lock := fun _ => .free
      strong := fun _ => 0
      handles := fun _ => 0
      epoch := fun _ => 0
      log := fun _ => []
      nextOp := 0
      loads := [] }
  stack := fun _ => []

def machine (Thr Sto : Type) [DecidableEq Thr] [DecidableEq Sto] [Fintype Thr] :
    Concurrent.Machine (State Thr Sto) (Thr × Action Sto) where
  init σ := σ = State.initial
  step := State.step

variable {m m' : Shared Sto} {st st' : List (Frame Sto)} {σ σ' : State Thr Sto}

theorem threadStep_cases (hs : threadStep m free st act = some (m', st')) :
    (∃ f rest pre, act = .run ∧ st = f :: rest ∧ f.step m = some (m', pre) ∧ st' = pre ++ rest) ∨
    (act = .ret ∧ retStep m st = some (m', st')) ∨
    (atUser st = true ∧ userStep m free st act = some (m', st')) := by
  cases act with
  | run =>
    left
    cases st with
    | nil => cases hs
    | cons f rest =>
      simp only [threadStep, Option.map_eq_some_iff] at hs
      obtain ⟨⟨m₁, pre⟩, hf, he⟩ := hs
      cases he
      exact ⟨f, rest, pre, rfl, rfl, hf, rfl⟩
  | ret => exact .inr (.inl ⟨rfl, hs⟩)
  | _ =>
    simp only [threadStep] at hs
    split at hs
    · exact .inr (.inr ⟨by assumption, hs⟩)
    · cases hs

theorem State.step_cases {l : Thr × Action Sto} (h : State.step l σ = some σ') :
    ∃ m' st', threadStep σ.mem σ.free (σ.stack l.1) l.2 = some (m', st') ∧
      σ' = ⟨m', Function.update σ.stack l.1 st'⟩ := by
  rw [State.step, Option.map_eq_some_iff] at h
  obtain ⟨⟨m', st'⟩, hs, he⟩ := h
  exact ⟨m', st', hs, he.symm⟩

end ArcSwap.RwLock
