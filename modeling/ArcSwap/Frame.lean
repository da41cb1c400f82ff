import ArcSwap.Memory

namespace ArcSwap
set_option autoImplicit true

/-- The next atomic access of `HybridProtection::attempt` and `fallback`. The number beside the
pointer first read is the epoch of its address then, and the pointer beside an envelope is the
one handed over in it; both are history. -/
inductive LoadPc (Thr : Type)
  | enter
  | first
  | scan (ptr : Nat) (epoch : Nat) (i : Nat)
  | take (ptr : Nat) (epoch : Nat) (debt : Debt Thr)
  | confirm (ptr : Nat) (epoch : Nat) (debt : Debt Thr)
  | repay (ptr : Nat) (epoch : Nat) (debt : Debt Thr)
  | setAddr
  | setControl (gen : Nat) (discard : Bool)
  | reserve (gen : Nat)
  | cooldown (gen : Nat)
  | release (gen : Nat)
  | candidate (gen : Nat)
  | setSlot (gen : Nat) (candidate : Nat)
  | setIdle (gen : Nat) (candidate : Nat)
  | inc (candidate : Nat)
  | pay (candidate : Nat)
  | dec (candidate : Nat)
  | envelope (gen : Nat) (candidate : Nat) (space : Nat) (ptr : Nat)
  | offer (candidate replacement : Nat) (space : Nat)
  | repayUnused (candidate replacement : Nat)
  | decUnused (candidate replacement : Nat)
  | done (g : Guard Thr)
deriving DecidableEq

inductive InnerPc (Thr : Type)
  | start
  | pay (debt : Debt Thr)
  | dec
  | done

inductive DropPc
  | start
  | dec
  | done

/-- One visit of `Slots::help` to another node. `control` is the value last observed there, the
stamp is when the replacement was asked for. -/
inductive HelpPc
  | load
  | addr (control : Nat)
  | recheck (control : Nat)
  | await (control : Nat) (since : Stamp)
  | theirSpace (control : Nat) (since : Stamp) (replacement : Nat)
  | mySpace (control : Nat) (since : Stamp) (replacement : Nat) (their : Nat)
  | write (control : Nat) (since : Stamp) (replacement : Nat) (their mine : Nat)
  | exchange (control : Nat) (since : Stamp) (replacement : Nat) (their mine : Nat)
  | offer (their : Nat)
  | drop (control : Nat) (replacement : Nat)

/-- `Debt::pay_all`: the node being visited, with the nodes still to come. -/
inductive PayPc (Thr : Type)
  | start
  | head
  | next (todo : List Thr)
  | help (n : Thr) (todo : List Thr) (h : HelpPc)
  | slot (n : Thr) (todo : List Thr) (j : Fin 9)
  | inc (n : Thr) (todo : List Thr) (j : Fin 9)
  | release (n : Thr) (todo : List Thr)
  | dec
  | done

inductive SwapPc
  | start
  | await (old : Nat) (u : Update)
  | done (old : Nat) (u : Update)

/-- Dropping a pointer that another call returns. -/
inductive DiscardPc
  | await
  | dec (ptr : Nat)
  | done

inductive CasPc (Thr : Type)
  | retry
  | load
  | exchange (old : Guard Thr)
  | pay (old : Guard Thr) (u : Update)
  | dec (old : Guard Thr) (u : Update)
  | drop
  | dropNew (old : Guard Thr)
  | done (old : Guard Thr) (u : Option Update)

/-- `ArcSwapAny::rcu`. The objects are the closure's last argument and result. -/
inductive RcuPc (Thr : Type)
  | load
  | closure (cur : Guard Thr) (arg : Obj)
  | cas (cur : Guard Thr) (arg res : Obj)
  | compare (cur prev : Guard Thr) (arg res : Obj)
  | inner (cur : Guard Thr) (arg res : Obj)
  | release (cur : Guard Thr) (ret : Nat) (arg res : Obj)
  | dropCur (ret : Nat) (arg res : Obj)
  | dropOld (prev : Guard Thr)
  | done (ret : Nat) (arg res : Obj)

/-- An activation on a thread's call stack. `user` is user code run by a destructor. A load may be
asked for an owned pointer, as in `load_full`. -/
inductive Frame (Thr Sto : Type)
  | user
  | panic
  | load (S : Sto) (since : Stamp) (full : Bool) (pc : LoadPc Thr)
  | intoInner (src : Option (Sto × Stamp)) (g : Guard Thr) (pc : InnerPc Thr)
  | guardDrop (g : Guard Thr) (pc : DropPc)
  | payAll (ptr : Nat) (S : Sto) (pc : PayPc Thr)
  | swap (op : Nat) (S : Sto) (new : Nat) (pc : SwapPc)
  | discard (pc : DiscardPc)
  | cas (op : Nat) (S : Sto) (current new : Nat) (dst : Obj) (pc : CasPc Thr)
  | rcu (op : Nat) (S : Sto) (pc : RcuPc Thr)

inductive Ret (Thr : Type)
  | guard (g : Guard Thr)
  | handle (a : Nat)
  | unit

variable {Thr Sto : Type}

def Frame.owned : Frame Thr Sto → List Nat
  | .load _ _ _ pc =>
    match pc with
    | .pay c => [c]
    | .dec c => [c, c]
    | .envelope _ _ _ p => [p]
    | .offer _ r _ | .repayUnused _ r => [r]
    | .decUnused c r => [c, r]
    | _ => []
  | .intoInner _ g pc =>
    match pc with
    | .start => []
    | .dec => [g.ptr, g.ptr]
    | .pay _ | .done => [g.ptr]
  | .guardDrop g pc =>
    match pc with
    | .dec => [g.ptr]
    | .start | .done => []
  | .payAll ptr _ pc =>
    match pc with
    | .start | .inc _ _ _ | .done => [ptr]
    | .help _ _ (.theirSpace _ _ r) | .help _ _ (.mySpace _ _ r _)
    | .help _ _ (.write _ _ r _ _) | .help _ _ (.exchange _ _ r _ _)
    | .help _ _ (.drop _ r) => [r, ptr, ptr]
    | _ => [ptr, ptr]
  | .swap _ _ new pc =>
    match pc with
    | .start => [new]
    | .await _ _ => []
    | .done old _ => [old]
  | .discard pc =>
    match pc with
    | .dec a => [a]
    | .await | .done => []
  | .cas _ _ _ new _ pc =>
    match pc with
    | .retry | .load | .exchange _ | .drop | .dropNew _ => [new]
    | .dec old _ => [old.ptr]
    | .pay _ _ | .done _ _ => []
  | .rcu _ _ pc =>
    match pc with
    | .release _ r _ _ | .dropCur r _ _ | .done r _ _ => [r]
    | _ => []
  | _ => []

/-- The debt a load of thread `t` has written and not resolved yet. -/
def Frame.unresolved (t : Thr) : Frame Thr Sto → List (Guard Thr)
  | .load _ _ _ pc =>
    match pc with
    | .confirm p _ d | .repay p _ d => [⟨some d, p⟩]
    | .setIdle _ c | .inc c | .pay c | .envelope _ c _ _ | .offer c _ _ | .repayUnused c _ =>
      [⟨some (helpingSlot t), c⟩]
    | _ => []
  | _ => []

def Frame.held : Frame Thr Sto → List (Guard Thr)
  | .load _ _ _ (.done g) => [g]
  | .intoInner _ g pc =>
    match pc with
    | .start => [g]
    | .pay d => [⟨some d, g.ptr⟩]
    | .dec | .done => []
  | .guardDrop g pc =>
    match pc with
    | .start => [g]
    | .dec | .done => []
  | .cas _ _ _ _ _ pc =>
    match pc with
    | .exchange old | .pay old _ | .dec old _ | .dropNew old | .done old _ => [old]
    | .retry | .load | .drop => []
  | .rcu _ _ pc =>
    match pc with
    | .closure cur _ | .cas cur _ _ | .inner cur _ _ | .release cur _ _ _ => [cur]
    | .compare cur prev _ _ => [cur, prev]
    | .dropOld prev => [prev]
    | .load | .dropCur _ _ _ | .done _ _ _ => []
  | _ => []

end ArcSwap
