import ArcSwap.Frame
import ArcSwap.Concurrent.Machine

namespace ArcSwap
set_option autoImplicit true

/-- The build and the memory layout: the width of `usize`, `Config::USE_FAST` of each storage, and
where the `Handover` of each node lies, `repr(align(4))`. -/
structure Config (Thr Sto : Type) where
  width : Nat
  useFast : Sto → Bool
  handover : Thr → Nat
  aligned : ∀ n, handover n % 4 = 0
  distinct : Function.Injective handover

variable {Thr Sto : Type} [DecidableEq Thr] [DecidableEq Sto]

/-- Decrements, and runs the destructor on top of the continuation if the count drops to zero. -/
def release (m : Shared Thr Sto) (a : Nat) (f : Frame Thr Sto) :
    Shared Thr Sto × List (Frame Thr Sto) :=
  (m.dec a, if m.destroys a then [.user, f] else [f])

/-- `HybridProtection::attempt` and, from `setAddr` on, `HybridProtection::fallback`. -/
def loadStep (cfg : Config Thr Sto) (t : Thr) (m : Shared Thr Sto) (S : Sto)
    (k : LoadPc Thr → Frame Thr Sto) : LoadPc Thr → Option (Shared Thr Sto × List (Frame Thr Sto))
  | .enter =>
    if m.localNode t then some (m, [k (if cfg.useFast S then .first else .setAddr)]) else none
  | .first =>
    (m.storage S).map fun ptr =>
      (m, [if m.localNode t then k (.scan ptr (m.epoch ptr) 0) else .panic])
  | .scan ptr e i =>
    let d := fastSlot t (i + m.offset t)
    some (m, [k (if m.debt d = debtNone then .take ptr e d
      else if i + 1 < 8 then .scan ptr e (i + 1) else .setAddr)])
  | .take ptr e d =>
    some ({ m.setDebt d ptr with offset := Function.update m.offset t (d.2 + 1) },
      [k (.confirm ptr e d)])
  | .confirm ptr e d =>
    (m.storage S).map fun confirm =>
      (m, [k (if ptr = confirm then .done ⟨some d, confirm⟩ else .repay ptr e d)])
  | .repay ptr _ d =>
    if m.debt d = ptr then some (m.setDebt d debtNone, [k .setAddr])
    else some (m, [k (.done ⟨none, ptr⟩)])
  | .setAddr =>
    if m.localNode t then
      let gen := nextGeneration cfg.width (m.generation t)
      some ({ m with
          generation := Function.update m.generation t gen
          activeAddr := Function.update m.activeAddr t (some S) },
        [k (.setControl (gen ||| genTag) (gen = 0))])
    else some (m, [.panic])
  | .setControl gen discard =>
    some ({ m.setControl t gen with
        published := Function.update m.published t gen
        publishedAt := Function.update m.publishedAt t (m.stamp S)
        clock := m.clock + 1 },
      [k (if discard then .reserve gen else .candidate gen)])
  | .reserve gen =>
    some ({ m with activeWriters := Function.update m.activeWriters t (m.activeWriters t + 1) },
      [k (.cooldown gen)])
  | .cooldown gen =>
    some ({ m with inUse := Function.update m.inUse t nodeCooldown },
      [if m.inUse t = nodeUsed then k (.release gen) else .panic])
  | .release gen =>
    some ({ m with
        activeWriters := Function.update m.activeWriters t (m.activeWriters t - 1)
        localNode := Function.update m.localNode t false },
      [k (.candidate gen)])
  | .candidate gen =>
    (m.storage S).map fun candidate =>
      (m, [if m.localNode t then k (.setSlot gen candidate) else .panic])
  | .setSlot gen c => some (m.setDebt (helpingSlot t) c, [k (.setIdle gen c)])
  | .setIdle gen c =>
    let control := m.control t
    some ({ m.setControl t idle with offered := Function.update m.offered t none },
      [k (if control = gen then .inc c
        else .envelope gen c (clearTag control) ((m.offered t).getD 0))])
  | .inc c => some (m.inc c, [k (.pay c)])
  | .pay c =>
    if m.debt (helpingSlot t) = c then
      some (m.setDebt (helpingSlot t) debtNone, [k (.done ⟨none, c⟩)])
    else some (m, [k (.dec c)])
  | .dec c => some (release m c (k (.done ⟨none, c⟩)))
  | .envelope gen c space _ =>
    some ({ m with received := ⟨t, gen, m.handover space⟩ :: m.received },
      [k (.offer c (m.handover space) space)])
  | .offer c replacement space =>
    some ({ m with spaceOffer := Function.update m.spaceOffer t space },
      [k (.repayUnused c replacement)])
  | .repayUnused c replacement =>
    if m.debt (helpingSlot t) = c then
      some (m.setDebt (helpingSlot t) debtNone, [k (.done ⟨none, replacement⟩)])
    else some (m, [k (.decUnused c replacement)])
  | .decUnused c replacement => some (release m c (k (.done ⟨none, replacement⟩)))
  | .done _ => none

def innerStep (m : Shared Thr Sto) (g : Guard Thr) (k : InnerPc Thr → Frame Thr Sto) :
    InnerPc Thr → Option (Shared Thr Sto × List (Frame Thr Sto))
  | .start =>
    match g.debt with
    | none => some (m, [k .done])
    | some d => some (m.inc g.ptr, [k (.pay d)])
  | .pay d =>
    if m.debt d = g.ptr then some (m.setDebt d debtNone, [k .done]) else some (m, [k .dec])
  | .dec => some (release m g.ptr (k .done))
  | .done => none

def dropStep (m : Shared Thr Sto) (g : Guard Thr) (k : DropPc → Frame Thr Sto) :
    DropPc → Option (Shared Thr Sto × List (Frame Thr Sto))
  | .start =>
    match g.debt with
    | none => some (m, [k .dec])
    | some d =>
      if m.debt d = g.ptr then some (m.setDebt d debtNone, [k .done]) else some (m, [k .dec])
  | .dec => some (release m g.ptr (k .done))
  | .done => none

/-- The arms of the `match` in `Slots::help` after reading a control word; `none` is the
unreachable one. -/
def helpNext (n : Thr) (todo : List Thr) (control : Nat) : Option (PayPc Thr) :=
  match tagOf control with
  | 0 => if control = idle then some (.slot n todo 0) else none
  | 1 => some (.slot n todo 0)
  | 2 => some (.help n todo (.addr control))
  | _ => none

def helpStep (t : Thr) (m : Shared Thr Sto) (S : Sto) (k : PayPc Thr → Frame Thr Sto) (n : Thr)
    (todo : List Thr) : HelpPc → Option (Shared Thr Sto × List (Frame Thr Sto))
  | .load =>
    some (m, [if m.localNode t then (helpNext n todo (m.control n)).elim .panic k else .panic])
  | .addr control =>
    if m.activeAddr n = some S then
      some (m.tick, [.load S (m.stamp S) true .enter,
        k (.help n todo (.await control (m.stamp S)))])
    else some (m, [k (.help n todo (.recheck control))])
  | .recheck control =>
    let newControl := m.control n
    some (m, [if newControl = control then k (.slot n todo 0)
      else (helpNext n todo newControl).elim .panic k])
  | .await _ _ => none
  | .theirSpace control since r =>
    some (m, [k (.help n todo (.mySpace control since r (m.spaceOffer n)))])
  | .mySpace control since r their =>
    some (m, [k (.help n todo (.write control since r their (m.spaceOffer t)))])
  | .write control since r their mine =>
    some ({ m with handover := Function.update m.handover mine r },
      [if tagOf mine = 0 then k (.help n todo (.exchange control since r their mine)) else .panic])
  | .exchange control _ r their mine =>
    if m.control n = control then
      some ({ m.setControl n (mine ||| replacementTag) with
          offered := Function.update m.offered n (some r)
          sent := ⟨n, control, r⟩ :: m.sent },
        [k (.help n todo (.offer their))])
    else some (m, [k (.help n todo (.drop (m.control n) r))])
  | .offer their =>
    some ({ m with spaceOffer := Function.update m.spaceOffer t their }, [k (.slot n todo 0)])
  | .drop control r => some (release m r ((helpNext n todo control).elim .panic k))

def nextSlot (n : Thr) (todo : List Thr) (j : Fin 9) : PayPc Thr :=
  if h : j.val + 1 < 9 then .slot n todo ⟨j.val + 1, h⟩ else .release n todo

def payStep (t : Thr) (m : Shared Thr Sto) (ptr : Nat) (S : Sto) (k : PayPc Thr → Frame Thr Sto) :
    PayPc Thr → Option (Shared Thr Sto × List (Frame Thr Sto))
  | .start => if m.localNode t then some (m.inc ptr, [k .head]) else none
  | .head => some (m, [k (.next m.listHead)])
  | .next [] => some (m, [k .dec])
  | .next (n :: todo) =>
    some ({ m with activeWriters := Function.update m.activeWriters n (m.activeWriters n + 1) },
      [k (.help n todo .load)])
  | .help n todo h => helpStep t m S k n todo h
  | .slot n todo j =>
    if m.debt (n, j) = ptr then some (m.setDebt (n, j) debtNone, [k (.inc n todo j)])
    else some (m, [k (nextSlot n todo j)])
  | .inc n todo j => some (m.inc ptr, [k (nextSlot n todo j)])
  | .release n todo =>
    some ({ m with activeWriters := Function.update m.activeWriters n (m.activeWriters n - 1) },
      [k (.next todo)])
  | .dec => some (release m ptr (k .done))
  | .done => none

def swapStep (m : Shared Thr Sto) (op : Nat) (S : Sto) (new : Nat)
    (k : SwapPc → Frame Thr Sto) : SwapPc → Option (Shared Thr Sto × List (Frame Thr Sto))
  | .start =>
    (m.storage S).map fun old =>
      (m.setStorage op S (some new), [.payAll old S .start,
        k (.await old ⟨op, some (m.objAt old), some (m.objAt new)⟩)])
  | .await _ _ | .done _ _ => none

def discardStep (m : Shared Thr Sto) (k : DiscardPc → Frame Thr Sto) :
    DiscardPc → Option (Shared Thr Sto × List (Frame Thr Sto))
  | .dec a => some (release m a (k .done))
  | .await | .done => none

/-- `HybridStrategy::compare_and_swap`. The weak exchange may fail spuriously. -/
def casStep (m : Shared Thr Sto) (spurious : Bool) (op : Nat) (S : Sto) (current new : Nat)
    (dst : Obj) (k : CasPc Thr → Frame Thr Sto) :
    CasPc Thr → Option (Shared Thr Sto × List (Frame Thr Sto))
  | .retry => some (m.tick, [.load S (m.stamp S) false .enter, k .load])
  | .exchange old =>
    (m.storage S).map fun ptr =>
      if ptr = current ∧ spurious = false then
        (m.setStorage op S (some new), [.payAll old.ptr S .start,
          k (.pay old ⟨op, some (m.objAt current), some dst⟩)])
      else (m, [.guardDrop old .start, k .drop])
  | .dec old u => some (release m old.ptr (k (.done old (some u))))
  | .dropNew old => some (release m new (k (.done old none)))
  | .load | .pay _ _ | .drop | .done _ _ => none

def rcuStep (m : Shared Thr Sto) (k : RcuPc Thr → Frame Thr Sto) :
    RcuPc Thr → Option (Shared Thr Sto × List (Frame Thr Sto))
  | .compare cur prev arg res =>
    if cur.ptr = prev.ptr then some (m, [.intoInner none prev .start, k (.inner cur arg res)])
    else some (m, [.guardDrop cur .start, k (.dropOld prev)])
  | .release cur ret arg res => some (m, [.guardDrop cur .start, k (.dropCur ret arg res)])
  | _ => none

/-- One step of the activation on top of the stack of `t`, with the activations that replace it. -/
def Frame.step (cfg : Config Thr Sto) (t : Thr) (m : Shared Thr Sto) (spurious : Bool) :
    Frame Thr Sto → Option (Shared Thr Sto × List (Frame Thr Sto))
  | .user | .panic => none
  | .load S since full (.done g) =>
    if full then some (m, [.intoInner (some (S, since)) g .start]) else none
  | .load S since full pc => loadStep cfg t m S (.load S since full) pc
  | .intoInner src g pc => innerStep m g (.intoInner src g) pc
  | .guardDrop g pc => dropStep m g (.guardDrop g) pc
  | .payAll ptr S pc => payStep t m ptr S (.payAll ptr S) pc
  | .swap op S new pc => swapStep m op S new (.swap op S new) pc
  | .discard pc => discardStep m .discard pc
  | .cas op S current new dst pc =>
    casStep m spurious op S current new dst (.cas op S current new dst) pc
  | .rcu op S pc => rcuStep m (.rcu op S) pc

def Frame.result : Frame Thr Sto → Option (Ret Thr)
  | .load _ _ false (.done g) => some (.guard g)
  | .intoInner _ g .done => some (.handle g.ptr)
  | .guardDrop _ .done => some .unit
  | .payAll ptr _ .done => some (.handle ptr)
  | .swap _ _ _ (.done old _) => some (.handle old)
  | .discard .done => some .unit
  | .cas _ _ _ _ _ (.done old _) => some (.guard old)
  | .rcu _ _ (.done ret _ _) => some (.handle ret)
  | _ => none

/-- The caller's continuation once its callee has returned. -/
def Frame.resume (m : Shared Thr Sto) : Frame Thr Sto → Ret Thr → Option (Frame Thr Sto)
  | .payAll ptr S (.help n todo (.await control since)), .handle a =>
    some (.payAll ptr S (.help n todo (.theirSpace control since a)))
  | .swap op S new (.await old u), .handle _ => some (.swap op S new (.done old u))
  | .discard .await, .handle a => some (.discard (.dec a))
  | .cas op S current new dst .load, .guard old =>
    some (.cas op S current new dst (if old.ptr = current then .exchange old else .dropNew old))
  | .cas op S current new dst (.pay old u), .handle _ =>
    some (.cas op S current new dst (.dec old u))
  | .cas op S current new dst .drop, .unit => some (.cas op S current new dst .retry)
  | .rcu op S .load, .guard g => some (.rcu op S (.closure g (m.objAt g.ptr)))
  | .rcu op S (.cas cur arg res), .guard prev => some (.rcu op S (.compare cur prev arg res))
  | .rcu op S (.inner cur arg res), .handle a => some (.rcu op S (.release cur a arg res))
  | .rcu op S (.dropCur ret arg res), .unit => some (.rcu op S (.done ret arg res))
  | .rcu op S (.dropOld prev), .unit => some (.rcu op S (.closure prev (m.objAt prev.ptr)))
  | _, _ => none

def Frame.call (m : Shared Thr Sto) : Frame Thr Sto → Option (Call Sto)
  | .load S since false (.done g) | .intoInner (some (S, since)) g .done =>
    some (.load S since (m.stamp S) (m.objAt g.ptr))
  | .swap op S _ (.done old u) => some (.swap op S (u.new.getD (0, 0)) (m.objAt old))
  | .cas op S current _ dst (.done old _) => some (.cas op S current dst (m.objAt old.ptr))
  | .rcu op S (.done ret arg res) => some (.rcu op S arg res (m.objAt ret))
  | _ => none

end ArcSwap
