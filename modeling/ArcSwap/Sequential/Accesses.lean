import ArcSwap.Sequential.Refinement

namespace ArcSwap.Sequential
set_option autoImplicit true

/-- What implements `Access` for the targets of its guards, where `V` are the objects. The target of a
`Guard` is a pointer, with the object that it can be followed to. -/
inductive Access (Sto V : Type) : Type → Type 1
  | arcSwapAny (S : Sto) : Access Sto V (Nat × V)
  | arcSwap (S : Sto) : Access Sto V V
  | pointer (access : Access Sto V T) : Access Sto V T
  | dynAccess (access : Access Sto V T) : Access Sto V T
  | accessConvert (access : Access Sto V T) : Access Sto V T
  | map (access : Access Sto V T) (projection : T → R) : Access Sto V R
  | constant (value : T) : Access Sto V T

inductive AccessGuard (K Thr V : Type) : Type → Type 1
  | guard (g : Guard K Thr) : AccessGuard K Thr V (Nat × V)
  | directDeref (g : Guard K Thr) : AccessGuard K Thr V V
  | dynGuard (guard : AccessGuard K Thr V T) : AccessGuard K Thr V T
  | mapGuard (guard : AccessGuard K Thr V T) (projection : T → R) : AccessGuard K Thr V R
  | constantDeref (value : T) : AccessGuard K Thr V T

variable {K Thr Sto V : Type}

namespace AccessGuard

/-- The `Guard` inside, which is dropped with it. -/
def guards : AccessGuard K Thr V T → List (Guard K Thr)
  | .guard g => [g]
  | .directDeref g => [g]
  | .dynGuard G => G.guards
  | .mapGuard G _ => G.guards
  | .constantDeref _ => []

end AccessGuard

namespace Access

/-- What is to be seen through the guard of a load. -/
def value (pointee : Ref K → V) (storage : Sto → Option (Ref K)) : Access Sto V T → Option T
  | .arcSwapAny S => (storage S).map fun r => (r.2, pointee r)
  | .arcSwap S => (storage S).map pointee
  | .pointer access => access.value pointee storage
  | .dynAccess access => access.value pointee storage
  | .accessConvert access => access.value pointee storage
  | .map access projection => (access.value pointee storage).map projection
  | .constant value => some value

def loads : Access Sto V T → List (Op K Sto)
  | .arcSwapAny S => [.load S]
  | .arcSwap S => [.load S]
  | .pointer access => access.loads
  | .dynAccess access => access.loads
  | .accessConvert access => access.loads
  | .map access _ => access.loads
  | .constant _ => []

variable [DecidableEq K] [DecidableEq Thr] [DecidableEq Sto]

def load (cfg : Config K Sto) (m : Mem K Thr Sto) (t : Thr) :
    Access Sto V T → Option (AccessGuard K Thr V T × Mem K Thr Sto)
  | .arcSwapAny S => (m.load cfg t S).map fun (g, m) => (.guard g, m)
  | .arcSwap S => (m.load cfg t S).map fun (g, m) => (.directDeref g, m)
  | .pointer access => access.load cfg m t
  | .dynAccess access => (access.load cfg m t).map fun (G, m) => (.dynGuard G, m)
  | .accessConvert access => (access.load cfg m t).map fun (G, m) => (.dynGuard G, m)
  | .map access projection =>
    (access.load cfg m t).map fun (G, m) => (.mapGuard G projection, m)
  | .constant value => some (.constantDeref value, m)

end Access

def Heap.pointee (objects : Ref K → Nat → V) [DecidableEq K] (h : Heap K Sto) (r : Ref K) : V :=
  objects r (h.destroyed.count r)

section
variable [DecidableEq K] [DecidableEq Thr] [DecidableEq Sto]

/-- The states of the memory, as far as the program comes. -/
def Mem.states [Fintype K] (cfg : Config K Sto) (rounds : Nat) (m : Mem K Thr Sto) :
    List (Thr × Op K Sto) → List (Mem K Thr Sto)
  | [] => [m]
  | (t, op) :: ops =>
    m :: match m.step cfg rounds t op with
      | some (m', _) => m'.states cfg rounds ops
      | none => []

end

variable {cfg : Config K Sto} {n : Nat} {m m' : Mem K Thr Sto} {c c' : Cell K Sto} {r : Ref K}
  {g : Guard K Thr} {op : Op K Sto} {upgrades : K → Bool} {p : Nat}

variable [DecidableEq K]

variable [DecidableEq Thr]

variable [DecidableEq Sto] [Fintype K]

theorem Mem.mem_states (cfg : Config K Sto) (rounds : Nat) (m : Mem K Thr Sto)
    (ops : List (Thr × Op K Sto)) : m ∈ m.states cfg rounds ops := by
  cases ops with
  | nil => exact List.mem_singleton_self m
  | cons x ops => exact List.mem_cons_self

variable [Fintype Thr] [Fintype Sto]

/-- A projection behind a trait object. -/
def projected : Access Unit Nat Bool :=
  .dynAccess (.map (.pointer (.arcSwap ())) fun n => n == 7)

def prepared : List (Fin 2 × Op Unit Unit) :=
  [(0, .alloc ((), 4)), (0, .create () ((), 4))]

def replaced : List (Fin 2 × Op Unit Unit) :=
  [(1, .alloc ((), 8)), (1, .store () 8), (0, .load ())]

end ArcSwap.Sequential
