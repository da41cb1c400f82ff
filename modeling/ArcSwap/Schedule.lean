import ArcSwap.System

namespace ArcSwap
set_option autoImplicit true

variable {Thr Sto : Type}

/-- A choice of the next step of the system. -/
abbrev Order (Thr Sto : Type) := State Thr Sto → Option (Thr × Action Thr Sto)

def order (t : Thr) (a : Action Thr Sto) : Order Thr Sto := fun _ => some (t, a)

def State.loading (σ : State Thr Sto) (t : Thr) : Option (Sto × Stamp × Bool × LoadPc Thr) :=
  match σ.stack t with
  | [.load S since full pc] => some (S, since, full, pc)
  | _ => none

theorem State.stack_of_loading {σ : State Thr Sto} (h : σ.loading t = some (S, since, full, pc)) :
    σ.stack t = [.load S since full pc] := by
  rw [State.loading] at h
  split at h
  · rename_i hst
    cases h
    exact hst
  · cases h

def State.lastLoad (σ : State Thr Sto) : Option (Sto × Obj) :=
  match σ.mem.calls with
  | .load S _ _ o :: _ => some (S, o)
  | _ => none

theorem State.lastLoad_mem {σ : State Thr Sto} (h : σ.lastLoad = some (S, o)) :
    ∃ since till, .load S since till o ∈ σ.mem.calls := by
  rw [State.lastLoad] at h
  split at h
  · rename_i since till _ _ hc
    cases h
    exact ⟨since, till, by simp [hc]⟩
  · cases h

variable [DecidableEq Thr] [DecidableEq Sto] [Fintype Thr]

def goOn (cfg : Config Thr Sto) (t : Thr) : Order Thr Sto := fun σ =>
  ([.run false, .ret, .userRet].find? fun a => (State.step cfg (t, a) σ).isSome).map (t, ·)

def steps (cfg : Config Thr Sto) (t : Thr) (n : Nat) : List (Order Thr Sto) :=
  List.replicate n (goOn cfg t)

def whole (cfg : Config Thr Sto) (t : Thr) (a : Action Thr Sto) : List (Order Thr Sto) :=
  order t a :: steps cfg t 100

/-- Two threads and two storages on a machine with 64 bits. -/
def twoThreads (fast : Bool) : Config (Fin 2) (Fin 2) where
  width := 64
  useFast _ := fast
  handover n := 8 * n
  aligned n := by omega
  distinct a b h := by
    ext
    simpa using h

/-- Both threads have a node, the storages hold the objects at 8 and 16, and the objects at 24 and
32 are in user hands. -/
def prepared : List (Order (Fin 2) (Fin 2)) :=
  [order 0 .claim, order 1 .claim, order 1 (.alloc 8), order 1 (.alloc 16), order 1 (.alloc 24),
    order 1 (.alloc 32), order 1 (.create 0 8), order 1 (.create 1 16)]

theorem reach_after (ok : Fin 2 × Action (Fin 2) (Fin 2) → State (Fin 2) (Fin 2) → Prop)
    [∀ a s, Decidable (ok a s)] (fast : Bool) (os : List (Order (Fin 2) (Fin 2)))
    (p : State (Fin 2) (Fin 2) → Bool)
    (h : ((machine (twoThreads fast)).exec ok os (State.initial (twoThreads fast))).any p = true) :
    ∃ σ, (machine (twoThreads fast)).Reach ok σ ∧ p σ = true := by
  rw [Option.any_eq_true] at h
  obtain ⟨σ, hσ, hp⟩ := h
  exact ⟨σ, .exec (.init rfl) hσ, hp⟩

end ArcSwap
