import ArcSwap.Registry.Visits
import ArcSwap.Registry.Wrap
import ArcSwap.Protection
import ArcSwap.Rounds

namespace ArcSwap
set_option autoImplicit true

namespace Registry

def LocalPc.settling : LocalPc Node Sto → Bool
  | .settle _ _ => true
  | _ => false

/-- The steps that remain of a load in its fallback, with the one that gives its debt back. -/
def LocalPc.loadRank (pc : LocalPc Node Sto) : Nat :=
  if 0 < pc.fallbackRank then pc.fallbackRank + 1 else pc.settling.toNat

variable {Node L W Sto : Type} {m m' : Shared Node L Sto} {x x' : Local Node Sto}
  {σ σ' : State Node L W Sto} {tr : List (Happened Node L W Sto)}

theorem LocalPc.loading {pc : LocalPc Node Sto} (h : 0 < pc.loadRank) :
    0 < pc.fallbackRank ∨ ∃ d p, pc = .settle d p := by
  by_cases hf : 0 < pc.fallbackRank
  · exact .inl hf
  · rw [loadRank, if_neg hf] at h
    cases pc with
    | settle d p => exact .inr ⟨d, p, rfl⟩
    | _ => cases h

variable [DecidableEq Node]

variable [DecidableEq L] [DecidableEq W] [DecidableEq Sto]

end Registry
end ArcSwap
