import ArcSwap.Protection

namespace ArcSwap
set_option autoImplicit true

variable {Thr Sto : Type} {σ : State Thr Sto} {cfg : Config Thr Sto} [Fintype Thr] [Fintype Sto]

variable [DecidableEq Thr] [DecidableEq Sto]

end ArcSwap
