import ArcSwap.System

namespace ArcSwap
set_option autoImplicit true

variable {Thr Sto : Type}

def Frame.Parked : Frame Thr Sto → Prop
  | .load _ _ _ (.done _) => True
  | .load _ _ _ _ => False
  | .payAll _ _ (.help _ _ (.write _ _ _ _ _)) => False
  | .payAll _ _ (.help _ _ (.exchange _ _ _ _ _)) => False
  | .payAll _ _ (.help _ _ (.offer _)) => False
  | .panic => False
  | _ => True

/-- The activations that know that the thread has a node. -/
def Frame.Entered : Frame Thr Sto → Prop
  | .load _ _ _ .enter => False
  | .load _ _ _ _ => True
  | .payAll _ _ .start => False
  | .payAll _ _ _ => True
  | _ => False

/-- `v` is a generation no later than `w`. The one published when the counter has wrapped is the
last. -/
def NotAfter (v w : Nat) : Prop := w = 2 ∨ v ≤ w ∧ v ≠ 2

/-- `t` has a node, or has given up the one it had. -/
def Owns (m : Shared Thr Sto) (t : Thr) : Prop := m.localNode t = true ∨ m.published t = 2

def Fresh (m : Shared Thr Sto) (t : Thr) : Prop :=
  m.published t ≠ 2 ∧ m.published t ≤ m.generation t + 2

structure Idle (m : Shared Thr Sto) (t : Thr) : Prop where
  control : m.control t = idle
  offered : m.offered t = none
  fresh : Fresh m t

/-- The transaction of generation `g` on `S` is in progress in the node of `t`. -/
def Open (m : Shared Thr Sto) (t : Thr) (S : Sto) (g : Nat) : Prop :=
  m.activeAddr t = some S ∧ m.published t = g ∧ g % 4 = 2 ∧
    (m.control t = g ∧ m.offered t = none ∨ m.control t % 4 = 1 ∧ (m.offered t).isSome) ∧
    (m.publishedAt t).time < m.clock ∧ (m.publishedAt t).version ≤ (m.log S).length

/-- The helping slot of `t` holds nothing, or the candidate put there. -/
def HelpingHolds (m : Shared Thr Sto) (t : Thr) (c : Nat) : Prop :=
  m.debt (helpingSlot t) = debtNone ∨ m.debt (helpingSlot t) = c

def LoadPc.NodeInv (m : Shared Thr Sto) (t : Thr) (S : Sto) : LoadPc Thr → Prop
  | .take _ _ d => Idle m t ∧ HelpingHolds m t debtNone ∧ d.1 = t ∧ d.2 ≠ 8 ∧ m.debt d = debtNone
  | .confirm p _ d | .repay p _ d =>
    Idle m t ∧ HelpingHolds m t debtNone ∧ d.1 = t ∧ d.2 ≠ 8 ∧ (m.debt d = debtNone ∨ m.debt d = p)
  | .setControl g discard =>
    (m.control t = idle ∧ m.offered t = none) ∧ HelpingHolds m t debtNone ∧
      m.activeAddr t = some S ∧ m.published t ≠ 2 ∧ (g = 2 ∨ m.published t < g) ∧
      g = m.generation t + 2 ∧ discard = decide (g = 2)
  | .reserve g | .cooldown g | .release g => Open m t S g ∧ HelpingHolds m t debtNone ∧ g = 2
  | .candidate g =>
    Open m t S g ∧ HelpingHolds m t debtNone ∧ (m.localNode t = true → Fresh m t)
  | .setSlot g _ => Open m t S g ∧ HelpingHolds m t debtNone ∧ Fresh m t
  | .setIdle g c => Open m t S g ∧ HelpingHolds m t c ∧ Fresh m t
  | .envelope _ c space _ | .offer c _ space => Idle m t ∧ HelpingHolds m t c ∧ space % 4 = 0
  | .inc c | .pay c | .repayUnused c _ => Idle m t ∧ HelpingHolds m t c
  | _ => Idle m t ∧ HelpingHolds m t debtNone

def NodeTop (m : Shared Thr Sto) (t : Thr) : List (Frame Thr Sto) → Prop
  | .load S _ _ pc :: _ => pc.NodeInv m t S
  | .panic :: _ => ∃ S, Open m t S 2
  | _ => Idle m t ∧ HelpingHolds m t debtNone

structure NodeOk (w : Nat) (m : Shared Thr Sto) (t : Thr) (st : List (Frame Thr Sto)) : Prop where
  parked : ∀ f ∈ st.tail, f.Parked
  entered : ∀ f ∈ st, f.Entered → Owns m t
  listed : Owns m t ↔ t ∈ m.listHead
  unused : t ∉ m.listHead → ∀ j, m.debt (t, j) = debtNone
  generation : m.generation t % 4 = 0 ∧ m.generation t < 2 ^ w
  space : m.spaceOffer t % 4 = 0
  top : NodeTop m t st

/-- `control` was read from the node `n`, and is a generation. -/
def Seen (m : Shared Thr Sto) (n : Thr) (control : Nat) : Prop :=
  control % 4 = 2 ∧ NotAfter control (m.published n)

def Observed (m : Shared Thr Sto) (n : Thr) (control : Nat) : Prop :=
  control = idle ∨ control % 4 = 1 ∨ Seen m n control

/-- What any thread may rely on when it looks at the node `n`. -/
structure Watched (m : Shared Thr Sto) (n : Thr) : Prop where
  observed : Observed m n (m.control n)
  opened : m.control n % 4 = 2 → ∃ S, Open m n S (m.control n)
  space : m.spaceOffer n % 4 = 0

/-- As long as `n` stays in the transaction `control`, it is one on `S`, published before
`since`. -/
def Helpable (m : Shared Thr Sto) (n : Thr) (S : Sto) (control : Nat) (since : Stamp) : Prop :=
  m.control n = control → m.activeAddr n = some S ∧ (m.publishedAt n).time < since.time ∧
    (m.publishedAt n).version ≤ since.version

/-- A helper has loaded the replacement `r` for the transaction `control` of `n`. -/
structure Engaged (m : Shared Thr Sto) (n : Thr) (S : Sto) (control : Nat) (since : Stamp)
    (r : Nat) : Prop where
  seen : Seen m n control
  helpable : Helpable m n S control since
  loaded : ∃ till e, .load S since till (r, e) ∈ m.calls

/-- `their` is the envelope `n` offers as long as it stays in the transaction `control`. -/
def Theirs (m : Shared Thr Sto) (n : Thr) (control their : Nat) : Prop :=
  (m.control n = control → their = m.spaceOffer n) ∧ their % 4 = 0

def HelpPc.Inv (m : Shared Thr Sto) (n : Thr) (S : Sto) : HelpPc → Prop
  | .load => True
  | .addr v => Seen m n v
  | .recheck v => Seen m n v ∧ (m.control n = v → m.activeAddr n ≠ some S)
  | .await v since => Seen m n v ∧ Helpable m n S v since
  | .theirSpace v since r => Engaged m n S v since r
  | .mySpace v since r their => Engaged m n S v since r ∧ Theirs m n v their
  | .write v since r their mine | .exchange v since r their mine =>
    Engaged m n S v since r ∧ Theirs m n v their ∧ mine % 4 = 0
  | .offer their => their % 4 = 0
  | .drop v _ => Observed m n v

def Frame.HelpInv (m : Shared Thr Sto) : Frame Thr Sto → Prop
  | .payAll _ S (.help n _ h) => h.Inv m n S
  | _ => True

theorem NotAfter.refl (v : Nat) : NotAfter v v := by
  by_cases h : v = 2
  · exact .inl h
  · exact .inr ⟨Nat.le_refl v, h⟩

theorem Owns.localNode (h : Owns m t) (hf : Fresh m t) : m.localNode t = true :=
  h.resolve_right hf.1

theorem NodeTop.idle_or_open (h : NodeTop m t st) :
    m.control t = idle ∨ ∃ S g, Open m t S g := by
  cases st with
  | nil => exact .inl h.1.control
  | cons f st =>
    cases f with
    | load S since full pc =>
      cases pc with
      | setControl => exact .inl h.1.1
      | reserve => exact .inr ⟨S, _, h.1⟩
      | cooldown => exact .inr ⟨S, _, h.1⟩
      | release => exact .inr ⟨S, _, h.1⟩
      | candidate => exact .inr ⟨S, _, h.1⟩
      | setSlot => exact .inr ⟨S, _, h.1⟩
      | setIdle => exact .inr ⟨S, _, h.1⟩
      | _ => exact .inl h.1.control
    | panic => exact .inr ⟨_, _, h.choose_spec⟩
    | _ => exact .inl h.1.control

theorem Open.seen (h : Open m t S g) : Seen m t g :=
  ⟨h.2.2.1, h.2.1 ▸ NotAfter.refl g⟩

theorem NodeOk.watched (h : NodeOk w m t st) : Watched m t := by
  rcases h.top.idle_or_open with hi | ⟨S, g, ho⟩
  · refine ⟨.inl hi, ?_, h.space⟩
    intro hc
    rw [hi] at hc
    cases hc
  · rcases ho.2.2.2.1 with ⟨hc, _⟩ | ⟨hc, _⟩
    · refine ⟨.inr (.inr (hc ▸ ho.seen)), ?_, h.space⟩
      intro _
      rw [hc]
      exact ⟨S, ho⟩
    · refine ⟨.inr (.inl hc), ?_, h.space⟩
      intro h2
      rw [hc] at h2
      cases h2

/-- The invariant of the transactions and of the helpers that watch them. -/
structure Protocol (w : Nat) (σ : State Thr Sto) : Prop where
  node : ∀ t, NodeOk w σ.mem t (σ.stack t)
  help : ∀ t, ∀ f ∈ σ.stack t, f.HelpInv σ.mem

end ArcSwap
