import ArcSwap.Activation
import ArcSwap.Progress
import ArcSwap.Operations

namespace ArcSwap
set_option autoImplicit true

variable {Thr Sto : Type}

def InnerPc.rank : InnerPc Thr → Nat
  | .start => 4
  | .pay _ => 3
  | .dec => 2
  | .done => 1

def LoadPc.rank : LoadPc Thr → Nat
  | .enter => 31
  | .first => 30
  | .scan _ _ i => 21 + (8 - i)
  | .take _ _ _ => 20
  | .confirm _ _ _ => 19
  | .repay _ _ _ => 18
  | .setAddr => 17
  | .setControl _ _ => 16
  | .reserve _ => 15
  | .cooldown _ => 14
  | .release _ => 13
  | .candidate _ => 12
  | .setSlot _ _ => 11
  | .setIdle _ _ => 10
  | .envelope _ _ _ _ => 9
  | .inc _ | .offer _ _ _ => 8
  | .pay _ | .repayUnused _ _ => 7
  | .dec _ | .decUnused _ _ => 6
  | .done _ => 5

def Frame.rank : Frame Thr Sto → Nat
  | .load _ _ _ pc => pc.rank
  | .intoInner _ _ pc => pc.rank
  | _ => 0

/-- The activations that load a replacement. -/
def Frame.replacing : Frame Thr Sto → Bool
  | .load _ _ full _ => full
  | .intoInner _ _ _ => true
  | _ => false

variable {m m' : Shared Thr Sto} {st st' pre rest above : List (Frame Thr Sto)}

/-- The ways an activation that loads a replacement goes on. -/
inductive Sinks (f : Frame Thr Sto) : List (Frame Thr Sto) → Prop
  | panic : Sinks f [.panic]
  | goto (hr : g.replacing = true) (hlt : g.rank < f.rank) : Sinks f [g]
  | user (hr : g.replacing = true) (hlt : g.rank < f.rank) : Sinks f [.user, g]

theorem Sinks.release {f g : Frame Thr Sto} (hr : g.replacing = true) (hlt : g.rank < f.rank)
    (hs : release m a g = (m', pre)) : Sinks f pre := by
  cases hs
  split
  · exact .user hr hlt
  · exact .goto hr hlt

def Frame.visit : Frame Thr Sto → Option HelpPc
  | .payAll _ _ (.help _ _ h) => some h
  | _ => none

theorem helpNext_visit (ptr : Nat) (S : Sto) (n : Thr) (todo : List Thr) (v : Nat) :
    ((helpNext n todo v).elim .panic (Frame.payAll ptr S)).visit = none ∨
      (helpNext n todo v).elim .panic (Frame.payAll ptr S) =
        .payAll ptr S (.help n todo (.addr v)) := by
  rw [helpNext]
  split
  · left
    split <;> rfl
  · exact .inl rfl
  · exact .inr rfl
  · exact .inl rfl

@[simp] def HelpPc.rank : HelpPc → Nat
  | .load | .drop _ _ => 38
  | .addr _ => 37
  | .await _ _ | .theirSpace _ _ _ => 5
  | .mySpace _ _ _ _ => 4
  | .write _ _ _ _ _ => 3
  | .exchange _ _ _ _ _ => 2
  | .recheck _ | .offer _ => 1

/-- Whether the word last observed is another one than what `control` holds now. -/
@[simp] def HelpPc.stale (control : Nat) : HelpPc → Nat
  | .load | .offer _ => 0
  | .addr v | .recheck v | .await v _ | .theirSpace v _ _ | .mySpace v _ _ _ | .write v _ _ _ _
  | .exchange v _ _ _ _ | .drop v _ => if control = v then 0 else 1

/-- Whether a replacement may still be asked for in this round. -/
@[simp] def HelpPc.mayAsk : HelpPc → Nat
  | .load | .addr _ | .drop _ _ => 1
  | _ => 0

/-- Whether the replacement of this round is neither handed over nor released. -/
@[simp] def HelpPc.pending : HelpPc → Nat
  | .load | .addr _ | .recheck _ | .offer _ => 0
  | _ => 1

@[simp] def HelpPc.won : HelpPc → Nat
  | .offer _ => 1
  | _ => 0

/-- A round that ends with another one: the word observed is not the one before. -/
@[simp] def HelpPc.again (m : Shared Thr Sto) (n : Thr) : HelpPc → Bool
  | .recheck v | .exchange v _ _ _ _ => m.control n ≠ v
  | _ => false

/-- What has happened during a visit: changes of the control word by others, rounds after the
first, replacements asked for, released and handed over, and the steps of the visit and of the
loads of replacements. -/
structure Rounds where
  others : Nat
  again : Nat
  asked : Nat
  released : Nat
  won : Nat
  steps : Nat

/-- The balance of a visit. -/
structure Rounds.Ok (c : Rounds) (stale mayAsk pending won rank : Nat) : Prop where
  again : c.again + stale ≤ c.others
  asked : c.asked + mayAsk ≤ c.again + 1
  resolved : c.asked = c.released + c.won + pending
  won : c.won = won
  steps : c.steps + rank ≤ 37 * (c.again + 1) + 1

/-- Where a visit stands, with what has happened in it. -/
inductive Visit (t : Thr) (ptr : Nat) (S : Sto) (n : Thr) (todo : List Thr)
    (rest : List (Frame Thr Sto)) (c : Rounds) (s : State Thr Sto) : Prop
  | during (above : List (Frame Thr Sto)) (h : HelpPc)
    (hst : s.stack t = above ++ .payAll ptr S (.help n todo h) :: rest)
    (hc : c.Ok (h.stale (s.mem.control n)) h.mayAsk h.pending h.won
      (h.rank + above.getLast?.elim 0 Frame.rank))
  | ended (above : List (Frame Thr Sto)) (f : Frame Thr Sto) (won : Nat)
    (hst : s.stack t = above ++ f :: rest) (hf : f.visit = none) (hc : c.Ok 0 0 0 won 0)
    (hw : won ≤ 1)

variable {s s' : State Thr Sto} {cfg : Config Thr Sto}

/-- The activation with `depth` others below it is in a visit. -/
def Visiting (t : Thr) (depth : Nat) (s : State Thr Sto) : Prop :=
  (((s.stack t).reverse[depth]?).bind Frame.visit).isSome = true

theorem Visiting.visit {f : Frame Thr Sto} (h : Visiting t rest.length s)
    (hst : s.stack t = above ++ f :: rest) : f.visit.isSome = true := by
  rw [Visiting, hst] at h
  simpa using h

theorem visit_callee {c : Frame Thr Sto} (h : Called c (.payAll ptr S (.help n todo v))) :
    c = .panic ∨ c = .user ∨ c.replacing = true ∧ ∃ w since, v = .await w since := by
  rcases h with h | h
  · exact .inl h
  · cases v with
    | addr w =>
      cases c with
      | user => exact .inr (.inl rfl)
      | panic => exact .inl rfl
      | intoInner src g pc =>
        rcases src with _ | ⟨S', since⟩ <;> cases h
      | _ => cases h
    | await w since =>
      right
      right
      refine ⟨?_, w, since, rfl⟩
      cases c with
      | load S' since' full pc =>
        cases h
        rfl
      | intoInner => rfl
      | _ => cases h
    | _ => exact h.elim

theorem rank_pos {c : Frame Thr Sto} (h : c.replacing = true) : 0 < c.rank := by
  cases c with
  | load S since full pc => cases pc <;> simp [Frame.rank, LoadPc.rank]
  | intoInner src g pc => cases pc <;> simp [Frame.rank, InnerPc.rank]
  | _ => cases h

theorem Rounds.Ok.ended {c : Rounds} (hc : c.Ok k a 0 w r) : c.Ok 0 0 0 w 0 := by
  have h₁ := hc.again
  have h₂ := hc.asked
  have h₃ := hc.steps
  exact ⟨by omega, by omega, hc.resolved, hc.won, by omega⟩

theorem Visit.next {s : State Thr Sto} {c : Rounds} (x : List (Frame Thr Sto))
    (hx : x.getLast?.elim 0 Frame.rank = 0)
    (hst : s.stack t = x ++ (helpNext n todo v).elim .panic (Frame.payAll ptr S) :: rest)
    (hc : c.Ok ((HelpPc.addr v).stale (s.mem.control n)) 1 0 0 37) :
    Visit t ptr S n todo rest c s := by
  rcases helpNext_visit ptr S n todo v with hf | hf
  · exact .ended x _ 0 hst hf hc.ended (Nat.zero_le _)
  · rw [hf] at hst
    refine .during x (.addr v) hst ?_
    rw [hx]
    exact hc

theorem resume_none {c : Frame Thr Sto} (hC : Called c (.payAll ptr S (.help n todo h)))
    (v : Ret Thr) : c.resume m v = none := by
  rcases visit_callee hC with rfl | rfl | ⟨hr, _⟩
  · rfl
  · rfl
  · cases c with
    | load => rfl
    | intoInner => rfl
    | _ => cases hr

variable [DecidableEq Thr]

/-- A load comes nearer to its end with each step, with a destructor before it where it drops a last
reference, or it panics. -/
theorem loadStep_rank (cfg : Config Thr Sto) (t : Thr) (k : LoadPc Thr → Frame Thr Sto)
    (hs : loadStep cfg t m S k pc = some (m', pre)) :
    pre = [.panic] ∨ ∃ pc', pc'.rank < pc.rank ∧ (pre = [k pc'] ∨ pre = [.user, k pc']) := by
  have hrelease : ∀ {a : Nat} (pc' : LoadPc Thr), pc'.rank < pc.rank →
      release m a (k pc') = (m', pre) →
      pre = [.panic] ∨ ∃ pc', pc'.rank < pc.rank ∧ (pre = [k pc'] ∨ pre = [.user, k pc']) := by
    intro a pc' hlt hs
    cases hs
    refine .inr ⟨pc', hlt, ?_⟩
    split
    · exact .inr rfl
    · exact .inl rfl
  cases pc with
  | first | confirm | candidate =>
    simp only [loadStep, Option.map_eq_some_iff] at hs
    obtain ⟨_, _, he⟩ := hs
    cases he
    split <;> first | exact .inl rfl | exact .inr ⟨_, by simp [LoadPc.rank], .inl rfl⟩
  | enter =>
    simp only [loadStep] at hs
    split at hs <;> cases hs
    refine .inr ⟨_, ?_, .inl rfl⟩
    split <;> simp [LoadPc.rank]
  | repay | pay | repayUnused =>
    simp only [loadStep] at hs
    split at hs <;> cases hs <;> exact .inr ⟨_, by simp [LoadPc.rank], .inl rfl⟩
  | setAddr =>
    simp only [loadStep] at hs
    split at hs <;> cases hs
    · exact .inr ⟨_, by simp [LoadPc.rank], .inl rfl⟩
    · exact .inl rfl
  | scan p e i =>
    cases hs
    refine .inr ⟨_, ?_, .inl rfl⟩
    split
    · simp only [LoadPc.rank]
      omega
    · split <;> simp only [LoadPc.rank] <;> omega
  | setControl g discard =>
    cases hs
    refine .inr ⟨_, ?_, .inl rfl⟩
    split <;> simp [LoadPc.rank]
  | cooldown =>
    cases hs
    split
    · exact .inr ⟨_, by simp [LoadPc.rank], .inl rfl⟩
    · exact .inl rfl
  | setIdle =>
    cases hs
    refine .inr ⟨_, ?_, .inl rfl⟩
    split <;> simp [LoadPc.rank]
  | dec c => exact hrelease (.done ⟨none, c⟩) (by simp [LoadPc.rank]) (Option.some.inj hs)
  | decUnused c r =>
    exact hrelease (.done ⟨none, r⟩) (by simp [LoadPc.rank]) (Option.some.inj hs)
  | done => cases hs
  | _ =>
    cases hs
    exact .inr ⟨_, by simp [LoadPc.rank], .inl rfl⟩

theorem loadStep_sinks (cfg : Config Thr Sto) (t : Thr)
    (hs : loadStep cfg t m S (.load S since true) pc = some (m', pre)) :
    Sinks (.load S since true pc) pre := by
  rcases loadStep_rank cfg t _ hs with rfl | ⟨pc', hlt, rfl | rfl⟩
  · exact .panic
  · exact .goto rfl hlt
  · exact .user rfl hlt

def visitStep (t : Thr) (depth : Nat) (e : Happened Thr Sto) : Option HelpPc :=
  (ownStep t depth e).bind Frame.visit

theorem visitStep_above (hst : s.stack t = x ++ c :: .payAll ptr S (.help n todo h) :: rest)
    (l : Thr × Action Thr Sto) : visitStep t rest.length ⟨s, l, s'⟩ = none := by
  rw [visitStep, ownStep_length]
  · rfl
  · simp only [hst, List.length_append, List.length_cons]
    omega

variable [DecidableEq Sto]

theorem Frame.step_sinks (cfg : Config Thr Sto) (t : Thr) {f : Frame Thr Sto}
    (hf : f.replacing = true) (hs : f.step cfg t m sp = some (m', pre)) : Sinks f pre := by
  cases f with
  | load S since full pc =>
    cases full with
    | false => cases hf
    | true =>
      rcases Frame.step_load hs with ⟨g, rfl, _, _, rfl⟩ | hs
      · exact .goto rfl (by simp [Frame.rank, LoadPc.rank, InnerPc.rank])
      · exact loadStep_sinks cfg t hs
  | intoInner src g pc =>
    cases pc with
    | start | pay =>
      simp only [Frame.step, innerStep] at hs
      split at hs <;> cases hs <;> exact .goto rfl (by simp [Frame.rank, InnerPc.rank])
    | dec =>
      apply Sinks.release (g := .intoInner src g .done) rfl (by simp [Frame.rank, InnerPc.rank])
      exact Option.some.inj hs
    | done => cases hs
  | _ => cases hf

@[simp] def HelpPc.asks (m : Shared Thr Sto) (n : Thr) (S : Sto) : HelpPc → Bool
  | .addr _ => m.activeAddr n = some S
  | _ => false

@[simp] def HelpPc.releases (m m' : Shared Thr Sto) : HelpPc → Bool
  | .drop _ r => r = 0 ∨ m'.strong r = m.strong r - 1
  | _ => false

@[simp] def HelpPc.wins (m : Shared Thr Sto) (n : Thr) : HelpPc → Bool
  | .exchange v _ _ _ _ => m.control n = v
  | _ => false

def rounds (t : Thr) (depth : Nat) (n : Thr) (S : Sto) (tr : List (Happened Thr Sto)) :
    Rounds where
  others := tr.countP fun e =>
    (visitStep t depth e).isNone && e.pre.mem.control n ≠ e.post.mem.control n
  again := tr.countP fun e => (visitStep t depth e).any (HelpPc.again e.pre.mem n)
  asked := tr.countP fun e => (visitStep t depth e).any (HelpPc.asks e.pre.mem n S)
  released := tr.countP fun e => (visitStep t depth e).any (HelpPc.releases e.pre.mem e.post.mem)
  won := tr.countP fun e => (visitStep t depth e).any (HelpPc.wins e.pre.mem n)
  steps := tr.countP fun e =>
    (visitStep t depth e).isSome || (ownStep t (depth + 1) e).any Frame.replacing

def Rounds.add (b c : Rounds) : Rounds :=
  ⟨b.others + c.others, b.again + c.again, b.asked + c.asked, b.released + c.released,
    b.won + c.won, b.steps + c.steps⟩

def HelpPc.tally (m m' : Shared Thr Sto) (n : Thr) (S : Sto) (h : HelpPc) (c : Rounds) : Rounds where
  others := c.others
  again := c.again + if h.again m n then 1 else 0
  asked := c.asked + if h.asks m n S then 1 else 0
  released := c.released + if h.releases m m' then 1 else 0
  won := c.won + if h.wins m n then 1 else 0
  steps := c.steps + 1

variable {e : Happened Thr Sto} {b : Rounds}

theorem rounds_own (h : visitStep t d e = some v) :
    b.add (rounds t d n S (e :: tr)) =
      v.tally e.pre.mem e.post.mem n S (b.add (rounds t d n S tr)) := by
  simp [Rounds.add, rounds, HelpPc.tally, List.countP_cons, h, Nat.add_assoc, -HelpPc.again,
    -HelpPc.asks, -HelpPc.wins, -HelpPc.releases]

theorem rounds_quiet (h : visitStep t d e = none)
    (hl : (ownStep t (d + 1) e).any Frame.replacing = false) :
    b.add (rounds t d n S (e :: tr)) = { b.add (rounds t d n S tr) with
      others := (b.add (rounds t d n S tr)).others +
        if e.pre.mem.control n ≠ e.post.mem.control n then 1 else 0 } := by
  simp [Rounds.add, rounds, List.countP_cons, h, hl, Nat.add_assoc]

theorem rounds_child (h : visitStep t d e = none)
    (hl : (ownStep t (d + 1) e).any Frame.replacing = true) :
    b.add (rounds t d n S (e :: tr)) = { b.add (rounds t d n S tr) with
      others := (b.add (rounds t d n S tr)).others +
        if e.pre.mem.control n ≠ e.post.mem.control n then 1 else 0
      steps := (b.add (rounds t d n S tr)).steps + 1 } := by
  simp [Rounds.add, rounds, List.countP_cons, h, hl, Nat.add_assoc]

theorem HelpPc.stale_le (h : HelpPc) (c c' : Nat) :
    h.stale c' ≤ h.stale c + if c ≠ c' then 1 else 0 := by
  by_cases hc : c = c'
  · subst hc
    exact Nat.le_add_right _ _
  · rw [if_pos hc]
    have hle : h.stale c' ≤ 1 := by
      cases h <;> simp only [stale] <;> first | omega | (split <;> omega)
    omega

theorem Rounds.Ok.quiet {c : Rounds} {h : HelpPc} (hc : c.Ok (h.stale w) k p q r) :
    ({ c with others := c.others + if w ≠ v then 1 else 0 } : Rounds).Ok (h.stale v) k p q r := by
  have hle := h.stale_le w v
  have ha := hc.again
  exact ⟨by simp only; omega, hc.asked, hc.resolved, hc.won, hc.steps⟩

/-- A step of the visit keeps the balance if what it adds makes up for what becomes possible. -/
theorem Rounds.Ok.step {c : Rounds} {s s' : Nat} (hc : c.Ok s k p w r) (ha : a + s' ≤ s)
    (hk : q + k' ≤ a + k) (hp : q + p = x + y + p') (hw : w' = w + y) (hr : 1 + r' ≤ 37 * a + r) :
    (⟨c.others, c.again + a, c.asked + q, c.released + x, c.won + y, c.steps + 1⟩ : Rounds).Ok
      s' k' p' w' r' := by
  obtain ⟨h₁, h₂, h₃, h₄, h₅⟩ := hc
  constructor <;> simp only <;> omega

theorem Visit.own {s : State Thr Sto} {c : Rounds} (hi : h.Inv m n S)
    (hs : helpStep t m S (.payAll ptr S) n todo h = some (s.mem, pre))
    (hc : c.Ok (h.stale (m.control n)) h.mayAsk h.pending h.won h.rank)
    (hst : s.stack t = pre ++ rest) :
    Visit t ptr S n todo rest (h.tally m s.mem n S c) s := by
  cases h with
  | load =>
    simp only [helpStep, Option.some.injEq, Prod.mk.injEq] at hs
    obtain ⟨hm, rfl⟩ := hs
    split at hst
    · apply Visit.next [] rfl hst
      apply hc.step <;> simp [hm]
    · refine .ended [] .panic 0 hst rfl ?_ (Nat.zero_le _)
      apply hc.step <;> simp
  | addr v =>
    simp only [helpStep] at hs
    split at hs
    · rename_i ha
      simp only [Option.some.injEq, Prod.mk.injEq] at hs
      obtain ⟨hm, rfl⟩ := hs
      refine .during [.load S (m.stamp S) true .enter] (.await v (m.stamp S)) hst ?_
      apply hc.step <;> simp [ha, ← hm, Frame.rank, LoadPc.rank, Shared.tick]
    · rename_i ha
      simp only [Option.some.injEq, Prod.mk.injEq] at hs
      obtain ⟨hm, rfl⟩ := hs
      refine .during [] (.recheck v) hst ?_
      apply hc.step <;> simp [ha, ← hm]
  | recheck v =>
    simp only [helpStep, Option.some.injEq, Prod.mk.injEq] at hs
    obtain ⟨hm, rfl⟩ := hs
    split at hst
    · rename_i hv
      refine .ended [] (.payAll ptr S (.slot n todo 0)) 0 hst rfl ?_ (Nat.zero_le _)
      apply hc.step <;> simp [hv]
    · rename_i hv
      apply Visit.next [] rfl hst
      apply hc.step <;> simp [hv, ← hm]
  | await => cases hs
  | theirSpace v since r =>
    simp only [helpStep, Option.some.injEq, Prod.mk.injEq] at hs
    obtain ⟨hm, rfl⟩ := hs
    refine .during [] (.mySpace v since r (m.spaceOffer n)) hst ?_
    apply hc.step <;> simp [← hm]
  | mySpace v since r their =>
    simp only [helpStep, Option.some.injEq, Prod.mk.injEq] at hs
    obtain ⟨hm, rfl⟩ := hs
    refine .during [] (.write v since r their (m.spaceOffer t)) hst ?_
    apply hc.step <;> simp [← hm]
  | write v since r their mine =>
    simp only [helpStep, Option.some.injEq, Prod.mk.injEq] at hs
    obtain ⟨hm, rfl⟩ := hs
    rw [if_pos ((tagOf_eq mine).trans hi.2.2)] at hst
    refine .during [] (.exchange v since r their mine) hst ?_
    apply hc.step <;> simp [← hm]
  | exchange v since r their mine =>
    simp only [helpStep] at hs
    split at hs
    · rename_i hv
      simp only [Option.some.injEq, Prod.mk.injEq] at hs
      obtain ⟨hm, rfl⟩ := hs
      refine .during [] (.offer their) hst ?_
      apply hc.step <;> simp [hv]
    · rename_i hv
      simp only [Option.some.injEq, Prod.mk.injEq] at hs
      obtain ⟨hm, rfl⟩ := hs
      refine .during [] (.drop (m.control n) r) hst ?_
      apply hc.step <;> simp [hv, ← hm]
  | offer their =>
    simp only [helpStep, Option.some.injEq, Prod.mk.injEq] at hs
    obtain ⟨hm, rfl⟩ := hs
    refine .ended [] (.payAll ptr S (.slot n todo 0)) 1 hst rfl ?_ (Nat.le_refl _)
    apply hc.step <;> simp
  | drop v r =>
    simp only [helpStep, Option.some.injEq, release, Prod.mk.injEq] at hs
    obtain ⟨hm, rfl⟩ := hs
    have hcontrol : s.mem.control n = m.control n := by
      rw [← hm]
      exact congrFun (Quiet.dec m r).control n
    have hcount : r = 0 ∨ s.mem.strong r = m.strong r - 1 := by
      rw [← hm, Shared.dec]
      split
      · exact .inl ‹_›
      · exact .inr (Function.update_self ..)
    have hok : (HelpPc.tally m s.mem n S (.drop v r) c).Ok
        ((HelpPc.addr v).stale (s.mem.control n)) 1 0 0 37 := by
      apply hc.step <;> simp [hcontrol, hcount]
    split at hst
    · exact Visit.next [.user] rfl hst hok
    · exact Visit.next [] rfl hst hok

theorem Visit.quiet {h : HelpPc} {x y : List (Frame Thr Sto)}
    (hc : (b.add (rounds t rest.length n S tr)).Ok (h.stale (s.mem.control n)) h.mayAsk
      h.pending h.won (h.rank + x.getLast?.elim 0 Frame.rank))
    (hst : s'.stack t = y ++ .payAll ptr S (.help n todo h) :: rest)
    (hv : visitStep t rest.length ⟨s, l, s'⟩ = none)
    (hl : (ownStep t (rest.length + 1) ⟨s, l, s'⟩).any Frame.replacing = false)
    (hlast : y.getLast?.elim 0 Frame.rank = x.getLast?.elim 0 Frame.rank) :
    Visit t ptr S n todo rest (b.add <| rounds t rest.length n S (⟨s, l, s'⟩ :: tr)) s' := by
  rw [rounds_quiet hv hl]
  refine .during y h hst ?_
  rw [hlast]
  exact hc.quiet

theorem Visit.child {h h' : HelpPc} {x y : List (Frame Thr Sto)}
    (hc : (b.add (rounds t rest.length n S tr)).Ok (h.stale (s.mem.control n)) h.mayAsk
      h.pending h.won (h.rank + x.getLast?.elim 0 Frame.rank))
    (hst : s'.stack t = y ++ .payAll ptr S (.help n todo h') :: rest)
    (hv : visitStep t rest.length ⟨s, l, s'⟩ = none)
    (hl : (ownStep t (rest.length + 1) ⟨s, l, s'⟩).any Frame.replacing = true)
    (hstale : ∀ w, h'.stale w = h.stale w) (hask : h'.mayAsk = h.mayAsk)
    (hpending : h'.pending = h.pending) (hwon : h'.won = h.won)
    (hrank : h'.rank + y.getLast?.elim 0 Frame.rank <
      h.rank + x.getLast?.elim 0 Frame.rank) :
    Visit t ptr S n todo rest (b.add <| rounds t rest.length n S (⟨s, l, s'⟩ :: tr)) s' := by
  rw [rounds_child hv hl]
  refine .during y h' hst ?_
  obtain ⟨h₁, h₂, h₃, h₄, h₅⟩ := hc.quiet (v := s'.mem.control n)
  rw [hstale, hask, hpending, hwon]
  exact ⟨h₁, h₂, h₃, h₄, by simp only at h₅ ⊢; omega⟩

theorem userStep_goesOn (hs : userStep m free st act = some (m', st')) :
    act.goesOn = false := by
  cases act <;> first | rfl | cases hs

variable [Fintype Thr]

theorem Visit.onTop {c : Frame Thr Sto} (hC : Called c (.payAll ptr S (.help n todo h)))
    (hc : (b.add (rounds t rest.length n S tr)).Ok (h.stale (s.mem.control n)) h.mayAsk
      h.pending h.won (h.rank + c.rank))
    (hst : s.stack t = c :: .payAll ptr S (.help n todo h) :: rest)
    (hs : threadStep cfg t s.mem s.free (s.stack t) act = some (s'.mem, s'.stack t)) :
    Visit t ptr S n todo rest (b.add <| rounds t rest.length n S (⟨s, (t, act), s'⟩ :: tr)) s' := by
  have hv : visitStep t rest.length ⟨s, (t, act), s'⟩ = none :=
    visitStep_above (x := []) hst _
  have user : act.goesOn = false → (ownStep t (rest.length + 1) ⟨s, (t, act), s'⟩).any
      Frame.replacing = false := by
    intro ha
    rw [ownStep_user ha]
    rfl
  have own : act.goesOn = true → c.replacing = true →
      (ownStep t (rest.length + 1) ⟨s, (t, act), s'⟩).any Frame.replacing = true := by
    intro ha hr
    have ho := ownStep_top (e := ⟨s, (t, act), s'⟩) rfl ha hst
    rw [List.length_cons] at ho
    rw [ho]
    exact hr
  rw [hst] at hs
  rcases threadStep_cases hs with ⟨sp, f, below, pre, rfl, he, hf, hst'⟩ | ⟨rfl, hret⟩ |
    ⟨rfl, _, hst'⟩ | ⟨hu, hs⟩
  · cases he
    rcases visit_callee hC with rfl | rfl | ⟨hr, w, since, rfl⟩
    · cases hf
    · cases hf
    · have hpos := rank_pos hr
      cases Frame.step_sinks cfg t hr hf with
      | panic =>
        refine .child (x := [c]) (y := [.panic]) hc hst' hv (own rfl hr) (fun _ => rfl)
          rfl rfl rfl ?_
        exact Nat.add_lt_add_left hpos _
      | @goto g hg hlt =>
        refine .child (x := [c]) (y := [g]) hc hst' hv (own rfl hr) (fun _ => rfl)
          rfl rfl rfl ?_
        simp only [List.getLast?_singleton, Option.elim]
        omega
      | @user g hg hlt =>
        refine .child (x := [c]) (y := [.user, g]) hc hst' hv (own rfl hr) (fun _ => rfl)
          rfl rfl rfl ?_
        simp only [List.getLast?_cons_cons, List.getLast?_singleton, Option.elim]
        omega
  · obtain ⟨f, v, below, he, hres, hcase⟩ := retStep_cases hret
    cases he
    rcases visit_callee hC with rfl | rfl | ⟨hr, w, since, rfl⟩
    · cases hres
    · cases hres
    · cases c with
      | load S' since' full pc =>
        cases full with
        | false => cases hr
        | true => cases pc <;> cases hres
      | intoInner src g pc =>
        cases pc with
        | done =>
          cases hres
          rcases hcase with ⟨_, _, hnone⟩ | ⟨f, f', below, he, hres, _, hst'⟩
          · have := hnone (.payAll ptr S (.help n todo (.await w since))) rfl
            cases this
          · cases he
            cases hres
            refine .child (x := [.intoInner src g .done]) (y := []) hc hst' hv
              (own rfl rfl) (fun _ => rfl) rfl rfl rfl ?_
            simp [Frame.rank, InnerPc.rank]
        | _ => cases hres
      | _ => cases hr
  · exact .quiet (x := [c]) (y := [c]) hc hst' hv (user rfl) rfl
  · have ha := userStep_goesOn hs
    rcases visit_callee hC with rfl | rfl | ⟨hr, w, since, rfl⟩
    · cases hu
    · generalize hst₀ : (Frame.user :: .payAll ptr S (.help n todo h) :: rest) = st at hs
      generalize hst' : s'.stack t = st' at hs
      cases (userStep_cases hs).2 with
      | stay =>
        subst hst₀
        exact .quiet (x := [.user]) (y := [.user]) hc hst' hv (user ha) rfl
      | enter =>
        subst hst₀
        exact .quiet (x := [.user]) (y := [_, .user]) hc hst' hv (user ha) rfl
      | call =>
        subst hst₀
        exact .quiet (x := [.user]) (y := [_, _, .user]) hc hst' hv (user ha) rfl
      | closure => cases hst₀
      | ret =>
        cases hst₀
        exact .quiet (x := [.user]) (y := []) hc hst' hv (user ha) rfl
    · cases c with
      | load => cases hu
      | intoInner => cases hu
      | _ => cases hr

theorem Visit.alone (hr : (machine cfg).Reach ok s)
    (hst : s.stack t = .payAll ptr S (.help n todo h) :: rest)
    (hc : (b.add (rounds t rest.length n S tr)).Ok (h.stale (s.mem.control n)) h.mayAsk
      h.pending h.won h.rank)
    (hs : State.step cfg (t, act) s = some s') :
    Visit t ptr S n todo rest (b.add <| rounds t rest.length n S (⟨s, (t, act), s'⟩ :: tr)) s' := by
  have hP := Protocol.reach hr
  have ht := State.step_own hs
  rw [hst] at ht
  rcases threadStep_cases ht with ⟨sp, f, below, pre, rfl, he, hf, hst'⟩ | ⟨_, hret⟩ |
    ⟨_, hclaim, _⟩ | ⟨hu, _⟩
  · cases he
    have hv : visitStep t rest.length ⟨s, (t, .run sp), s'⟩ = some h := by
      have ho := ownStep_top (e := ⟨s, (t, .run sp), s'⟩) rfl rfl hst
      rw [visitStep, ho]
      rfl
    rw [rounds_own hv]
    exact .own (hP.help t (.payAll ptr S (.help n todo h)) (by simp [hst])) hf hc hst'
  · obtain ⟨f, v, below, he, hv, _⟩ := retStep_cases hret
    cases he
    cases hv
  · have hn := hP.node t
    rw [hst] at hn
    have hmem := hn.listed.1 (hn.entered (.payAll ptr S (.help n todo h)) (by simp) trivial)
    rw [claimStep, if_pos hmem] at hclaim
    cases hclaim
  · cases hu

theorem Visit.deeper {c top : Frame Thr Sto} {x : List (Frame Thr Sto)}
    (hC : Called c (.payAll ptr S (.help n todo h)))
    (hst : s.stack t = top :: x ++ c :: .payAll ptr S (.help n todo h) :: rest)
    (hc : (b.add (rounds t rest.length n S tr)).Ok (h.stale (s.mem.control n)) h.mayAsk
      h.pending h.won (h.rank + c.rank))
    (hs : State.step cfg (t, act) s = some s') :
    Visit t ptr S n todo rest (b.add <| rounds t rest.length n S (⟨s, (t, act), s'⟩ :: tr)) s' := by
  have ht := State.step_own hs
  rw [hst] at ht
  rcases threadStep_above ht with ⟨x', hst'⟩ | ⟨v, f', _, _, _, hf, _⟩
  · refine .quiet (x := [c]) (y := x' ++ [c]) hc ?_ (visitStep_above hst _) ?_ ?_
    · rw [hst', List.append_assoc]
      rfl
    · rw [ownStep_length]
      · rfl
      · simp only [hst, List.length_append, List.length_cons]
        omega
    · simp
  · rw [resume_none hC] at hf
    cases hf

/-- Every step, of whatever thread, keeps the balance of a visit. -/
theorem Visit.step (hr : (machine cfg).Reach ok s) (hV : Visiting t rest.length s)
    (h : Visit t ptr S n todo rest (b.add (rounds t rest.length n S tr)) s)
    (hs : State.step cfg l s = some s') :
    Visit t ptr S n todo rest (b.add <| rounds t rest.length n S (⟨s, l, s'⟩ :: tr)) s' := by
  cases h with
  | ended above f won hst hf =>
    have hf' := hV.visit hst
    rw [hf] at hf'
    cases hf'
  | during above h hst hc =>
    have hchain := Stacked.reach hr t
    by_cases hl : l.1 = t
    · obtain ⟨x, act⟩ := l
      obtain rfl : x = t := hl
      rcases List.eq_nil_or_concat above with rfl | ⟨x', c, rfl⟩
      · exact .alone hr hst hc hs
      · rw [List.concat_eq_append] at hst hc
        rw [List.getLast?_append, List.getLast?_singleton] at hc
        rw [List.append_assoc] at hst
        rw [hst] at hchain
        cases x' with
        | nil =>
          exact .onTop (hchain.called_above (x := [])) hc hst (State.step_own hs)
        | cons a x' => exact .deeper hchain.called_above hst hc hs
    · refine .quiet hc (y := above) ((State.step_other hs hl).trans hst) ?_ ?_ rfl
      · rw [visitStep, ownStep_other hl]
        rfl
      · rw [ownStep_other hl]
        rfl

def HelpPc.base (control : Nat) (h : HelpPc) : Rounds where
  others := h.mayAsk + h.pending + h.won - 1 + h.stale control
  again := h.mayAsk + h.pending + h.won - 1
  asked := h.pending + h.won
  released := 0
  won := h.won
  steps := 0

theorem HelpPc.base_ok (control : Nat) (h : HelpPc) :
    (h.base control).Ok (h.stale control) h.mayAsk h.pending h.won h.rank := by
  constructor <;> cases h <;> simp [base]

theorem Visit.run (hr : (machine cfg).Reach ok s)
    (hst : s.stack t = .payAll ptr S (.help n todo h) :: rest)
    (htr : (machine cfg).Trace (fun l s => ok l s ∧ Visiting t rest.length s) s tr s') :
    Visit t ptr S n todo rest
      ((h.base (s.mem.control n)).add (rounds t rest.length n S tr)) s' := by
  refine htr.keeps (P := fun tr s' => Visit t ptr S n todo rest
    ((h.base (s.mem.control n)).add (rounds t rest.length n S tr)) s') hr (fun _ _ h => h.1) ?_ ?_
  · exact .during [] h hst (h.base_ok _)
  · exact fun tr l s₁ s₂ hr₁ hV hok hs => hV.step hr₁ hok.2 hs

/-- A visit goes round again only after a change of the control word that it has not made itself
and not yet observed, asks for at most one replacement in each round, hands one over at most and
has released every other one when the round is over, and makes a bounded number of steps in each
round, never being stuck as long as no counter wraps. -/
theorem help_ends {c : Rounds} (hr : (machine cfg).Reach ok s)
    (hst : s.stack t = .payAll ptr S (.help n todo h) :: rest)
    (htr : (machine cfg).Trace (fun l s => ok l s ∧ Visiting t rest.length s) s tr s')
    (hc : rounds t rest.length n S tr = c) :
    c.again ≤ c.others + h.stale (s.mem.control n) ∧
    c.asked ≤ c.again + 1 ∧ h.won + c.won ≤ 1 ∧ c.steps ≤ 37 * (c.again + 1) + 38 ∧
    (∀ above h', s'.stack t = above ++ .payAll ptr S (.help n todo h') :: rest →
      c.asked + h.pending = c.released + c.won + h'.pending) ∧
    (¬ Visiting t rest.length s' → c.asked + h.pending = c.released + c.won) ∧
    ((machine cfg).Reach NoWrap s' →
      atUser (s'.stack t) = true ∨ ∃ act, (State.step cfg (t, act) s').isSome) := by
  have hb : h.mayAsk + h.pending + h.won - 1 ≤ h.pending ∧
      h.mayAsk + h.pending + h.won - 1 ≤ 1 := by
    cases h <;> simp
  have hV := Visit.run hr hst htr
  rw [hc] at hV
  have hadvances : (machine cfg).Reach NoWrap s' → _ := fun hr' => thread_advances hr' t
  cases hV with
  | during above h' hst' hok =>
    obtain ⟨h₁, h₂, h₃, h₄, h₅⟩ := hok
    simp only [Rounds.add, HelpPc.base] at h₁ h₂ h₃ h₄ h₅
    have hw : h'.won ≤ 1 := by
      cases h' <;> simp
    refine ⟨by omega, by omega, by omega, by omega, ?_, ?_, hadvances⟩
    · intro above' h'' hst''
      have he := above_unique (hst'.symm.trans hst'')
      cases he
      omega
    · intro hV
      refine absurd ?_ hV
      rw [Visiting, hst']
      simp [Frame.visit]
  | ended above f won hst' hf hok hw =>
    obtain ⟨h₁, h₂, h₃, h₄, h₅⟩ := hok
    simp only [Rounds.add, HelpPc.base] at h₁ h₂ h₃ h₄ h₅
    refine ⟨by omega, by omega, by omega, by omega, ?_, by omega, hadvances⟩
    intro above' h'' hst''
    have he := above_unique (hst'.symm.trans hst'')
    subst he
    cases hf

instance (t : Thr) (depth : Nat) (s : State Thr Sto) : Decidable (Visiting t depth s) :=
  inferInstanceAs (Decidable (_ = true))

def State.visitBegun (s : State Thr Sto) (t : Thr) : Option (Thr × Sto × Nat) :=
  match s.stack t with
  | .payAll _ S (.help n _ .load) :: rest => some (n, S, rest.length)
  | _ => none

/-- The second thread helps the first one, which goes on by itself and stores something else. -/
def overtaken (s : State (Fin 2) (Fin 2)) :
    Option (List (Happened (Fin 2) (Fin 2)) × State (Fin 2) (Fin 2)) :=
  (machine (twoThreads false)).record (fun l s => NoWrap l s ∧ Visiting 1 2 s)
    (steps (twoThreads false) 1 16 ++ steps (twoThreads false) 0 20 ++
      [order 0 (.alloc 40), order 0 (.guardDrop ⟨none, 24⟩)] ++ steps (twoThreads false) 0 3 ++
      whole (twoThreads false) 0 (.store 0 40) ++ steps (twoThreads false) 1 2) [] s

/-- A writer has lost its replacement, which it releases, and is done with the visit. -/
theorem help_ends_overtaken :
    ∃ (s s' : State (Fin 2) (Fin 2)) (tr : List (Happened (Fin 2) (Fin 2))) (c : Rounds),
      (machine (twoThreads false)).Reach NoWrap s ∧ s.visitBegun 1 = some (0, 0, 2) ∧
      (machine (twoThreads false)).Trace (fun l s => NoWrap l s ∧ Visiting 1 2 s) s tr s' ∧
      rounds 1 2 0 0 tr = c ∧ c.again = 1 ∧ c.asked = 1 ∧ c.released = 1 ∧ c.again ≤ c.others ∧
      c.steps ≤ 37 * (c.again + 1) + 38 := by
  obtain ⟨s, hr, hp⟩ := reach_after NoWrap false
    (prepared ++ [order 0 (.load 0)] ++ steps (twoThreads false) 0 3 ++ [order 1 (.store 0 24)] ++
      steps (twoThreads false) 1 16)
    (fun s => decide (s.visitBegun 1 = some (0, 0, 2)) && (overtaken s).any fun r =>
      decide ((rounds 1 2 0 0 r.1).again = 1) && decide ((rounds 1 2 0 0 r.1).asked = 1) &&
        decide ((rounds 1 2 0 0 r.1).released = 1)) (by decide +kernel)
  simp only [Bool.and_eq_true, decide_eq_true_eq, Option.any_eq_true] at hp
  obtain ⟨hvisit, ⟨tr, s'⟩, he, ⟨hagain, hasked⟩, hreleased⟩ := hp
  have htr := Concurrent.Machine.Trace.record .nil he
  refine ⟨s, s', tr, _, hr, hvisit, htr, rfl, hagain, hasked, hreleased, ?_⟩
  rw [State.visitBegun] at hvisit
  split at hvisit
  · rename_i ptr S n todo rest hst
    simp only [Option.some.injEq, Prod.mk.injEq] at hvisit
    obtain ⟨rfl, rfl, hlen⟩ := hvisit
    have hends := help_ends hr hst (htr.mono fun _ _ h => ⟨h.1, by rw [hlen]; exact h.2⟩) rfl
    rw [hlen] at hends
    exact ⟨hends.1, hends.2.2.2.1⟩
  · cases hvisit

end ArcSwap
