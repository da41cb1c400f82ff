import ArcSwap.Activation
import ArcSwap.Linear

namespace ArcSwap
set_option autoImplicit true

variable {Thr Sto : Type}

/-- What a call of `compare_and_swap` does itself: writes to its storage, replacements of the
expected pointer by the new one, releases of a reference to what it has taken out of the storage,
and drops of the new value. -/
structure CasCounts where
  wrote : Nat
  replaced : Nat
  released : Nat
  dropped : Nat
deriving DecidableEq

def Frame.casPc : Frame Thr Sto → Option (CasPc Thr)
  | .cas _ _ _ _ _ pc => some pc
  | _ => none

def gaveBack (m m' : Shared Thr Sto) (a : Nat) : Bool := a = 0 ∨ m'.strong a = m.strong a - 1

variable {m m' : Shared Thr Sto} {st st' pre rest above : List (Frame Thr Sto)}

theorem gaveBack_dec (m : Shared Thr Sto) (a : Nat) : gaveBack m (m.dec a) a = true := by
  rw [gaveBack, Shared.dec, decide_eq_true_eq]
  split
  · exact .inl ‹_›
  · exact .inr (Function.update_self ..)

@[simp] def wrote (m m' : Shared Thr Sto) (S : Sto) : Bool :=
  (m'.log S).length ≠ (m.log S).length

/-- The step puts `new` where `current` was, without a change of its count. -/
@[simp] def replaced (m m' : Shared Thr Sto) (S : Sto) (current new : Nat) : Bool :=
  m.storage S = some current ∧ m'.storage S = some new ∧
    (m'.log S).length = (m.log S).length + 1 ∧ m'.strong new = m.strong new

@[simp] def CasPc.releases (m m' : Shared Thr Sto) : CasPc Thr → Bool
  | .dec old _ => gaveBack m m' old.ptr
  | _ => false

@[simp] def CasPc.drops (m m' : Shared Thr Sto) (new : Nat) : CasPc Thr → Bool
  | .dropNew _ => gaveBack m m' new
  | _ => false

def CasPc.tally (m m' : Shared Thr Sto) (S : Sto) (current new : Nat) (pc : CasPc Thr)
    (c : CasCounts) : CasCounts where
  wrote := c.wrote + if wrote m m' S then 1 else 0
  replaced := c.replaced + if replaced m m' S current new then 1 else 0
  released := c.released + if pc.releases m m' then 1 else 0
  dropped := c.dropped + if pc.drops m m' new then 1 else 0

variable {e : Happened Thr Sto} {pc : CasPc Thr}

theorem CasPc.tally_internal (h : m'.log = m.log) (c : CasCounts) :
    pc.tally m m' S current new c =
      ⟨c.wrote, c.replaced, c.released + if pc.releases m m' then 1 else 0,
        c.dropped + if pc.drops m m' new then 1 else 0⟩ := by
  simp [tally, h, -CasPc.releases, -CasPc.drops]

@[simp] def CasPc.counts : CasPc Thr → CasCounts
  | .retry | .load | .exchange _ | .drop | .dropNew _ => ⟨0, 0, 0, 0⟩
  | .pay _ _ | .dec _ _ => ⟨1, 1, 0, 0⟩
  | .done _ (some _) => ⟨1, 1, 1, 0⟩
  | .done _ none => ⟨0, 0, 0, 1⟩

/-- Where a call stands, with what it has done. -/
inductive Casing (t : Thr) (op : Nat) (S : Sto) (current new : Nat) (dst : Obj)
    (rest : List (Frame Thr Sto)) (c : CasCounts) (s : State Thr Sto) : Prop
  | during (above : List (Frame Thr Sto)) (pc : CasPc Thr)
    (hst : s.stack t = above ++ .cas op S current new dst pc :: rest) (hc : c = pc.counts)
  | ended (h : (s.stack t).length ≤ rest.length)

theorem Casing.release {s : State Thr Sto} {pc' : CasPc Thr}
    (hs : release m a (.cas op S current new dst pc') = (s.mem, pre))
    (hst : s.stack t = pre ++ rest)
    (hc : s.mem = m.dec a → pc.tally m s.mem S current new pc.counts = pc'.counts) :
    Casing t op S current new dst rest (pc.tally m s.mem S current new pc.counts) s := by
  obtain ⟨hm, rfl⟩ := Prod.mk.inj hs
  rw [hc hm.symm]
  split at hst
  · exact .during [.user] pc' hst rfl
  · exact .during [] pc' hst rfl

theorem resume_counts {f' : Frame Thr Sto}
    (h : (Frame.cas op S current new dst pc).resume m v = some f') :
    ∃ pc', f' = .cas op S current new dst pc' ∧ pc'.counts = pc.counts := by
  cases pc with
  | load =>
    cases v with
    | guard old =>
      cases h
      refine ⟨_, rfl, ?_⟩
      split <;> rfl
    | _ => cases h
  | pay old u =>
    cases v with
    | handle a =>
      cases h
      exact ⟨_, rfl, rfl⟩
    | _ => cases h
  | drop =>
    cases v with
    | unit =>
      cases h
      exact ⟨_, rfl, rfl⟩
    | _ => cases h
  | _ => cases h

variable [DecidableEq Thr]

def casOwn (t : Thr) (depth : Nat) (e : Happened Thr Sto) : Option (CasPc Thr) :=
  (ownStep t depth e).bind Frame.casPc

def casCounts (t : Thr) (depth : Nat) (S : Sto) (current new : Nat)
    (tr : List (Happened Thr Sto)) : CasCounts where
  wrote := tr.countP fun e => (casOwn t depth e).isSome && wrote e.pre.mem e.post.mem S
  replaced := tr.countP fun e =>
    (casOwn t depth e).isSome && replaced e.pre.mem e.post.mem S current new
  released := tr.countP fun e => (casOwn t depth e).any (CasPc.releases e.pre.mem e.post.mem)
  dropped := tr.countP fun e => (casOwn t depth e).any (CasPc.drops e.pre.mem e.post.mem new)

theorem casCounts_own (h : casOwn t d e = some pc) :
    casCounts t d S current new (e :: tr) =
      pc.tally e.pre.mem e.post.mem S current new (casCounts t d S current new tr) := by
  simp [casCounts, CasPc.tally, List.countP_cons, h, -wrote, -replaced, -CasPc.releases,
    -CasPc.drops]

theorem casCounts_other (h : casOwn t d e = none) :
    casCounts t d S current new (e :: tr) = casCounts t d S current new tr := by
  simp [casCounts, h]

variable [DecidableEq Sto]

section
omit [DecidableEq Thr]

theorem Casing.own {s : State Thr Sto}
    (hs : casStep m sp op S current new dst (.cas op S current new dst) pc = some (s.mem, pre))
    (hst : s.stack t = pre ++ rest) :
    Casing t op S current new dst rest (pc.tally m s.mem S current new pc.counts) s := by
  have hdec : ∀ a, (m.dec a).log = m.log := by
    intro a
    rw [Shared.dec]
    split <;> rfl
  cases pc with
  | retry =>
    simp only [casStep, Option.some.injEq, Prod.mk.injEq] at hs
    obtain ⟨hm, rfl⟩ := hs
    refine .during [_] .load hst ?_
    rw [CasPc.tally_internal (by rw [← hm]; rfl)]
    rfl
  | exchange old =>
    simp only [casStep, Option.map_eq_some_iff] at hs
    obtain ⟨ptr, hS, he⟩ := hs
    split at he
    · rename_i hcur
      obtain ⟨rfl, _⟩ := hcur
      simp only [Prod.mk.injEq] at he
      obtain ⟨hm, rfl⟩ := he
      refine .during [_] (.pay old _) hst ?_
      simp [CasPc.tally, ← hm, Shared.setStorage, hS]
    · simp only [Prod.mk.injEq] at he
      obtain ⟨hm, rfl⟩ := he
      refine .during [_] .drop hst ?_
      rw [CasPc.tally_internal (by rw [hm])]
      rfl
  | dec old u =>
    refine Casing.release (Option.some.inj hs) hst ?_
    intro hm
    rw [CasPc.tally_internal (by rw [hm, hdec])]
    simp [hm, gaveBack_dec]
  | dropNew old =>
    refine Casing.release (Option.some.inj hs) hst ?_
    intro hm
    rw [CasPc.tally_internal (by rw [hm, hdec])]
    simp [hm, gaveBack_dec]
  | load | pay | drop | done => cases hs

end

variable {s s' : State Thr Sto} {cfg : Config Thr Sto} [Fintype Thr]

theorem Casing.step (hrun : Running t rest.length s)
    (h : Casing t op S current new dst rest (casCounts t rest.length S current new tr) s)
    (hs : State.step cfg l s = some s') :
    Casing t op S current new dst rest
      (casCounts t rest.length S current new (⟨s, l, s'⟩ :: tr)) s' := by
  cases h with
  | ended h => exact absurd h (Nat.not_le_of_lt hrun)
  | during above pc hst hc =>
    by_cases hl : l.1 = t
    · obtain ⟨x, act⟩ := l
      obtain rfl : x = t := hl
      have ht := State.step_own hs
      rw [hst] at ht
      cases above with
      | nil =>
        rcases threadStep_cases ht with ⟨sp, f, below, pre, rfl, he, hf, hst'⟩ | ⟨rfl, hret⟩ |
          ⟨rfl, _, hst'⟩ | ⟨hu, _⟩
        · cases he
          have ho := ownStep_top (e := ⟨s, (x, .run sp), s'⟩) rfl rfl hst
          have hown : casOwn x rest.length ⟨s, (x, .run sp), s'⟩ = some pc := by
            rw [casOwn, ho]
            rfl
          rw [casCounts_own hown, hc]
          exact .own hf hst'
        · obtain ⟨f, v, below, he, _, ⟨_, h, _⟩ | ⟨g, g', below', hb, _, _, h⟩⟩ := retStep_cases hret
          · cases he
            exact .ended (by rw [h])
          · cases he
            refine .ended ?_
            rw [h, hb, List.length_cons, List.length_cons]
        · refine .during [] pc hst' ?_
          rw [casCounts_other, hc]
          rw [casOwn, ownStep_user rfl]
          rfl
        · cases hu
      | cons top above =>
        have hne : casOwn x rest.length ⟨s, (x, act), s'⟩ = none := by
          rw [casOwn, ownStep_length]
          · rfl
          · simp only [hst, List.cons_append, List.length_cons, List.length_append]
            omega
        rcases threadStep_above ht with ⟨above', hst'⟩ | ⟨v, f', _, _, _, hf, _, hst'⟩
        · refine .during above' pc hst' ?_
          rw [casCounts_other hne, hc]
        · obtain ⟨pc', rfl, hcounts⟩ := resume_counts hf
          refine .during [] pc' hst' ?_
          rw [casCounts_other hne, hc, hcounts]
    · refine .during above pc ((State.step_other hs hl).trans hst) ?_
      rw [casCounts_other, hc]
      rw [casOwn, ownStep_other hl]
      rfl

theorem Casing.run (hr : (machine cfg).Reach ok s)
    (hst : s.stack t = .cas op S current new dst .retry :: rest)
    (htr : (machine cfg).Trace (fun l s => ok l s ∧ Running t rest.length s) s tr s') :
    Casing t op S current new dst rest (casCounts t rest.length S current new tr) s' := by
  refine htr.keeps (P := fun tr s' => Casing t op S current new dst rest
    (casCounts t rest.length S current new tr) s') hr (fun _ _ h => h.1) ?_ ?_
  · exact .during [] .retry hst rfl
  · exact fun tr l s₁ s₂ _ h hok hs => h.step hok.2 hs

variable [Fintype Sto]

end ArcSwap
