import ArcSwap.RwLock.History
import ArcSwap.Exchange
import ArcSwap.Schedule

namespace ArcSwap.RwLock
set_option autoImplicit true

variable {Thr Sto : Type}

abbrev Happened (Thr Sto : Type) := Concurrent.Event (State Thr Sto) (Thr × Action Sto)

variable {m m' : Shared Sto} {st st' pre rest above : List (Frame Sto)}
variable {e : Happened Thr Sto} {pc : CasPc} {s s' : State Thr Sto}

section
variable [DecidableEq Thr]

def casOwn (t : Thr) (depth : Nat) (e : Happened Thr Sto) : Option CasPc :=
  match e.act.2, e.pre.stack t with
  | .run, .cas _ _ _ _ pc :: rest => if e.act.1 = t ∧ rest.length = depth then some pc else none
  | _, _ => none

@[simp] def wrote (m m' : Shared Sto) (S : Sto) : Bool := (m'.log S).length ≠ (m.log S).length

/-- The step puts `new` where `current` was, without a change of its count. -/
@[simp] def replaced (m m' : Shared Sto) (S : Sto) (current new : Nat) : Bool :=
  m.storage S = some current ∧ m'.storage S = some new ∧
    (m'.log S).length = (m.log S).length + 1 ∧ m'.strong new = m.strong new

/-- A step other than the drop of the new value that lowers the count of the old one. -/
@[simp] def CasPc.releases (m m' : Shared Sto) (current : Nat) : CasPc → Bool
  | .dropNew _ => false
  | _ => m'.strong current < m.strong current

@[simp] def CasPc.drops (m m' : Shared Sto) (new : Nat) : CasPc → Bool
  | .dropNew _ => new = 0 ∨ m'.strong new = m.strong new - 1
  | _ => false

def casCounts (t : Thr) (depth : Nat) (S : Sto) (current new : Nat)
    (tr : List (Happened Thr Sto)) : CasCounts where
  wrote := tr.countP fun e => (casOwn t depth e).isSome && wrote e.pre.mem e.post.mem S
  replaced := tr.countP fun e =>
    (casOwn t depth e).isSome && replaced e.pre.mem e.post.mem S current new
  released := tr.countP fun e =>
    (casOwn t depth e).any (CasPc.releases e.pre.mem e.post.mem current)
  dropped := tr.countP fun e => (casOwn t depth e).any (CasPc.drops e.pre.mem e.post.mem new)

@[simp] def CasPc.counts (current : Nat) : CasPc → CasCounts
  | .lock | .exchange | .inc _ _ | .dropNew _ => ⟨0, 0, 0, 0⟩
  | .unlock old | .done old => if old = current then ⟨1, 1, 0, 0⟩ else ⟨0, 0, 0, 1⟩

/-- The old value is only shared if it is not the one expected. -/
@[simp] def CasPc.Lost (current : Nat) : CasPc → Prop
  | .inc old _ | .dropNew old => old ≠ current
  | .lock | .exchange | .unlock _ | .done _ => True

def CasPc.tally (m m' : Shared Sto) (S : Sto) (current new : Nat) (pc : CasPc) (c : CasCounts) :
    CasCounts where
  wrote := c.wrote + if wrote m m' S then 1 else 0
  replaced := c.replaced + if replaced m m' S current new then 1 else 0
  released := c.released + if pc.releases m m' current then 1 else 0
  dropped := c.dropped + if pc.drops m m' new then 1 else 0

theorem casCounts_own (h : casOwn t d e = some pc) :
    casCounts t d S current new (e :: tr) =
      pc.tally e.pre.mem e.post.mem S current new (casCounts t d S current new tr) := by
  simp [casCounts, CasPc.tally, List.countP_cons, h, -wrote, -replaced, -CasPc.releases,
    -CasPc.drops]

theorem casCounts_other (h : casOwn t d e = none) :
    casCounts t d S current new (e :: tr) = casCounts t d S current new tr := by
  simp [casCounts, h]

theorem casOwn_other {l : Thr × Action Sto} (h : l.1 ≠ t) : casOwn t d ⟨s, l, s'⟩ = none := by
  unfold casOwn
  split
  · exact if_neg fun hc => h hc.1
  · rfl

theorem casOwn_length {l : Thr × Action Sto} (h : (s.stack t).length ≠ d + 1) :
    casOwn t d ⟨s, l, s'⟩ = none := by
  unfold casOwn
  split
  · rename_i hst
    refine if_neg fun hc => h ?_
    change s.stack t = _ at hst
    rw [hst, List.length_cons, hc.2]
  · rfl

end

theorem CasPc.tally_internal (h : m'.log = m.log) (c : CasCounts) :
    pc.tally m m' S current new c =
      ⟨c.wrote, c.replaced, c.released + if pc.releases m m' current then 1 else 0,
        c.dropped + if pc.drops m m' new then 1 else 0⟩ := by
  simp [tally, h, -CasPc.releases, -CasPc.drops]

/-- Where a call stands, with what it has done. -/
inductive Casing (t : Thr) (op : Nat) (S : Sto) (current new : Nat) (rest : List (Frame Sto))
    (c : CasCounts) (s : State Thr Sto) : Prop
  | during (above : List (Frame Sto)) (pc : CasPc)
    (hst : s.stack t = above ++ .cas op S current new pc :: rest) (hl : pc.Lost current)
    (hc : c = pc.counts current)
  | ended (h : (s.stack t).length ≤ rest.length)

variable [DecidableEq Sto]

theorem Casing.own {s : State Thr Sto}
    (hs : casStep m op S current new (.cas op S current new) pc = some (s.mem, pre))
    (hst : s.stack t = pre ++ rest) (hl : pc.Lost current) :
    Casing t op S current new rest
      (pc.tally m s.mem S current new (pc.counts current)) s := by
  cases pc with
  | lock =>
    simp only [casStep, Option.map_eq_some_iff] at hs
    obtain ⟨l, _, he⟩ := hs
    obtain ⟨hm, rfl⟩ := Prod.mk.inj he
    refine .during [] .exchange hst trivial ?_
    rw [CasPc.tally_internal (by rw [← hm]; rfl)]
    simp [← hm, Shared.setLock]
  | exchange =>
    simp only [casStep, Option.map_eq_some_iff] at hs
    obtain ⟨old, hS, he⟩ := hs
    split at he
    · rename_i hcur
      subst hcur
      obtain ⟨hm, rfl⟩ := Prod.mk.inj he
      refine .during [] (.unlock old) hst trivial ?_
      simp [CasPc.tally, ← hm, Shared.setStorage, hS]
    · rename_i hcur
      obtain ⟨hm, rfl⟩ := Prod.mk.inj he
      refine .during [] (.inc old _) hst hcur ?_
      rw [CasPc.tally_internal (by rw [hm])]
      simp [hm]
  | inc old e =>
    obtain ⟨hm, rfl⟩ := Prod.mk.inj (Option.some.inj hs)
    refine .during [] (.dropNew old) hst hl ?_
    rw [CasPc.tally_internal (by rw [← hm, (inc_same m old).log])]
    have hle : m.strong current ≤ (m.inc old).strong current := by
      rw [Shared.inc]
      split
      · exact Nat.le_refl _
      · by_cases h : current = old
        · subst h
          simp
        · simp [Function.update_of_ne h]
    simp [← hm, Nat.not_lt_of_le hle]
  | dropNew old =>
    obtain ⟨hm, rfl⟩ := Prod.mk.inj (Option.some.inj hs)
    have hback : new = 0 ∨ (m.dec new).strong new = m.strong new - 1 := by
      rw [Shared.dec]
      split
      · exact .inl ‹_›
      · exact .inr (Function.update_self ..)
    have hc : (CasPc.dropNew old).tally m s.mem S current new ((CasPc.dropNew old).counts current) =
        (CasPc.unlock old).counts current := by
      rw [CasPc.tally_internal (by rw [← hm, (dec_same m new).log])]
      simp [← hm, hback, if_neg hl]
    split at hst
    · exact .during [.user] (.unlock old) hst trivial hc
    · exact .during [] (.unlock old) hst trivial hc
  | unlock old =>
    obtain ⟨hm, rfl⟩ := Prod.mk.inj (Option.some.inj hs)
    refine .during [] (.done old) hst trivial ?_
    rw [CasPc.tally_internal (by rw [← hm]; rfl)]
    simp [← hm, Shared.setLock]
  | done => cases hs

theorem threadStep_above {top f : Frame Sto}
    (hs : threadStep m free (top :: above ++ f :: rest) act = some (m', st')) :
    ∃ above', st' = above' ++ f :: rest := by
  rw [List.cons_append] at hs
  rcases threadStep_cases hs with ⟨g, below, pre, _, he, _, rfl⟩ | ⟨_, hs⟩ | ⟨_, hs⟩
  · cases he
    exact ⟨pre ++ above, (List.append_assoc ..).symm⟩
  · obtain ⟨g, he, _⟩ := retStep_content hs
    cases he
    exact ⟨above, rfl⟩
  · cases userStep_write hs with
    | same | alloc | create => exact ⟨top :: above, rfl⟩
    | start | remove => exact ⟨_ :: top :: above, rfl⟩
    | leave he =>
      cases he
      exact ⟨above, rfl⟩

variable [DecidableEq Thr] [Fintype Thr]

def Running (t : Thr) (depth : Nat) (s : State Thr Sto) : Prop := depth < (s.stack t).length

theorem Casing.step {l : Thr × Action Sto} (hrun : Running t rest.length s)
    (h : Casing t op S current new rest (casCounts t rest.length S current new tr) s)
    (hs : State.step l s = some s') :
    Casing t op S current new rest
      (casCounts t rest.length S current new (⟨s, l, s'⟩ :: tr)) s' := by
  obtain ⟨m', st', ht, rfl⟩ := State.step_cases hs
  cases h with
  | ended h => exact absurd h (Nat.not_le_of_lt hrun)
  | during above pc hst hl hc =>
    by_cases hx : l.1 = t
    · obtain ⟨x, act⟩ := l
      obtain rfl : x = t := hx
      rw [hst] at ht
      have hst' : (State.mk m' (Function.update s.stack x st')).stack x = st' :=
        Function.update_self ..
      cases above with
      | nil =>
        rcases threadStep_cases ht with ⟨f, below, pre, rfl, he, hf, rfl⟩ | ⟨_, hret⟩ | ⟨hu, _⟩
        · cases he
          have ho : casOwn x rest.length
              ⟨s, (x, .run), ⟨m', Function.update s.stack x (pre ++ rest)⟩⟩ = some pc := by
            simp [casOwn, hst]
          rw [casCounts_own ho, hc]
          exact .own hf hst' hl
        · obtain ⟨f, he, _⟩ := retStep_content hret
          cases he
          refine .ended ?_
          rw [hst']
        · cases hu
      | cons top above =>
        obtain ⟨above', rfl⟩ := threadStep_above ht
        refine .during above' pc hst' hl ?_
        rw [casCounts_other, hc]
        apply casOwn_length
        simp only [hst, List.cons_append, List.length_cons, List.length_append]
        omega
    · refine .during above pc ?_ hl ?_
      · exact (Function.update_of_ne (Ne.symm hx) ..).trans hst
      · rw [casCounts_other (casOwn_other hx), hc]

end ArcSwap.RwLock

namespace ArcSwap
set_option autoImplicit true

instance (t : Thr) (d : Nat) (s : RwLock.State Thr Sto) : Decidable (RwLock.Running t d s) :=
  inferInstanceAs (Decidable (_ < _))

end ArcSwap
