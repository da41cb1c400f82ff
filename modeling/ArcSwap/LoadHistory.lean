import ArcSwap.History
import ArcSwap.Envelopes

namespace ArcSwap
set_option autoImplicit true

variable {Thr Sto : Type}

def LoadPc.May (m : Shared Thr Sto) (t : Thr) (p : Nat) : LoadPc Thr → Prop
  | .reserve _ | .cooldown _ | .release _ | .candidate _ => m.offered t = some p
  | .setSlot g c | .setIdle g c => m.control t = g ∧ p = c ∨ m.offered t = some p
  | .inc c | .pay c | .dec c => p = c
  | .envelope _ _ _ r | .offer _ r _ | .repayUnused _ r | .decUnused _ r => p = r
  | .done g => p = g.ptr
  | _ => False

def HelpPc.May (p : Nat) : HelpPc → Prop
  | .theirSpace _ _ r | .mySpace _ _ r _ | .write _ _ r _ _ | .exchange _ _ r _ _ => p = r
  | _ => False

/-- An activation may come to `p` as the result of its load. -/
def Frame.May (m : Shared Thr Sto) (t : Thr) (p : Nat) : Frame Thr Sto → Prop
  | .load _ _ _ pc => pc.May m t p
  | .intoInner _ g _ => p = g.ptr
  | .payAll _ _ (.help _ _ h) => h.May p
  | _ => False

def HelpPc.since : HelpPc → Option Stamp
  | .await _ s | .theirSpace _ s _ | .mySpace _ s _ _ | .write _ s _ _ _ | .exchange _ s _ _ _ =>
    some s
  | _ => none

/-- The storage and the beginning of the load that an activation is, or has asked for. -/
def Frame.source : Frame Thr Sto → Option (Sto × Stamp)
  | .load S since _ _ => some (S, since)
  | .intoInner src _ _ => src
  | .payAll _ S (.help _ _ h) => h.since.map (S, ·)
  | _ => none

/-- What a load has found before it has a result: the object read first, or that it began before
its transaction. -/
def LoadPc.Past (m : Shared Thr Sto) (t : Thr) (S : Sto) (since : Stamp) : LoadPc Thr → Prop
  | .scan p e _ | .take p e _ | .confirm p e _ | .repay p e _ =>
    Concurrent.HeldSince (m.log S) since.version (p, e)
  | .reserve _ | .cooldown _ | .release _ | .candidate _ | .setSlot _ _ | .setIdle _ _ =>
    since.version ≤ (m.publishedAt t).version
  | _ => True

def Frame.Past (m : Shared Thr Sto) (t : Thr) : Frame Thr Sto → Prop
  | .load S since _ pc => pc.Past m t S since
  | _ => True

/-- The result of a load is an object its storage has held since the load began. -/
structure Frame.Genuine (m : Shared Thr Sto) (t : Thr) (f : Frame Thr Sto) : Prop where
  begun : ∀ S since, f.source = some (S, since) → since.version ≤ (m.log S).length
  may : ∀ S since, f.source = some (S, since) → ∀ p, f.May m t p →
    Concurrent.HeldSince (m.log S) since.version (m.objAt p)
  past : f.Past m t

/-- A step in which a load keeps what it read first although its debt was paid by somebody else
leads back to the same object only if no other one has come to its address. -/
def FirstReadStays (l : Thr × Action Thr Sto) (σ : State Thr Sto) : Prop :=
  ∀ S since full p e d rest, σ.stack l.1 = .load S since full (.repay p e d) :: rest →
    σ.mem.debt d ≠ p → σ.mem.epoch p = e

def firstReadStays [DecidableEq Thr] (l : Thr × Action Thr Sto) (σ : State Thr Sto) : Bool :=
  match σ.stack l.1 with
  | .load _ _ _ (.repay p e d) :: _ => σ.mem.debt d = p || σ.mem.epoch p = e
  | _ => true

instance [DecidableEq Thr] (l : Thr × Action Thr Sto) (σ : State Thr Sto) :
    Decidable (FirstReadStays l σ) :=
  decidable_of_iff (firstReadStays l σ = true) (by
    rw [firstReadStays]
    split
    · rename_i S since full p e d rest hst
      rw [Bool.or_eq_true, decide_eq_true_eq, decide_eq_true_eq, FirstReadStays, hst]
      refine ⟨?_, fun h => ?_⟩
      · rintro h _ _ _ _ _ _ _ ⟨⟩ hd
        exact h.resolve_left hd
      · by_cases hd : σ.mem.debt d = p
        · exact .inl hd
        · exact .inr (h S since full p e d rest rfl hd)
    · rename_i hst
      refine ⟨fun _ S since full p e d rest he => (hst _ _ _ _ _ _ _ he).elim, fun _ => rfl⟩)

theorem Frame.Genuine.of_source {f : Frame Thr Sto} (h : f.source = none) : f.Genuine m t := by
  refine ⟨?_, ?_, ?_⟩
  · intro S since hs
    rw [h] at hs
    cases hs
  · intro S since hs
    rw [h] at hs
    cases hs
  · cases f with
    | load => cases h
    | _ => trivial

theorem Frame.Genuine.load {pc : LoadPc Thr} (hb : since.version ≤ (m.log S).length)
    (hmay : ∀ p, pc.May m t p → Concurrent.HeldSince (m.log S) since.version (m.objAt p))
    (hpast : pc.Past m t S since) : (Frame.load S since full pc).Genuine m t := by
  refine ⟨?_, ?_, hpast⟩
  · rintro _ _ ⟨⟩
    exact hb
  · rintro _ _ ⟨⟩
    exact hmay

variable {m m' : Shared Thr Sto} {st st' pre rest : List (Frame Thr Sto)}

theorem helpNext_source (n : Thr) (todo : List Thr) (v ptr : Nat) (S : Sto) :
    ((helpNext n todo v).elim .panic (Frame.payAll ptr S)).source = none := by
  simp only [helpNext]
  split
  · split <;> rfl
  · rfl
  · rfl
  · rfl

theorem Frame.Genuine.keep {f f' : Frame Thr Sto} (h : f.Genuine m t) (hlog : m'.log = m.log)
    (hepoch : m'.epoch = m.epoch) (hs : f'.source = f.source)
    (hmay : ∀ p, f'.May m' t p → f.May m t p) (hpast : f'.Past m' t) : f'.Genuine m' t := by
  have hobj : m'.objAt = m.objAt := by
    funext a
    rw [Shared.objAt, Shared.objAt, hepoch]
  refine ⟨?_, ?_, hpast⟩
  · rw [hs, hlog]
    exact h.begun
  · rw [hs, hlog, hobj]
    exact fun S since he p hp => h.may S since he p (hmay p hp)

theorem Frame.Genuine.enter (full : Bool) (hlog : m'.log = m.log) :
    (Frame.load S (m.stamp S) full .enter : Frame Thr Sto).Genuine m' t := by
  refine .load ?_ (fun _ h => h.elim) trivial
  rw [hlog]
  exact Nat.le_refl _

theorem Frame.Parked.may {f : Frame Thr Sto} (h : f.Parked) (hm : f.May m' t p) :
    f.May m t p := by
  cases f with
  | load S since full pc =>
    cases pc with
    | done => exact hm
    | _ => exact h.elim
  | payAll ptr S pc => cases pc <;> exact hm
  | _ => exact hm

theorem Frame.Parked.past {f : Frame Thr Sto} (h : f.Parked) : f.Past m t := by
  cases f with
  | load S since full pc =>
    cases pc with
    | done => trivial
    | _ => exact h.elim
  | _ => trivial

variable {σ σ' : State Thr Sto} {cfg : Config Thr Sto}

theorem stays_of_strong (h : a ≠ 0 → a ≠ debtNone → 0 < σ.mem.strong a) : σ.mem.Stays a := by
  by_cases ha : a = 0
  · exact .inl ha
  by_cases ha3 : a = debtNone
  · exact .inr (.inl ha3)
  · exact .inr (.inr (h ha ha3))

theorem NodeOk.head {f : Frame Thr Sto} (hn : NodeOk w m t st) (hf : f ∈ st) (hp : ¬ f.Parked) :
    ∃ rest, st = f :: rest := by
  cases st with
  | nil => cases hf
  | cons g rest =>
    rcases List.mem_cons.1 hf with rfl | hf
    · exact ⟨rest, rfl⟩
    · exact absurd (hn.parked f hf) hp

theorem Frame.may_congr {f : Frame Thr Sto} (hc : m'.control t = m.control t)
    (ho : m'.offered t = m.offered t) : f.May m' t p ↔ f.May m t p := by
  cases f with
  | load S since full pc =>
    show pc.May m' t p ↔ pc.May m t p
    cases pc <;> simp only [LoadPc.May, hc, ho]
  | payAll ptr S pc => cases pc <;> rfl
  | _ => rfl

/-- Every load returns an object its storage has held since the load began. -/
structure Genuine (σ : State Thr Sto) : Prop where
  frame : ∀ t, ∀ f ∈ σ.stack t, f.Genuine σ.mem t
  calls : ∀ S since till o, .load S since till o ∈ σ.mem.calls →
    Concurrent.HeldDuring (σ.mem.log S) since.version till.version o

theorem Frame.Entry.genuine {f : Frame Thr Sto} (h : f.Entry m m')
    (hlog : ∀ S, ∃ newer, m'.log S = newer ++ m.log S) : f.Genuine m' t := by
  unfold Frame.Entry at h
  split at h
  · rename_i S since full
    subst h
    refine .load ?_ (fun _ h => h.elim) trivial
    obtain ⟨newer, he⟩ := hlog S
    rw [he, List.length_append]
    exact Nat.le_add_left ..
  · exact .of_source h
  all_goals first
    | exact .of_source rfl
    | exact h.elim

theorem Frame.Outer.genuine {f : Frame Thr Sto} (h : f.Outer m m') : f.Genuine m' t := by
  unfold Frame.Outer at h
  split at h <;> first
    | exact .of_source rfl
    | exact h.elim

theorem Frame.Genuine.call {f : Frame Thr Sto} (h : f.Genuine m t)
    (hc : f.call m = some (.load S since till o)) :
    Concurrent.HeldDuring (m.log S) since.version till.version o := by
  unfold Frame.call at hc
  split at hc <;> cases hc
  · exact h.may _ _ rfl _ rfl
  · exact h.may _ _ rfl _ rfl

theorem Genuine.initial (cfg : Config Thr Sto) : Genuine (State.initial cfg) where
  frame _ _ h := by cases h
  calls _ _ _ _ h := by cases h

theorem Frame.Genuine.advance {f : Frame Thr Sto} (h : f.Genuine m t)
    (hlog : ∀ S, ∃ newer, m'.log S = newer ++ m.log S)
    (hmay : ∀ S since, f.source = some (S, since) → ∀ p, f.May m' t p →
      f.May m t p ∧ m'.epoch p = m.epoch p ∨
      Concurrent.HeldSince (m'.log S) since.version (m'.objAt p))
    (hat : f.Parked ∨ m'.publishedAt t = m.publishedAt t) : f.Genuine m' t := by
  have held : ∀ {S k o}, Concurrent.HeldSince (m.log S) k o →
      Concurrent.HeldSince (m'.log S) k o := by
    intro S k o hh
    obtain ⟨newer, he⟩ := hlog S
    rw [he]
    exact hh.append newer
  refine ⟨?_, ?_, ?_⟩
  · intro S since hs
    obtain ⟨newer, he⟩ := hlog S
    rw [he, List.length_append]
    exact Nat.le_trans (h.begun S since hs) (Nat.le_add_left ..)
  · intro S since hs p hp
    rcases hmay S since hs p hp with ⟨hp', he⟩ | hh
    · rw [Shared.objAt, he]
      exact held (h.may S since hs p hp')
    · exact hh
  · rcases hat with hp | hat
    · exact hp.past
    · have hpast := h.past
      cases f with
      | load S since full pc =>
        cases pc with
        | scan | take | confirm | repay => exact held hpast
        | reserve | cooldown | release | candidate | setSlot | setIdle =>
          show since.version ≤ (m'.publishedAt t).version
          rw [hat]
          exact hpast
        | _ => trivial
      | _ => trivial

/-- A helper goes on with the result of its load. -/
theorem Called.genuine {f g g' : Frame Thr Sto} (hc : Called f g) (hv : f.result = some v)
    (hg : g.resume m v = some g') (hf : f.Genuine m t) (hlog : m'.log = m.log)
    (hepoch : m'.epoch = m.epoch) : g'.Genuine m' t := by
  have ha := hc.resolve_left (Frame.result_ne_panic hv)
  unfold Frame.resume at hg
  split at hg <;> cases hg <;> first
    | exact .of_source rfl
    | skip
  · rename_i S n todo w since a
    have hsrc : f.source = some (S, since) ∧ f.May m t a := by
      cases f with
      | load S' since' full pc =>
        cases pc with
        | done => cases full <;> cases hv
        | _ => cases full <;> cases hv
      | intoInner src g pc =>
        cases src with
        | none => cases ha
        | some x =>
          cases ha
          cases pc with
          | done =>
            cases hv
            exact ⟨rfl, rfl⟩
          | _ => cases hv
      | _ => cases ha
    refine hf.keep hlog hepoch hsrc.1.symm ?_ trivial
    rintro _ rfl
    exact hsrc.2

variable [DecidableEq Thr]

theorem loadStep_genuine (cfg : Config Thr Sto) {pc : LoadPc Thr}
    (hg : (Frame.load S since full pc).Genuine m t) (ht : pc.NodeInv m t S)
    (hw : Writing m t (.load S since full pc :: rest))
    (hS : ∀ p, m.storage S = some p →
      Concurrent.HeldSince (m.log S) since.version (m.objAt p))
    (hfirst : ∀ p e d, pc = .repay p e d → m.debt d ≠ p → m.epoch p = e)
    (hs : loadStep cfg t m S (.load S since full) pc = some (m', pre)) :
    ∀ f ∈ pre, f.Genuine m' t := by
  have hi := loadStep_internal cfg t _ hs
  have hb := hg.begun S since rfl
  have hmay : ∀ p, pc.May m t p → Concurrent.HeldSince (m.log S) since.version (m.objAt p) :=
    hg.may S since rfl
  have hpast : pc.Past m t S since := hg.past
  have hobj : m'.objAt = m.objAt := by
    funext a
    rw [Shared.objAt, Shared.objAt, hi.epoch]
  have goto : ∀ pc' : LoadPc Thr,
      (∀ p, pc'.May m' t p → Concurrent.HeldSince (m.log S) since.version (m.objAt p)) →
      pc'.Past m' t S since → (Frame.load S since full pc').Genuine m' t := by
    intro pc' hmay' hpast'
    refine .load (hi.log ▸ hb) ?_ hpast'
    rw [hi.log, hobj]
    exact hmay'
  have one : ∀ {f : Frame Thr Sto}, f.Genuine m' t → ∀ g ∈ [f], g.Genuine m' t := by
    intro f hf g hg
    rw [List.mem_singleton.1 hg]
    exact hf
  have rel : ∀ {a : Nat} {pc'}, (Frame.load S since full pc').Genuine m' t →
      ∀ f ∈ (if m.destroys a then [Frame.user, .load S since full pc'] else [.load S since full pc']),
        f.Genuine m' t := by
    intro a pc' hf f hmem
    split at hmem
    · rcases List.mem_cons.1 hmem with rfl | hmem
      · exact .of_source rfl
      · exact one hf f hmem
    · exact one hf f hmem
  have panic : (Frame.panic : Frame Thr Sto).Genuine m' t := .of_source rfl
  cases pc with
  | enter =>
    simp only [loadStep] at hs
    split at hs <;> cases hs
    refine one ?_
    split <;> exact goto _ (fun _ h => h.elim) trivial
  | first =>
    simp only [loadStep, Option.map_eq_some_iff] at hs
    obtain ⟨p, hp, he⟩ := hs
    cases he
    refine one ?_
    split
    · exact goto _ (fun _ h => h.elim) (hS p hp)
    · exact panic
  | scan p e i =>
    cases hs
    refine one ?_
    split
    · exact goto _ (fun _ h => h.elim) hpast
    · split
      · exact goto _ (fun _ h => h.elim) hpast
      · exact goto _ (fun _ h => h.elim) trivial
  | take p e d =>
    cases hs
    exact one (goto _ (fun _ h => h.elim) hpast)
  | confirm p e d =>
    simp only [loadStep, Option.map_eq_some_iff] at hs
    obtain ⟨q, hq, he⟩ := hs
    cases he
    refine one ?_
    split
    · refine goto _ ?_ trivial
      intro x hx
      rw [show x = q from hx]
      exact hS q hq
    · exact goto _ (fun _ h => h.elim) hpast
  | repay p e d =>
    simp only [loadStep] at hs
    split at hs
    · cases hs
      exact one (goto _ (fun _ h => h.elim) trivial)
    · rename_i hd
      cases hs
      refine one (goto _ ?_ trivial)
      intro x hx
      have hobj : m.objAt p = (p, e) := by rw [Shared.objAt, hfirst p e d rfl hd]
      rw [show x = p from hx, hobj]
      exact hpast
  | setAddr =>
    simp only [loadStep] at hs
    split at hs <;> cases hs
    · exact one (goto _ (fun _ h => h.elim) trivial)
    · exact one panic
  | setControl g b =>
    cases hs
    have hnone : ∀ p, m.offered t = some p → False := by
      intro p hp
      rw [ht.1.2] at hp
      cases hp
    refine one ?_
    split
    · refine goto _ (fun p hp => (hnone p hp).elim) ?_
      simpa [LoadPc.Past, Shared.stamp] using hb
    · refine goto _ (fun p hp => (hnone p hp).elim) ?_
      simpa [LoadPc.Past, Shared.stamp] using hb
  | reserve | release =>
    cases hs
    exact one (goto _ hmay hpast)
  | cooldown g =>
    cases hs
    refine one ?_
    split
    · exact goto _ hmay hpast
    · exact panic
  | candidate g =>
    simp only [loadStep, Option.map_eq_some_iff] at hs
    obtain ⟨c, hc, he⟩ := hs
    cases he
    refine one ?_
    split
    · refine goto _ ?_ hpast
      rintro p (⟨_, rfl⟩ | hp)
      · exact hS p hc
      · exact hmay p hp
    · exact panic
  | setSlot g c =>
    cases hs
    exact one (goto _ hmay hpast)
  | setIdle g c =>
    cases hs
    refine one ?_
    split
    · rename_i hc
      refine goto _ ?_ trivial
      rintro _ rfl
      exact hmay _ (.inl ⟨hc, rfl⟩)
    · rename_i hc
      refine goto _ ?_ trivial
      obtain ⟨_, _, _, h | ⟨_, h⟩, _⟩ := ht.1
      · exact absurd h.1 hc
      · obtain ⟨r, hr⟩ := Option.isSome_iff_exists.1 h
        rw [hr]
        rintro _ rfl
        exact hmay _ (.inr hr)
  | inc c =>
    cases hs
    exact one (goto _ hmay trivial)
  | pay c =>
    simp only [loadStep] at hs
    split at hs <;> cases hs <;> exact one (goto _ hmay trivial)
  | dec c =>
    cases hs
    exact rel (goto _ hmay trivial)
  | envelope g c space p =>
    cases hs
    have hp : m.handover space = p := hw
    refine one (goto _ ?_ trivial)
    rw [hp]
    exact hmay
  | offer c r space =>
    cases hs
    exact one (goto _ hmay trivial)
  | repayUnused c r =>
    simp only [loadStep] at hs
    split at hs <;> cases hs <;> exact one (goto _ hmay trivial)
  | decUnused c r =>
    cases hs
    exact rel (goto _ hmay trivial)
  | done => cases hs

variable [DecidableEq Sto]

theorem payStep_genuine (hg : (Frame.payAll ptr S pc).Genuine m t)
    (hs : payStep t m ptr S (.payAll ptr S) pc = some (m', pre)) : ∀ f ∈ pre, f.Genuine m' t := by
  have hi := (payStep_internal t _ hs).1
  have one : ∀ {f : Frame Thr Sto}, f.Genuine m' t → ∀ g ∈ [f], g.Genuine m' t := by
    intro f hf g hg
    rw [List.mem_singleton.1 hg]
    exact hf
  have none : ∀ pc' : PayPc Thr, (Frame.payAll ptr S pc').source = none →
      (Frame.payAll ptr S pc').Genuine m' t := fun _ h => .of_source h
  have slots : ∀ n todo j, (Frame.payAll ptr S (nextSlot n todo j)).Genuine m' t := by
    intro n todo j
    rw [nextSlot]
    split <;> exact none _ rfl
  have next : ∀ n todo v,
      ((helpNext n todo v).elim .panic (Frame.payAll ptr S)).Genuine m' t :=
    fun n todo v => .of_source (helpNext_source n todo v ptr S)
  cases pc with
  | start =>
    simp only [payStep] at hs
    split at hs <;> cases hs
    exact one (none _ rfl)
  | next todo =>
    cases todo <;> cases hs <;> exact one (none _ rfl)
  | help n todo h =>
    cases h with
    | load =>
      cases hs
      refine one ?_
      split
      · exact next ..
      · exact .of_source rfl
    | addr v =>
      simp only [payStep, helpStep] at hs
      split at hs <;> cases hs
      · refine List.forall_mem_cons.2 ⟨.enter true rfl, one ⟨?_, ?_, trivial⟩⟩
        · rintro _ _ ⟨⟩
          exact Nat.le_refl _
        · exact fun _ _ _ _ h => h.elim
      · exact one (none _ rfl)
    | recheck v =>
      cases hs
      refine one ?_
      split
      · exact none _ rfl
      · exact next ..
    | await => cases hs
    | write v since r their mine =>
      cases hs
      refine one ?_
      split
      · exact hg.keep hi.log hi.epoch rfl (fun _ h => h) trivial
      · exact .of_source rfl
    | exchange v since r their mine =>
      simp only [payStep, helpStep] at hs
      split at hs <;> cases hs <;> exact one (none _ rfl)
    | drop v r =>
      cases hs
      split
      · exact List.forall_mem_cons.2 ⟨.of_source rfl, one (next ..)⟩
      · exact one (next ..)
    | offer =>
      cases hs
      exact one (none _ rfl)
    | _ =>
      cases hs
      exact one (hg.keep hi.log hi.epoch rfl (fun _ h => h) trivial)
  | slot n todo j =>
    simp only [payStep] at hs
    split at hs <;> cases hs
    · exact one (none _ rfl)
    · exact one (slots ..)
  | inc n todo j =>
    cases hs
    exact one (slots ..)
  | dec =>
    cases hs
    split
    · exact List.forall_mem_cons.2 ⟨.of_source rfl, one (none _ rfl)⟩
    · exact one (none _ rfl)
  | done => cases hs
  | _ =>
    cases hs
    exact one (none _ rfl)

theorem Frame.step_genuine (cfg : Config Thr Sto) {f : Frame Thr Sto} (hg : f.Genuine m t)
    (htop : NodeTop m t (f :: rest)) (hw : Writing m t (f :: rest))
    (hS : ∀ S since full pc, f = .load S since full pc → ∀ p, m.storage S = some p →
      Concurrent.HeldSince (m.log S) since.version (m.objAt p))
    (hfirst : ∀ S since full p e d, f = .load S since full (.repay p e d) → m.debt d ≠ p →
      m.epoch p = e)
    (hs : f.step cfg t m sp = some (m', pre)) : ∀ g ∈ pre, g.Genuine m' t := by
  have one : ∀ {f : Frame Thr Sto}, f.Genuine m' t → ∀ g ∈ [f], g.Genuine m' t := by
    intro f hf g hg
    rw [List.mem_singleton.1 hg]
    exact hf
  have two : ∀ {f f' : Frame Thr Sto}, f.Genuine m' t → f'.Genuine m' t →
      ∀ g ∈ [f, f'], g.Genuine m' t :=
    fun hf hf' => List.forall_mem_cons.2 ⟨hf, one hf'⟩
  have rel : ∀ {a : Nat} {f : Frame Thr Sto}, f.Genuine m' t →
      ∀ g ∈ (if m.destroys a then [Frame.user, f] else [f]), g.Genuine m' t := by
    intro a f hf
    split
    · exact two (.of_source rfl) hf
    · exact one hf
  cases f with
  | user => cases hs
  | panic => cases hs
  | load S since full pc =>
    rcases Frame.step_load hs with ⟨g, rfl, rfl, rfl, rfl⟩ | hs
    · exact one (hg.keep rfl rfl rfl (fun _ h => h) trivial)
    · exact loadStep_genuine cfg hg htop hw (hS S since full pc rfl)
        (fun p e d he => hfirst S since full p e d (by rw [he])) hs
  | payAll ptr S pc => exact payStep_genuine hg hs
  | intoInner src g pc =>
    cases pc with
    | start =>
      simp only [Frame.step, innerStep] at hs
      split at hs <;> cases hs
      · exact one (hg.keep rfl rfl rfl (fun _ h => h) trivial)
      · have hi := Internal.inc m g.ptr
        exact one (hg.keep hi.log hi.epoch rfl (fun _ h => h) trivial)
    | pay d =>
      simp only [Frame.step, innerStep] at hs
      split at hs <;> cases hs <;> exact one (hg.keep rfl rfl rfl (fun _ h => h) trivial)
    | dec =>
      cases hs
      have hi := Internal.dec m g.ptr
      exact rel (hg.keep hi.log hi.epoch rfl (fun _ h => h) trivial)
    | done => cases hs
  | guardDrop g pc =>
    cases pc with
    | start =>
      simp only [Frame.step, dropStep] at hs
      split at hs
      · cases hs
        exact one (.of_source rfl)
      · split at hs <;> cases hs <;> exact one (.of_source rfl)
    | dec =>
      cases hs
      exact rel (.of_source rfl)
    | done => cases hs
  | swap op S new pc =>
    cases pc with
    | start =>
      simp only [Frame.step, swapStep, Option.map_eq_some_iff] at hs
      obtain ⟨old, _, he⟩ := hs
      cases he
      exact two (.of_source rfl) (.of_source rfl)
    | await => cases hs
    | done => cases hs
  | discard pc =>
    cases pc with
    | await => cases hs
    | dec a =>
      cases hs
      exact rel (.of_source rfl)
    | done => cases hs
  | cas op S current new dst pc =>
    cases pc with
    | retry =>
      cases hs
      exact two (.enter false rfl) (.of_source rfl)
    | exchange old =>
      simp only [Frame.step, casStep, Option.map_eq_some_iff] at hs
      obtain ⟨ptr, _, he⟩ := hs
      split at he <;> cases he <;> exact two (.of_source rfl) (.of_source rfl)
    | dec | dropNew =>
      cases hs
      exact rel (.of_source rfl)
    | _ => cases hs
  | rcu op S pc =>
    cases pc with
    | compare cur prev arg res =>
      simp only [Frame.step, rcuStep] at hs
      split at hs <;> cases hs <;> exact two (.of_source rfl) (.of_source rfl)
    | release cur ret arg res =>
      cases hs
      exact two (.of_source rfl) (.of_source rfl)
    | _ => cases hs

theorem threadStep_offered (hn : NodeOk w m t st)
    (hs : threadStep cfg t m free st act = some (m', st')) (hne : n ≠ t) :
    m'.offered n = m.offered n ∨ ∃ ptr S todo v since r their mine rest,
      st = .payAll ptr S (.help n todo (.exchange v since r their mine)) :: rest ∧
        m.control n = v ∧ m'.offered n = some r := by
  rcases threadStep_space hn hs with ⟨f, rest, pre, rfl, hf, _⟩ | ⟨hm, _⟩
  · cases hf with
    | other hq => exact .inl (by rw [hq.offered])
    | withdraw => exact .inl (Function.update_of_ne hne ..)
    | @exchange n' v ptr S todo since r their mine hc =>
      by_cases hnn : n = n'
      · subst hnn
        exact .inr ⟨ptr, S, todo, v, since, r, their, mine, rest, rfl, hc, Function.update_self ..⟩
      · exact .inl (Function.update_of_ne hnn ..)
    | _ => exact .inl rfl
  · exact .inl (by rw [hm.offered])

variable {act : Action Thr Sto}

theorem threadStep_calls (hs : threadStep cfg t m free st act = some (m', st')) :
    ∀ c ∈ m'.calls, c ∈ m.calls ∨ act = .ret ∧ ∃ f ∈ st.head?, f.call m = some c := by
  rcases threadStep_cases hs with ⟨sp, f, rest, pre, _, _, hf, _⟩ | ⟨hact, h⟩ | ⟨_, h, _⟩ | ⟨_, h⟩
  · rcases (Frame.step_cases cfg t hf).internal_or_write with hi | hw
    · rw [hi.calls]
      exact fun c hc => .inl hc
    · cases hw <;> exact fun c hc => .inl hc
  · obtain ⟨f, v, rest, rfl, _, hm⟩ := retStep_cases h
    have record : ∀ c ∈ (m.record f).calls,
        c ∈ m.calls ∨ act = .ret ∧ ∃ g ∈ (f :: rest).head?, g.call m = some c := by
      intro c hc
      rcases List.mem_append.1 hc with hc | hc
      · exact .inr ⟨hact, f, rfl, by simpa using hc⟩
      · exact .inl hc
    rcases hm with ⟨rfl, _⟩ | ⟨g, _, _, _, _, rfl, _⟩
    · cases v <;> exact record
    · unfold Shared.recordFor
      split
      · exact fun c hc => .inl hc
      · exact record
  · rw [claimStep] at h
    split at h <;> cases h
    exact fun c hc => .inl hc
  · have hw := userStep_write h
    clear h hs
    cases hw with
    | same _ _ _ hc =>
      rw [hc]
      exact fun c hc => .inl hc
    | alloc h =>
      rw [allocate_eq h]
      exact fun c hc => .inl hc
    | create _ h =>
      rw [takeHandle_eq h]
      exact fun c hc => .inl hc
    | remove => exact fun c hc => .inl hc

variable [Fintype Thr] [Fintype Sto]

theorem stays_of_owned (hr : (machine cfg).Reach ok σ) (hf : f ∈ σ.stack t) (ho : a ∈ f.owned) :
    σ.mem.Stays a :=
  stays_of_strong fun ha ha3 => strong_pos_of_owned hr ha ha3 (List.mem_flatMap.2 ⟨f, hf, ho⟩)

theorem stays_of_held (hr : (machine cfg).Reach ok σ) (hf : f ∈ σ.stack t) (hg : g ∈ f.held) :
    σ.mem.Stays g.ptr := by
  refine stays_of_strong fun ha ha3 => strong_pos hr ha ha3 (.inl ⟨g.debt, ?_⟩)
  exact Nat.lt_of_lt_of_le (le_sum_count (F := fun t => (σ.stack t).flatMap Frame.held)
    (List.mem_flatMap.2 ⟨f, hf, hg⟩)) (Nat.le_add_left ..)

theorem stays_of_offered (hr : (machine cfg).Reach ok σ) (ho : σ.mem.offered n = some a) :
    σ.mem.Stays a := by
  refine stays_of_strong fun ha ha3 => ?_
  have hc : (σ.account a).refs none ≤ σ.mem.strong a := (Balanced.reach hr ha ha3).counted_le
  have hpos : 0 < σ.mem.offers a := Finset.card_pos.2 ⟨n, by simpa using ho⟩
  have hn : σ.mem.offers a ≤ (σ.account a).refs none := by
    simp only [State.account, Shared.refs, if_true]
    omega
  omega

theorem stays_of_candidate (hr : (machine cfg).Reach ok σ)
    (hst : σ.stack t = .load S since full pc :: rest) (hc : pc.candidate? = some (g, c))
    (hg : σ.mem.control t = g) : σ.mem.Stays c := by
  refine stays_of_strong fun ha ha3 => ?_
  have hcov := ((Coverage.reach hr).guarded t S since full pc rest g c hst hc hg).covered 8
  exact Nat.zero_lt_of_lt (Nat.lt_of_lt_of_le hcov.handles_lt (Balanced.reach hr ha ha3).counted_le)

theorem stays_of_confirmed (hr : (machine cfg).Reach ok σ)
    (hst : σ.stack t = .load S since full (.inc c) :: rest) : σ.mem.Stays c := by
  refine stays_of_strong fun ha ha3 => ?_
  have hu := le_sum_count (F := fun t => (σ.stack t).flatMap (Frame.unresolved t)) (t := t)
    (x := ⟨some (helpingSlot t), c⟩) (by simp [hst, Frame.unresolved])
  have hs := σ.refs_some (helpingSlot t) c
  refine Nat.zero_lt_of_lt (handles_lt_of_recorded hr ha ha3 (d := helpingSlot t) (by omega) ?_)
  rintro ⟨f, hf, hfd⟩
  rw [helpingSlot, hst] at hf
  cases hf
  cases hfd

/-- The object that a load is to return is alive. -/
theorem stays_of_may (hr : (machine cfg).Reach ok σ) (hf : f ∈ σ.stack t)
    (hm : f.May σ.mem t p) : σ.mem.Stays p := by
  cases f with
  | load S since full pc =>
    have head : ¬ (Frame.load S since full pc).Parked →
        ∃ rest, σ.stack t = .load S since full pc :: rest :=
      ((Protocol.reach hr).node t).head hf
    cases pc with
    | reserve | cooldown | release | candidate => exact stays_of_offered hr hm
    | setSlot g c | setIdle g c =>
      rcases hm with ⟨hg, rfl⟩ | ho
      · obtain ⟨rest, hst⟩ := head id
        exact stays_of_candidate hr hst rfl hg
      · exact stays_of_offered hr ho
    | inc c =>
      obtain rfl : p = c := hm
      obtain ⟨rest, hst⟩ := head id
      exact stays_of_confirmed hr hst
    | pay | dec | envelope | offer | repayUnused | decUnused =>
      cases hm
      exact stays_of_owned hr hf (by simp [Frame.owned])
    | done g =>
      obtain rfl : p = g.ptr := hm
      exact stays_of_held hr hf (List.mem_singleton.2 rfl)
    | _ => exact hm.elim
  | intoInner src g pc =>
    obtain rfl : p = g.ptr := hm
    cases pc with
    | start => exact stays_of_held hr hf (List.mem_singleton.2 rfl)
    | _ => exact stays_of_owned hr hf (by simp [Frame.owned])
  | payAll ptr S pc =>
    cases pc with
    | help n todo h =>
      cases h with
      | theirSpace | mySpace | write | exchange =>
        cases hm
        exact stays_of_owned hr hf (by simp [Frame.owned])
      | _ => exact hm.elim
    | _ => exact hm.elim
  | _ => exact hm.elim

/-- The replacement given to a reader was in the storage of the reader since its load began. -/
theorem Genuine.replacement {since : Stamp} (hr : (machine cfg).Reach ok σ) (hG : Genuine σ)
    (hs : threadStep cfg t σ.mem σ.free (σ.stack t) act = some (m', st')) (hne : n ≠ t)
    (ho : Open σ.mem n S g) (hat : since.version ≤ (σ.mem.publishedAt n).version)
    (hctl : σ.mem.control n % 4 = 2) (hp : m'.offered n = some p) :
    Concurrent.HeldSince (m'.log S) since.version (m'.objAt p) := by
  have hP := Protocol.reach hr
  obtain ⟨S', hopen⟩ := (hP.node n).watched.opened hctl
  rcases threadStep_offered (hP.node t) hs hne with hsame |
    ⟨ptr, S₁, todo, v, asked, r, their, mine, rest, hst, hv, hr'⟩
  · rw [hsame] at hp
    rcases hopen.2.2.2.1 with ⟨_, h⟩ | ⟨h, _⟩
    · rw [h] at hp
      cases hp
    · omega
  · obtain rfl : r = p := Option.some.inj (hr'.symm.trans hp)
    have hmem : Frame.payAll ptr S₁ (.help n todo (.exchange v asked r their mine)) ∈ σ.stack t := by
      simp [hst]
    obtain ⟨⟨_, hhelp, _⟩, _⟩ :=
      show HelpPc.Inv σ.mem n S₁ (.exchange v asked r their mine) from hP.help t _ hmem
    obtain ⟨ha, _, hver⟩ := hhelp hv
    obtain rfl : S₁ = S := Option.some.inj (ha.symm.trans ho.1)
    have hheld := (hG.frame t _ hmem).may S₁ asked rfl r rfl
    rw [Shared.objAt, threadStep_epoch hs (stays_of_may hr hmem rfl)]
    exact threadStep_held hs (hheld.mono (Nat.le_trans hat hver))

theorem Genuine.other (hr : (machine cfg).Reach ok σ) (hG : Genuine σ)
    (hs : threadStep cfg t σ.mem σ.free (σ.stack t) act = some (m', st')) (hne : n ≠ t)
    (hf : f ∈ σ.stack n) : f.Genuine m' n := by
  have hP := Protocol.reach hr
  have hu := (threadStep_ok hP (Stacked.reach hr t) hs).others n hne
  have hg := hG.frame n f hf
  have keep : ∀ {p}, f.May σ.mem n p → f.May σ.mem n p ∧ m'.epoch p = σ.mem.epoch p :=
    fun hp => ⟨hp, threadStep_epoch hs (stays_of_may hr hf hp)⟩
  refine hg.advance (threadStep_log_append hs) ?_ (.inr hu.publishedAt)
  intro S since hsrc p hp
  by_cases hpk : f.Parked
  · exact .inl (keep (hpk.may hp))
  rcases hu.control with ⟨hctl, ho⟩ | ⟨hctl, hctl', _⟩
  · exact .inl (keep ((Frame.may_congr hctl ho).1 hp))
  · obtain ⟨rest, hst⟩ := (hP.node n).head hf hpk
    have htop := (hP.node n).top
    rw [hst] at htop
    have hpast := hg.past
    cases f with
    | load S₁ since₁ full pc =>
      cases hsrc
      cases pc with
      | reserve | cooldown | release | candidate =>
        exact .inr (hG.replacement hr hs hne htop.1 hpast hctl hp)
      | setSlot | setIdle =>
        rcases hp with ⟨hc, _⟩ | hp
        · have h2 := htop.1.2.2.1
          rw [← hc] at h2
          omega
        · exact .inr (hG.replacement hr hs hne htop.1 hpast hctl hp)
      | _ => exact .inl (keep hp)
    | payAll ptr S₁ pc =>
      cases pc with
      | help => exact .inl (keep hp)
      | _ => exact hp.elim
    | _ => exact .inl (keep hp)

theorem Genuine.parked (hr : (machine cfg).Reach ok σ) (hG : Genuine σ)
    (hs : threadStep cfg t σ.mem σ.free (σ.stack t) act = some (m', st'))
    (hf : f ∈ σ.stack t) (hp : f.Parked) : f.Genuine m' t := by
  refine (hG.frame t f hf).advance (threadStep_log_append hs) ?_ (.inl hp)
  intro S since _ p hm
  have hm' : f.May σ.mem t p := hp.may hm
  exact .inl ⟨hm', threadStep_epoch hs (stays_of_may hr hf hm')⟩

theorem Genuine.own (hr : (machine cfg).Reach ok σ) (hG : Genuine σ)
    (hfirst : FirstReadStays (t, act) σ)
    (hs : threadStep cfg t σ.mem σ.free (σ.stack t) act = some (m', st')) :
    ∀ f ∈ st', f.Genuine m' t := by
  have hn := (Protocol.reach hr).node t
  have hst := Stacked.reach hr t
  have hpark : ∀ f ∈ (σ.stack t).tail, f.Genuine m' t := fun f hf =>
    hG.parked hr hs (List.mem_of_mem_tail hf) (hn.parked f hf)
  rcases threadStep_cases hs with ⟨sp, f, rest, pre, _, he, hf, rfl⟩ | ⟨_, h⟩ | ⟨_, h, rfl⟩ | ⟨hu, h⟩
  · have hw := (Envelopes.reach hr).writing t
    rw [he] at hw hn hpark
    have hgf := hG.frame t f (by simp [he])
    have hpre := Frame.step_genuine cfg hgf hn.top hw ?_ ?_ hf
    · intro g hg
      rcases List.mem_append.1 hg with hg | hg
      · exact hpre g hg
      · exact hpark g hg
    · rintro S since full pc rfl p hp
      have hc := log_chained hr S
      rw [hp] at hc
      exact hc.held (hgf.begun S since rfl)
    · rintro S since full p e d rfl hd
      exact hfirst S since full p e d rest he hd
  · obtain ⟨f, v, rest, he, hv, ⟨_, rfl, _⟩ | ⟨g, g', rest', rfl, hg, hm, rfl⟩⟩ := retStep_cases h
    · rw [he] at hpark
      exact hpark
    · rw [he] at hpark hst
      refine List.forall_mem_cons.2 ⟨?_, fun f hf => hpark f (List.mem_cons_of_mem _ hf)⟩
      have hgf := hG.frame t f (by simp [he])
      refine (List.isChain_cons_cons.1 hst.called).1.genuine hv hg hgf ?_ ?_
      · rw [hm, Shared.recordFor_eq]
      · rw [hm, Shared.recordFor_eq]
  · rw [claimStep] at h
    split at h <;> cases h
    intro f hf
    exact (hG.frame t f hf).advance (fun S => ⟨[], rfl⟩)
      (fun S since _ p hp => .inl ⟨(Frame.may_congr rfl rfl).1 hp, rfl⟩) (.inr rfl)
  · have hp := (hn.calm_of_user hu).2
    have hall : ∀ f ∈ σ.stack t, f.Genuine m' t := fun f hf => hG.parked hr hs hf (hp f hf)
    have hlog := threadStep_log_append hs
    have hm := (userStep_cases h).2
    generalize σ.stack t = st at hm hall
    cases hm with
    | stay => exact hall
    | enter hf => exact List.forall_mem_cons.2 ⟨hf.genuine hlog, hall⟩
    | call hf hg =>
      exact List.forall_mem_cons.2 ⟨hf.genuine hlog, List.forall_mem_cons.2 ⟨hg.genuine, hall⟩⟩
    | closure =>
      exact List.forall_mem_cons.2 ⟨.of_source rfl, List.forall_mem_cons.2 ⟨.of_source rfl,
        fun f hf => hall f (List.mem_cons_of_mem _ hf)⟩⟩
    | ret => exact fun f hf => hall f (List.mem_cons_of_mem _ hf)

theorem Genuine.step (hr : (machine cfg).Reach ok σ) (hG : Genuine σ) (hfirst : FirstReadStays l σ)
    (hs : State.step cfg l σ = some σ') : Genuine σ' := by
  obtain ⟨m', st', ht, rfl⟩ := State.step_cases hs
  refine ⟨?_, ?_⟩
  · intro n f hf
    by_cases hn : n = l.1
    · subst hn
      simp only [Function.update_self] at hf
      exact hG.own hr hfirst ht f hf
    · simp only [Function.update_of_ne hn] at hf
      exact hG.other hr ht hn hf
  · intro S since till o hc
    obtain ⟨newer, he⟩ := threadStep_log_append ht S
    show Concurrent.HeldDuring (m'.log S) since.version till.version o
    rw [he]
    refine Concurrent.HeldDuring.append ?_ newer
    rcases threadStep_calls ht _ hc with hc | ⟨_, f, hf, hfc⟩
    · exact hG.calls S since till o hc
    · exact (hG.frame l.1 f (List.mem_of_mem_head? hf)).call hfc

theorem Genuine.reach (hr : (machine cfg).Reach FirstReadStays σ) : Genuine σ :=
  hr.invariant_of (fun _ hr => hr) (fun _ hi => hi ▸ .initial cfg)
    (fun _ _ _ hr hG ha hs => hG.step hr ha hs)

end ArcSwap
