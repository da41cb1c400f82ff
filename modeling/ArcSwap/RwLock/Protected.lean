import ArcSwap.RwLock.History
import ArcSwap.RwLock.Locks

namespace ArcSwap.RwLock
set_option autoImplicit true

variable {Thr Sto : Type}

/-- The object at `p` is in the storage, or a thread that took it out has yet to pass the lock. -/
def State.Pinned (σ : State Thr Sto) (S : Sto) (p : Nat) : Prop :=
  σ.mem.storage S = some p ∨ ∃ t keep, .wait S p keep .lock ∈ σ.stack t

/-- What an activation knows about the pointer it has read: which object it is, that the storage has
held it during the call, and, until it has a reference of its own, that it is pinned. -/
def Frame.Protected (m : Shared Sto) (pinned : Sto → Nat → Prop) : Frame Sto → Prop
  | .load S since pc =>
    since ≤ (m.log S).length ∧
    match pc with
    | .lock | .read => True
    | .inc p e => m.epoch p = e ∧ Concurrent.HeldSince (m.log S) since (p, e) ∧ pinned S p
    | .unlock p e | .done p e => m.epoch p = e ∧ Concurrent.HeldSince (m.log S) since (p, e)
  | .cas _ S _ _ (.inc p e) => m.epoch p = e ∧ pinned S p
  | _ => True

variable {σ σ' : State Thr Sto} {S : Sto} {f g : Frame Sto} {l : Thr × Action Sto}

theorem release_protected {m : Shared Sto} (hs : release m a f = (m', pre))
    (hf : f.Protected m' pinned) (hg : g ∈ pre) : g.Protected m' pinned := by
  obtain ⟨rfl, rfl⟩ := Prod.mk.inj hs
  split at hg
  · rcases List.mem_cons.1 hg with rfl | hg
    · trivial
    · rw [List.mem_singleton.1 hg]
      exact hf
  · rw [List.mem_singleton.1 hg]
    exact hf

theorem Starts.isProtected {m m' : Shared Sto} (h : Starts m f) (hl : m'.log = m.log) :
    f.Protected m' pinned := by
  cases h with
  | load => exact ⟨by rw [hl], trivial⟩
  | _ => trivial

theorem inc_strong {m : Shared Sto} (h : m.strong a < (m.inc p).strong a) : p = a ∧ a ≠ 0 := by
  rw [Shared.inc] at h
  split at h
  · exact (Nat.lt_irrefl _ h).elim
  · rename_i hp
    by_cases hpa : p = a
    · subst hpa
      exact ⟨rfl, hp⟩
    · simp [Function.update_of_ne (Ne.symm hpa)] at h

theorem dec_strong (m : Shared Sto) (p a : Nat) : (m.dec p).strong a ≤ m.strong a := by
  rw [Shared.dec]
  split
  · exact Nat.le_refl _
  · by_cases hp : a = p
    · subst hp
      simp
    · simp [Function.update_of_ne hp]

variable [DecidableEq Sto]

theorem Frame.step_protected {m : Shared Sto} (hs : f.step m = some (m', pre))
    (h : f.Protected m pinned)
    (hchain : ∀ S, Concurrent.Chained (m.log S) ((m.storage S).map m.objAt))
    (hpin : ∀ S p, m'.storage S = some p → pinned' S p) (hg : g ∈ pre) :
    g.Protected m' pinned' := by
  cases f with
  | user => cases hs
  | load S since pc =>
    obtain ⟨hk, hpc⟩ := h
    cases pc with
    | lock =>
      simp only [Frame.step, loadStep, Option.map_eq_some_iff] at hs
      obtain ⟨_, _, he⟩ := hs
      cases he
      rw [List.mem_singleton.1 hg]
      exact ⟨hk, trivial⟩
    | read =>
      simp only [Frame.step, loadStep, Option.map_eq_some_iff] at hs
      obtain ⟨p, hS, he⟩ := hs
      cases he
      rw [List.mem_singleton.1 hg]
      have hc := hchain S
      rw [hS] at hc
      exact ⟨hk, rfl, hc.held hk, hpin S p hS⟩
    | inc p e =>
      cases hs
      rw [List.mem_singleton.1 hg]
      obtain ⟨_, hl, he, _⟩ := inc_same m p
      refine ⟨by rw [hl]; exact hk, by rw [he]; exact hpc.1, ?_⟩
      rw [hl]
      exact hpc.2.1
    | unlock p e =>
      cases hs
      rw [List.mem_singleton.1 hg]
      exact ⟨hk, hpc⟩
    | done => cases hs
  | swap op S new keep =>
    simp only [Frame.step, Option.map_eq_some_iff] at hs
    obtain ⟨old, _, he⟩ := hs
    cases he
    rw [List.mem_singleton.1 hg]
    trivial
  | wait S ptr keep pc =>
    cases pc with
    | lock =>
      simp only [Frame.step, waitStep, Option.map_eq_some_iff] at hs
      obtain ⟨_, _, he⟩ := hs
      cases he
      rw [List.mem_singleton.1 hg]
      trivial
    | unlock =>
      cases hs
      rw [List.mem_singleton.1 hg]
      cases keep <;> trivial
    | done => cases hs
  | cas op S current new pc =>
    cases pc with
    | lock =>
      simp only [Frame.step, casStep, Option.map_eq_some_iff] at hs
      obtain ⟨_, _, he⟩ := hs
      cases he
      rw [List.mem_singleton.1 hg]
      trivial
    | exchange =>
      simp only [Frame.step, casStep, Option.map_eq_some_iff] at hs
      obtain ⟨old, hS, he⟩ := hs
      split at he <;> cases he <;> rw [List.mem_singleton.1 hg]
      · trivial
      · exact ⟨rfl, hpin S old hS⟩
    | inc old e =>
      cases hs
      rw [List.mem_singleton.1 hg]
      trivial
    | dropNew old =>
      apply release_protected (f := .cas op S current new (.unlock old)) (Option.some.inj hs) ?_ hg
      trivial
    | unlock old =>
      cases hs
      rw [List.mem_singleton.1 hg]
      trivial
    | done => cases hs
  | discard ptr =>
    cases ptr with
    | none => cases hs
    | some a =>
      apply release_protected (f := .discard none) (Option.some.inj hs) ?_ hg
      trivial

def Frame.increments : Frame Sto → Option Obj
  | .load _ _ (.inc p e) | .cas _ _ _ _ (.inc p e) => some (p, e)
  | _ => none

theorem Frame.step_strong {m : Shared Sto} (hs : f.step m = some (m', pre))
    (h : m.strong a < m'.strong a) : a ≠ 0 ∧ ∃ e, f.increments = some (a, e) := by
  cases f with
  | user => cases hs
  | load S since pc =>
    cases pc with
    | lock | read =>
      simp only [Frame.step, loadStep, Option.map_eq_some_iff] at hs
      obtain ⟨_, _, he⟩ := hs
      cases he
      exact (Nat.lt_irrefl _ h).elim
    | inc p e =>
      cases hs
      obtain ⟨rfl, ha⟩ := inc_strong h
      exact ⟨ha, e, rfl⟩
    | unlock p e =>
      cases hs
      exact (Nat.lt_irrefl _ h).elim
    | done => cases hs
  | swap op S new keep =>
    simp only [Frame.step, Option.map_eq_some_iff] at hs
    obtain ⟨old, _, he⟩ := hs
    cases he
    exact (Nat.lt_irrefl _ h).elim
  | wait S ptr keep pc =>
    cases pc with
    | lock =>
      simp only [Frame.step, waitStep, Option.map_eq_some_iff] at hs
      obtain ⟨_, _, he⟩ := hs
      cases he
      exact (Nat.lt_irrefl _ h).elim
    | unlock =>
      cases hs
      exact (Nat.lt_irrefl _ h).elim
    | done => cases hs
  | cas op S current new pc =>
    cases pc with
    | lock =>
      simp only [Frame.step, casStep, Option.map_eq_some_iff] at hs
      obtain ⟨_, _, he⟩ := hs
      cases he
      exact (Nat.lt_irrefl _ h).elim
    | exchange =>
      simp only [Frame.step, casStep, Option.map_eq_some_iff] at hs
      obtain ⟨old, hS, he⟩ := hs
      split at he <;> cases he <;> exact (Nat.lt_irrefl _ h).elim
    | inc old e =>
      cases hs
      obtain ⟨rfl, ha⟩ := inc_strong h
      exact ⟨ha, e, rfl⟩
    | dropNew old =>
      cases hs
      exact (Nat.not_lt_of_le (dec_strong m new a) h).elim
    | unlock old =>
      cases hs
      exact (Nat.lt_irrefl _ h).elim
    | done => cases hs
  | discard ptr =>
    cases ptr with
    | none => cases hs
    | some b =>
      cases hs
      exact (Nat.not_lt_of_le (dec_strong m b a) h).elim

variable [DecidableEq Thr] [Fintype Thr]

theorem held_alone (hr : (machine Thr Sto).Reach ok σ) (hst : σ.stack t = f :: rest)
    (hf : f.writes S = 1) (hg : g ∈ σ.stack x) (hx : x = t → g ∈ rest) :
    g.reads S + g.writes S = 0 := by
  have hl := locks_held hr S
  have hw := Concurrent.add_le_total (w := Frame.writes S) hst hg hx
  have hreads := Concurrent.le_total (w := Frame.reads S) hg
  cases hlock : σ.mem.lock S with
  | shared n =>
    rw [hlock] at hl
    have := hl.2
    omega
  | exclusive =>
    rw [hlock] at hl
    have := hl.1
    have := hl.2
    omega

theorem write_none (hr : (machine Thr Sto).Reach ok σ) (hg : g ∈ σ.stack x)
    (hp : 0 < g.reads S + g.writes S) : (σ.mem.lock S).write = none := by
  have hreads := Concurrent.le_total (w := Frame.reads S) hg
  have hw := Concurrent.le_total (w := Frame.writes S) hg
  exact (locks_held hr S).write_none (by omega)

/-- What is pinned stays pinned as long as somebody else is inside the lock. -/
theorem State.Pinned.step (hr : (machine Thr Sto).Reach ok σ) (hs : State.step l σ = some σ')
    (h : σ.Pinned S p) (hg : g ∈ σ.stack x) (hp : 0 < g.reads S + g.writes S)
    (hx : x = l.1 → l.2 = .run → g ∈ (σ.stack x).tail) : σ'.Pinned S p := by
  obtain ⟨m', st', ht, rfl⟩ := State.step_cases hs
  -- A waiting activation stays unless it is the one that steps, and then it finds the lock taken.
  have wait : ∀ {t keep}, .wait S p keep .lock ∈ σ.stack t →
      (t = l.1 → .wait S p keep .lock ∈ st') →
      State.Pinned ⟨m', Function.update σ.stack l.1 st'⟩ S p := by
    intro t keep hw hst
    refine .inr ⟨t, keep, ?_⟩
    by_cases he : t = l.1
    · subst he
      simpa using hst rfl
    · simpa [Function.update_of_ne he] using hw
  have stored : m'.storage S = σ.mem.storage S → σ.mem.storage S = some p →
      State.Pinned ⟨m', Function.update σ.stack l.1 st'⟩ S p :=
    fun he hS => .inl (he.trans hS)
  have pushed : ∀ {keep}, .wait S p keep .lock ∈ st' →
      State.Pinned ⟨m', Function.update σ.stack l.1 st'⟩ S p :=
    fun hw => .inr ⟨l.1, _, by simpa using hw⟩
  rcases threadStep_cases ht with ⟨f, rest, pre, hact, hst, hf, rfl⟩ | ⟨_, hs⟩ | ⟨_, hs⟩
  · have hgx : x = l.1 → g ∈ rest := by
      rintro rfl
      have h := hx rfl hact
      rwa [hst] at h
    rcases h with hS | ⟨t, keep, hw⟩
    · rcases Frame.step_content hf with hm | ⟨op, S', old, new, hS', rfl, hex⟩
      · exact stored (by rw [hm.storage]) hS
      by_cases hSS : S = S'
      · subst hSS
        cases hS.symm.trans hS'
        cases hex with
        | swap => exact pushed (List.mem_append_left _ (List.mem_singleton.2 rfl))
        | cas =>
          have h0 := held_alone (S := S) hr hst (by simp [Frame.writes]) hg hgx
          omega
      · exact stored (Function.update_of_ne hSS ..) hS
    · refine wait hw fun he => ?_
      subst he
      rw [hst] at hw
      rcases List.mem_cons.1 hw with rfl | hw
      · have hn := write_none hr hg hp
        simp [Frame.step, waitStep, hn] at hf
      · exact List.mem_append_right _ hw
  · obtain ⟨f, hst, hres, hm, _⟩ := retStep_content hs
    rcases h with hS | ⟨t, keep, hw⟩
    · exact stored (by rw [hm]) hS
    · refine wait hw fun he => ?_
      subst he
      rw [hst] at hw
      rcases List.mem_cons.1 hw with rfl | hw
      · cases hres
      · exact hw
  · have hu := userStep_write hs
    rcases h with hS | ⟨t, keep, hw⟩
    · cases hu with
      | same hm => exact stored (by rw [hm.storage]) hS
      | start hm => exact stored (by rw [hm.storage]) hS
      | alloc hb =>
        rw [Shared.allocate] at hb
        split at hb <;> cases hb
        exact stored rfl hS
      | @create S' op new _ hnone hm =>
        refine stored ?_ hS
        rw [hm.storage]
        apply Function.update_of_ne
        rintro rfl
        cases hS.symm.trans hnone
      | @remove S' old hS' keep =>
        by_cases hSS : S = S'
        · subst hSS
          cases hS.symm.trans hS'
          exact pushed (List.mem_cons_self ..)
        · exact stored (Function.update_of_ne hSS ..) hS
      | leave => exact stored rfl hS
    · refine wait hw fun he => ?_
      subst he
      cases hu with
      | same | alloc | create => exact hw
      | start | remove => exact List.mem_cons_of_mem _ hw
      | leave hst =>
        rw [hst] at hw
        rcases List.mem_cons.1 hw with h | hw
        · cases h
        · exact hw

variable [Fintype Sto]

theorem State.Pinned.strong_pos (h : σ.Pinned S p) (hr : (machine Thr Sto).Reach ok σ) :
    p = 0 ∨ 0 < σ.mem.strong p := by
  rcases h with h | ⟨t, keep, h⟩
  · exact strong_pos_stored hr h
  · exact strong_pos_owned hr h (List.mem_singleton.2 rfl)

theorem Frame.Protected.step (hr : (machine Thr Sto).Reach ok σ) (hs : State.step l σ = some σ')
    (h : g.Protected σ.mem σ.Pinned) (hg : g ∈ σ.stack x)
    (hx : x = l.1 → l.2 = .run → g ∈ (σ.stack x).tail) : g.Protected σ'.mem σ'.Pinned := by
  have hs' := hs
  obtain ⟨m', st', ht, he⟩ := State.step_cases hs'
  have hm : σ'.mem = m' := by rw [he]
  have epoch : ∀ {p e}, σ.mem.epoch p = e → p = 0 ∨ 0 < σ.mem.strong p → σ'.mem.epoch p = e := by
    intro p e hp hpos
    rw [hm, threadStep_epoch ht hpos, hp]
  have since : ∀ {S k}, k ≤ (σ.mem.log S).length → k ≤ (σ'.mem.log S).length := by
    intro S k hk
    rw [hm]
    exact Nat.le_trans hk (threadStep_log_length ht S)
  have held : ∀ {S k o}, Concurrent.HeldSince (σ.mem.log S) k o →
      Concurrent.HeldSince (σ'.mem.log S) k o := by
    intro S k o ho
    rw [hm]
    exact threadStep_held ht ho
  cases g with
  | load S k pc =>
    obtain ⟨hk, hpc⟩ := h
    refine ⟨since hk, ?_⟩
    cases pc with
    | lock | read => trivial
    | inc p e =>
      obtain ⟨hp, hheld, hpin⟩ := hpc
      refine ⟨epoch hp (hpin.strong_pos hr), held hheld, hpin.step hr hs hg ?_ hx⟩
      simp [Frame.reads]
    | unlock p e | done p e =>
      exact ⟨epoch hpc.1 (strong_pos_owned hr hg (List.mem_singleton.2 rfl)), held hpc.2⟩
  | cas op S current new pc =>
    cases pc with
    | inc p e =>
      refine ⟨epoch h.1 (h.2.strong_pos hr), h.2.step hr hs hg ?_ hx⟩
      simp [Frame.writes]
    | _ => trivial
  | _ => trivial

theorem protected_reach (hr : (machine Thr Sto).Reach ok σ) (hg : g ∈ σ.stack t) :
    g.Protected σ.mem σ.Pinned := by
  refine hr.invariant_of (Q := (machine Thr Sto).Reach ok)
    (P := fun σ => ∀ t, ∀ g ∈ σ.stack t, g.Protected σ.mem σ.Pinned) (fun _ h => h) ?_ ?_ t g hg
  · rintro _ rfl t g hg
    cases hg
  · intro l σ σ' hr h _ hs t g hg
    have hs' := hs
    obtain ⟨m', st', ht, rfl⟩ := State.step_cases hs'
    by_cases htl : t = l.1
    · subst htl
      change g ∈ Function.update σ.stack l.1 st' l.1 at hg
      rw [Function.update_self] at hg
      rcases threadStep_cases ht with ⟨f, rest, pre, hact, hst, hf, rfl⟩ | ⟨hact, hs₁⟩ | ⟨hu, hs₁⟩
      · rcases List.mem_append.1 hg with hg | hg
        · refine Frame.step_protected hf (h l.1 f ?_) (log_chained hr) (fun _ _ => .inl) hg
          rw [hst]
          exact List.mem_cons_self ..
        · have hg' : g ∈ σ.stack l.1 := by
            rw [hst]
            exact List.mem_cons_of_mem f hg
          refine (h l.1 g hg').step hr hs hg' fun _ _ => ?_
          rwa [hst]
      · obtain ⟨f, hst, _⟩ := retStep_content hs₁
        have hg' : g ∈ σ.stack l.1 := by
          rw [hst]
          exact List.mem_cons_of_mem f hg
        refine (h l.1 g hg').step hr hs hg' fun _ hrun => ?_
        rw [hact] at hrun
        cases hrun
      · have hnot : l.2 ≠ .run := by
          intro he
          rw [he] at hs₁
          cases hs₁
        have old : g ∈ σ.stack l.1 → g.Protected m' _ :=
          fun hg' => (h l.1 g hg').step hr hs hg' fun _ hrun => (hnot hrun).elim
        cases userStep_write hs₁ with
        | same | alloc | create => exact old hg
        | start hm hf =>
          rcases List.mem_cons.1 hg with rfl | hg
          · exact hf.isProtected hm.log
          · exact old hg
        | remove =>
          rcases List.mem_cons.1 hg with rfl | hg
          · trivial
          · exact old hg
        | leave hst =>
          refine old ?_
          rw [hst]
          exact List.mem_cons_of_mem _ hg
    · change g ∈ Function.update σ.stack l.1 st' t at hg
      rw [Function.update_of_ne htl] at hg
      exact (h t g hg).step hr hs hg fun he => (htl he).elim

section
omit [DecidableEq Sto] [DecidableEq Thr] [Fintype Thr]

theorem takeHandle_strong {m : Shared Sto} (h : m.takeHandle p = some m') :
    m'.strong = m.strong := (takeHandle_refs h).1

end

/-- The only counts that user code raises are those of a new object and of one it has a handle to. -/
theorem userStep_strong {m : Shared Sto} (hs : userStep m free st act = some (m', st'))
    (h : m.strong a < m'.strong a) : act = .alloc a ∨ a ≠ 0 ∧ 0 < m.handles a := by
  have same : m'.strong a = m.strong a → act = .alloc a ∨ a ≠ 0 ∧ 0 < m.handles a :=
    fun he => (Nat.ne_of_gt h he).elim
  cases act with
  | alloc b =>
    simp only [userStep, Option.map_eq_some_iff] at hs
    obtain ⟨m₁, h₁, he⟩ := hs
    cases he
    rw [Shared.allocate] at h₁
    split at h₁ <;> cases h₁
    by_cases hb : a = b
    · exact .inl (congrArg _ hb.symm)
    · exact same (Function.update_of_ne hb ..)
  | clone b =>
    simp only [userStep] at hs
    split at hs <;> cases hs
    rename_i hb
    obtain ⟨rfl, ha⟩ := inc_strong (m := m) (p := b) h
    exact .inr ⟨ha, Nat.pos_of_ne_zero hb⟩
  | dropHandle b =>
    simp only [userStep, Option.map_eq_some_iff] at hs
    obtain ⟨m₁, h₁, he⟩ := hs
    cases he
    have he := takeHandle_strong h₁
    exact same (congrFun he a)
  | create S b =>
    simp only [userStep] at hs
    split at hs
    · simp only [Option.map_eq_some_iff] at hs
      obtain ⟨m₁, h₁, he⟩ := hs
      cases he
      have he := takeHandle_strong h₁
      exact same (congrFun he a)
    · cases hs
  | load S =>
    simp only [userStep, Option.map_eq_some_iff] at hs
    obtain ⟨_, _, he⟩ := hs
    cases he
    exact same rfl
  | swap | store | cas =>
    simp only [userStep, Option.bind_eq_some_iff, Option.map_eq_some_iff] at hs
    obtain ⟨_, _, m₁, h₁, he⟩ := hs
    cases he
    have he := takeHandle_strong h₁
    exact same (congrFun he a)
  | intoInner S | dropStorage S =>
    simp only [userStep] at hs
    split at hs
    · simp only [Option.map_eq_some_iff] at hs
      obtain ⟨p, hS, he⟩ := hs
      cases he
      exact same rfl
    · cases hs
  | userRet =>
    simp only [userStep] at hs
    split at hs <;> cases hs
    exact same rfl
  | run => cases hs
  | ret => cases hs

theorem increments_there (hr : (machine Thr Sto).Reach ok σ) (hf : f ∈ σ.stack t)
    (hi : f.increments = some (p, e)) : σ.mem.epoch p = e ∧ (p = 0 ∨ 0 < σ.mem.strong p) := by
  have hP := protected_reach hr hf
  unfold Frame.increments at hi
  split at hi <;> cases hi
  · exact ⟨hP.2.1, hP.2.2.2.strong_pos hr⟩
  · exact ⟨hP.1, hP.2.strong_pos hr⟩

theorem step_strong (hr : (machine Thr Sto).Reach ok σ) (hs : State.step l σ = some σ')
    (h : σ.mem.strong a < σ'.mem.strong a) :
    l.2 = .alloc a ∨ 0 < σ.mem.strong a ∧ σ'.mem.epoch a = σ.mem.epoch a := by
  obtain ⟨m', st', ht, rfl⟩ := State.step_cases hs
  have there : 0 < σ.mem.strong a → 0 < σ.mem.strong a ∧ m'.epoch a = σ.mem.epoch a :=
    fun hpos => ⟨hpos, threadStep_epoch ht (.inr hpos)⟩
  rcases threadStep_cases ht with ⟨f, rest, pre, _, hst, hf, _⟩ | ⟨_, hs₁⟩ | ⟨_, hs₁⟩
  · obtain ⟨ha, e, hi⟩ := Frame.step_strong hf h
    have hf' : f ∈ σ.stack l.1 := by
      rw [hst]
      exact List.mem_cons_self ..
    exact .inr (there ((increments_there hr hf' hi).2.resolve_left ha))
  · obtain ⟨_, _, _, _, _, _, he, _⟩ := retStep_content hs₁
    change σ.mem.strong a < m'.strong a at h
    rw [he] at h
    exact (Nat.lt_irrefl _ h).elim
  · refine (userStep_strong hs₁ h).imp id fun hpos => there ?_
    rw [strong_eq hr hpos.1]
    omega

theorem loads_held (hr : (machine Thr Sto).Reach ok σ) (hρ : ρ ∈ σ.mem.loads) :
    Concurrent.HeldDuring (σ.mem.log ρ.storage) ρ.since ρ.till ρ.ret := by
  refine hr.invariant_of (Q := (machine Thr Sto).Reach ok) (P := fun σ => ∀ ρ ∈ σ.mem.loads,
    Concurrent.HeldDuring (σ.mem.log ρ.storage) ρ.since ρ.till ρ.ret) (fun _ h => h) ?_ ?_ ρ hρ
  · rintro _ rfl ρ hρ
    cases hρ
  · intro l σ σ' hr h _ hs ρ hρ
    obtain ⟨m', st', ht, rfl⟩ := State.step_cases hs
    rcases threadStep_loads ht hρ with hρ | ⟨f, hst, hf, hl⟩
    · rcases threadStep_log ht ρ.storage with ⟨_, he⟩ | ⟨_, op, he⟩
      · change Concurrent.HeldDuring (m'.log ρ.storage) _ _ _
        rw [he]
        exact h ρ hρ
      · change Concurrent.HeldDuring (m'.log ρ.storage) _ _ _
        rw [he]
        exact (h ρ hρ).append [_]
    · have hP := protected_reach hr (t := l.1) (g := f) (by rw [hst]; exact List.mem_cons_self ..)
      unfold Frame.loaded at hf
      split at hf <;> cases hf
      change Concurrent.HeldDuring (m'.log _) _ _ _
      rw [hl, Shared.objAt, hP.2.1]
      exact hP.2.2

/-- Storages under a reader-writer lock: a count is raised only on an object that is there, although
`swap` exchanges the pointer without the lock; every load returns what its storage held during the
call; and the count of every object is the number of the references to it. -/
theorem lock_protects (hr : (machine Thr Sto).Reach ok σ) :
    (∀ l σ' a, State.step l σ = some σ' → σ.mem.strong a < σ'.mem.strong a →
      l.2 = .alloc a ∨ 0 < σ.mem.strong a ∧ σ'.mem.epoch a = σ.mem.epoch a) ∧
    (∀ t, ∀ f ∈ σ.stack t, ∀ p e, f.increments = some (p, e) →
      σ.mem.epoch p = e ∧ (p = 0 ∨ 0 < σ.mem.strong p)) ∧
    (∀ ρ ∈ σ.mem.loads,
      Concurrent.HeldDuring (σ.mem.log ρ.storage) ρ.since ρ.till ρ.ret) ∧
    ∀ a, a ≠ 0 → σ.mem.strong a = σ.mem.handles a + σ.mem.stored a +
      ∑ t, ((σ.stack t).flatMap Frame.owned).count a :=
  ⟨fun _ _ _ hs h => step_strong hr hs h, fun _ _ hf _ _ hi => increments_there hr hf hi,
    fun _ hρ => loads_held hr hρ, fun _ ha => strong_eq hr ha⟩

def overtaken (σ : State (Fin 2) (Fin 1)) : Bool :=
  match σ.stack 0 with
  | [.load 0 _ (.inc 8 1)] => σ.mem.storage 0 = some 16
  | _ => false

/-- A swap exchanges the pointer between the read and the increment of a load. -/
theorem lock_protects_overtaken :
    ∃ σ, (machine (Fin 2) (Fin 1)).Reach (fun _ _ => True) σ ∧ overtaken σ = true ∧
      σ.mem.epoch 8 = 1 ∧ (8 = 0 ∨ 0 < σ.mem.strong 8) := by
  have h : ((machine (Fin 2) (Fin 1)).exec (fun _ _ => True)
      ([(0, .alloc 8), (0, .create 0 8), (1, .alloc 16), (0, .load 0), (0, .run), (0, .run),
        (1, .swap 0 16), (1, .run)].map fun l _ => some l) State.initial).any overtaken = true := by
    decide +kernel
  rw [Option.any_eq_true] at h
  obtain ⟨σ, hσ, hp⟩ := h
  have hr := Concurrent.Machine.Reach.exec (.init rfl) hσ
  refine ⟨σ, hr, hp, ?_⟩
  obtain ⟨_, hinc, _⟩ := lock_protects hr
  rw [overtaken] at hp
  split at hp
  · rename_i hst
    exact hinc 0 _ (by rw [hst]; exact List.mem_singleton.2 rfl) 8 1 rfl
  · cases hp

end ArcSwap.RwLock
