import ArcSwap.RwLock.Ledger

namespace ArcSwap.RwLock
set_option autoImplicit true

variable {Thr Sto : Type}

/-- The storages and the history are the same, and no object has been allocated. -/
structure Shared.Same (m m' : Shared Sto) : Prop where
  storage : m'.storage = m.storage
  log : m'.log = m.log
  epoch : m'.epoch = m.epoch
  loads : m'.loads = m.loads

/-- The activations that exchange the content of a storage, and what they go on with: a swap waits
for the readers, a `compare_and_swap` has the lock. -/
inductive Exchanges (S : Sto) (old : Nat) : Frame Sto → List (Frame Sto) → Prop
  | swap : Exchanges S old (.swap op S new keep) [.wait S old keep .lock]
  | cas : Exchanges S old (.cas op S old new .exchange) [.cas op S old new (.unlock old)]

/-- The activations user code starts. -/
inductive Starts (m : Shared Sto) : Frame Sto → Prop
  | load : Starts m (.load S (m.log S).length .lock)
  | swap : Starts m (.swap op S new keep)
  | cas : Starts m (.cas op S current new .lock)
  | discard : Starts m (.discard ptr)

variable [DecidableEq Sto]

/-- User code may end, start an operation, and put an object into a storage that has none; it takes
a pointer out of a storage only to wait for the readers. -/
inductive UserWrite (m : Shared Sto) (st : List (Frame Sto)) : Shared Sto → List (Frame Sto) → Prop
  | same (h : m.Same k) : UserWrite m st k st
  | start (h : m.Same k) (hf : Starts m f) : UserWrite m st k (f :: st)
  | alloc (ha : m.allocate a = some k) : UserWrite m st (k.addHandle a) st
  | create (hnone : m.storage S = none) (h : (m.setStorage op S new).Same k) : UserWrite m st k st
  | remove (hS : m.storage S = some old) (keep : Bool) :
      UserWrite m st (m.setStorage m.nextOp S none).newOp (.wait S old keep .lock :: st)
  | leave (hst : st = .user :: tail) : UserWrite m st m tail

variable {m m' : Shared Sto} {pre rest st st' : List (Frame Sto)}

section
omit [DecidableEq Sto]

theorem inc_same (m : Shared Sto) (p : Nat) : m.Same (m.inc p) := by
  rw [Shared.inc]
  split <;> exact ⟨rfl, rfl, rfl, rfl⟩

theorem dec_same (m : Shared Sto) (p : Nat) : m.Same (m.dec p) := by
  rw [Shared.dec]
  split <;> exact ⟨rfl, rfl, rfl, rfl⟩

theorem takeHandle_same (h : m.takeHandle p = some m') : m.Same m' := by
  rw [Shared.takeHandle] at h
  split at h
  · cases h
    exact ⟨rfl, rfl, rfl, rfl⟩
  · split at h <;> cases h
    exact ⟨rfl, rfl, rfl, rfl⟩

end

theorem Shared.Same.setStorage (h : m.Same m') (op : Nat) (S : Sto) (new : Option Nat) :
    (m.setStorage op S new).Same (m'.setStorage op S new) := by
  have ho : m'.objAt = m.objAt := by
    funext b
    rw [Shared.objAt, Shared.objAt, h.epoch]
  refine ⟨?_, ?_, h.epoch, h.loads⟩
  · simp only [Shared.setStorage, h.storage]
  · simp only [Shared.setStorage, h.storage, h.log, ho]

theorem Frame.step_content {f : Frame Sto} (hs : f.step m = some (m', pre)) :
    m.Same m' ∨ ∃ op S old new, m.storage S = some old ∧ m' = m.setStorage op S (some new) ∧
      Exchanges S old f pre := by
  cases f with
  | user => cases hs
  | load S since pc =>
    left
    cases pc with
    | lock | read =>
      simp only [Frame.step, loadStep, Option.map_eq_some_iff] at hs
      obtain ⟨_, _, he⟩ := hs
      cases he
      exact ⟨rfl, rfl, rfl, rfl⟩
    | inc p e =>
      cases hs
      exact inc_same m p
    | unlock p e =>
      cases hs
      exact ⟨rfl, rfl, rfl, rfl⟩
    | done => cases hs
  | swap op S new keep =>
    simp only [Frame.step, Option.map_eq_some_iff] at hs
    obtain ⟨old, hS, he⟩ := hs
    cases he
    exact .inr ⟨op, S, old, new, hS, rfl, .swap⟩
  | wait S ptr keep pc =>
    left
    cases pc with
    | lock =>
      simp only [Frame.step, waitStep, Option.map_eq_some_iff] at hs
      obtain ⟨_, _, he⟩ := hs
      cases he
      exact ⟨rfl, rfl, rfl, rfl⟩
    | unlock =>
      cases hs
      exact ⟨rfl, rfl, rfl, rfl⟩
    | done => cases hs
  | cas op S current new pc =>
    cases pc with
    | lock =>
      simp only [Frame.step, casStep, Option.map_eq_some_iff] at hs
      obtain ⟨_, _, he⟩ := hs
      cases he
      exact .inl ⟨rfl, rfl, rfl, rfl⟩
    | exchange =>
      simp only [Frame.step, casStep, Option.map_eq_some_iff] at hs
      obtain ⟨old, hS, he⟩ := hs
      split at he
      · rename_i ho
        subst ho
        cases he
        exact .inr ⟨op, S, old, new, hS, rfl, .cas⟩
      · cases he
        exact .inl ⟨rfl, rfl, rfl, rfl⟩
    | inc old e =>
      cases hs
      exact .inl (inc_same m old)
    | dropNew old =>
      cases hs
      exact .inl (dec_same m new)
    | unlock old =>
      cases hs
      exact .inl ⟨rfl, rfl, rfl, rfl⟩
    | done => cases hs
  | discard ptr =>
    cases ptr with
    | none => cases hs
    | some a =>
      cases hs
      exact .inl (dec_same m a)

section
omit [DecidableEq Sto]

theorem retStep_content (hs : retStep m st = some (m', st')) :
    ∃ f, st = f :: st' ∧ f.result.isSome ∧ m'.storage = m.storage ∧ m'.log = m.log ∧
      m'.epoch = m.epoch ∧ m'.strong = m.strong ∧ m'.loads = (f.loaded m).toList ++ m.loads := by
  cases st with
  | nil => cases hs
  | cons f st =>
    simp only [retStep, Option.map_eq_some_iff] at hs
    obtain ⟨v, hv, he⟩ := hs
    cases he
    refine ⟨f, rfl, by rw [hv]; rfl, ?_⟩
    cases v <;> exact ⟨rfl, rfl, rfl, rfl, rfl⟩

end

theorem userStep_write (hs : userStep m free st act = some (m', st')) : UserWrite m st m' st' := by
  cases act with
  | alloc a =>
    simp only [userStep, Option.map_eq_some_iff] at hs
    obtain ⟨m₁, h₁, he⟩ := hs
    cases he
    exact .alloc h₁
  | clone a =>
    simp only [userStep] at hs
    split at hs <;> cases hs
    obtain ⟨hS, hl, he, hloads⟩ := inc_same m a
    exact .same ⟨hS, hl, he, hloads⟩
  | dropHandle a =>
    simp only [userStep, Option.map_eq_some_iff] at hs
    obtain ⟨m₁, h₁, he⟩ := hs
    cases he
    exact .start (takeHandle_same h₁) .discard
  | create S a =>
    simp only [userStep] at hs
    split at hs
    · rename_i hnone
      simp only [Option.map_eq_some_iff] at hs
      obtain ⟨m₁, h₁, he⟩ := hs
      cases he
      obtain ⟨hS, hl, he, hloads⟩ := (takeHandle_same h₁).setStorage m.nextOp S (some a)
      exact .create hnone.1 ⟨hS, hl, he, hloads⟩
    · cases hs
  | load S =>
    simp only [userStep, Option.map_eq_some_iff] at hs
    obtain ⟨_, _, he⟩ := hs
    cases he
    exact .start ⟨rfl, rfl, rfl, rfl⟩ .load
  | swap S new | store S new =>
    simp only [userStep, Option.bind_eq_some_iff, Option.map_eq_some_iff] at hs
    obtain ⟨_, _, m₁, h₁, he⟩ := hs
    cases he
    obtain ⟨hS, hl, he, hloads⟩ := takeHandle_same h₁
    exact .start ⟨hS, hl, he, hloads⟩ .swap
  | cas S current new =>
    simp only [userStep, Option.bind_eq_some_iff, Option.map_eq_some_iff] at hs
    obtain ⟨_, _, m₁, h₁, he⟩ := hs
    cases he
    obtain ⟨hS, hl, he, hloads⟩ := takeHandle_same h₁
    exact .start ⟨hS, hl, he, hloads⟩ .cas
  | intoInner S | dropStorage S =>
    simp only [userStep] at hs
    split at hs
    · simp only [Option.map_eq_some_iff] at hs
      obtain ⟨p, hS, he⟩ := hs
      cases he
      exact .remove hS _
    · cases hs
  | userRet =>
    simp only [userStep] at hs
    split at hs <;> cases hs
    exact .leave rfl
  | run => cases hs
  | ret => cases hs

theorem threadStep_epoch (hs : threadStep m free st act = some (m', st'))
    (ha : a = 0 ∨ 0 < m.strong a) : m'.epoch a = m.epoch a := by
  rcases threadStep_cases hs with ⟨f, rest, pre, _, _, hf, _⟩ | ⟨_, hs⟩ | ⟨_, hs⟩
  · rcases Frame.step_content hf with h | ⟨_, _, _, _, _, rfl, _⟩
    · rw [h.epoch]
    · rfl
  · obtain ⟨_, _, _, _, _, h, _⟩ := retStep_content hs
    rw [h]
  · cases userStep_write hs with
    | same h => rw [h.epoch]
    | start h => rw [h.epoch]
    | @alloc b m₁ hb =>
      rw [Shared.allocate] at hb
      split at hb
      · cases hb
      · rename_i hfree
        cases hb
        apply Function.update_of_ne
        rintro rfl
        exact hfree (ha.imp id Nat.ne_of_gt)
    | create _ h =>
      rw [h.epoch]
      rfl
    | remove => rfl
    | leave => rfl

theorem threadStep_log (hs : threadStep m free st act = some (m', st')) (S : Sto) :
    m'.storage S = m.storage S ∧ m'.log S = m.log S ∨
      m'.epoch = m.epoch ∧ ∃ op, m'.log S =
        ⟨op, (m.storage S).map m.objAt, (m'.storage S).map m.objAt⟩ :: m.log S := by
  have write : ∀ op S' new {k : Shared Sto}, (m.setStorage op S' new).Same k →
      k.storage S = m.storage S ∧ k.log S = m.log S ∨
      k.epoch = m.epoch ∧ ∃ op, k.log S =
        ⟨op, (m.storage S).map m.objAt, (k.storage S).map m.objAt⟩ :: m.log S := by
    intro op S' new k h
    rw [h.storage, h.log]
    by_cases hS : S = S'
    · subst hS
      exact .inr ⟨h.epoch, op, by simp [Shared.setStorage]⟩
    · exact .inl ⟨Function.update_of_ne hS .., Function.update_of_ne hS ..⟩
  have same : m.Same m' → m'.storage S = m.storage S ∧ m'.log S = m.log S :=
    fun h => ⟨by rw [h.storage], by rw [h.log]⟩
  rcases threadStep_cases hs with ⟨f, rest, pre, _, _, hf, _⟩ | ⟨_, hs⟩ | ⟨_, hs⟩
  · rcases Frame.step_content hf with h | ⟨op, S', old, new, _, rfl, _⟩
    · exact .inl (same h)
    · exact write op S' (some new) ⟨rfl, rfl, rfl, rfl⟩
  · obtain ⟨_, _, _, hst, hl, _⟩ := retStep_content hs
    exact .inl ⟨by rw [hst], by rw [hl]⟩
  · cases userStep_write hs with
    | same h => exact .inl (same h)
    | start h => exact .inl (same h)
    | alloc hb =>
      rw [Shared.allocate] at hb
      split at hb <;> cases hb
      exact .inl ⟨rfl, rfl⟩
    | create _ h => exact write _ _ _ h
    | @remove S' _ _ => exact write m.nextOp S' none ⟨rfl, rfl, rfl, rfl⟩
    | leave => exact .inl ⟨rfl, rfl⟩

theorem threadStep_loads (hs : threadStep m free st act = some (m', st')) (hρ : ρ ∈ m'.loads) :
    ρ ∈ m.loads ∨ ∃ f, st = f :: st' ∧ f.loaded m = some ρ ∧ m'.log = m.log := by
  rcases threadStep_cases hs with ⟨f, rest, pre, _, _, hf, _⟩ | ⟨_, hs⟩ | ⟨_, hs⟩
  · left
    rcases Frame.step_content hf with h | ⟨_, _, _, _, _, rfl, _⟩
    · rwa [h.loads] at hρ
    · exact hρ
  · obtain ⟨f, hst, _, _, hl, _, _, h⟩ := retStep_content hs
    rw [h] at hρ
    rcases List.mem_append.1 hρ with hρ | hρ
    · exact .inr ⟨f, hst, Option.mem_toList.1 hρ, hl⟩
    · exact .inl hρ
  · left
    cases userStep_write hs with
    | same h => rwa [h.loads] at hρ
    | start h => rwa [h.loads] at hρ
    | alloc hb =>
      rw [Shared.allocate] at hb
      split at hb <;> cases hb
      exact hρ
    | create _ h =>
      rw [h.loads] at hρ
      exact hρ
    | remove => exact hρ
    | leave => exact hρ

theorem threadStep_held (hs : threadStep m free st act = some (m', st'))
    (h : Concurrent.HeldSince (m.log S) k o) : Concurrent.HeldSince (m'.log S) k o := by
  rcases threadStep_log hs S with ⟨_, he⟩ | ⟨_, op, he⟩
  · rw [he]
    exact h
  · rw [he]
    exact h.append [_]

theorem threadStep_log_length (hs : threadStep m free st act = some (m', st')) (S : Sto) :
    (m.log S).length ≤ (m'.log S).length := by
  rcases threadStep_log hs S with ⟨_, he⟩ | ⟨_, op, he⟩
  · rw [he]
  · rw [he]
    exact Nat.le_succ _

variable {σ σ' : State Thr Sto} [DecidableEq Thr] [Fintype Thr] [Fintype Sto]

theorem strong_pos_owned (hr : (machine Thr Sto).Reach ok σ) (hf : f ∈ σ.stack t)
    (ho : a ∈ f.owned) : a = 0 ∨ 0 < σ.mem.strong a := by
  refine or_iff_not_imp_left.2 fun ha => ?_
  rw [strong_eq hr ha]
  have hm : a ∈ (σ.stack t).flatMap Frame.owned := List.mem_flatMap.2 ⟨f, hf, ho⟩
  have hle := Finset.single_le_sum (f := fun t => ((σ.stack t).flatMap Frame.owned).count a)
    (fun _ _ => Nat.zero_le _) (Finset.mem_univ t)
  have hpos := List.count_pos_iff.2 hm
  exact Nat.lt_of_lt_of_le hpos (Nat.le_trans hle (Nat.le_add_left ..))

theorem strong_pos_stored (hr : (machine Thr Sto).Reach ok σ) (hS : σ.mem.storage S = some a) :
    a = 0 ∨ 0 < σ.mem.strong a := by
  refine or_iff_not_imp_left.2 fun ha => ?_
  rw [strong_eq hr ha]
  have hpos : 0 < σ.mem.stored a := Finset.card_pos.2 ⟨S, by simp [hS]⟩
  omega

theorem log_chained (hr : (machine Thr Sto).Reach ok σ) (S : Sto) :
    Concurrent.Chained (σ.mem.log S) ((σ.mem.storage S).map σ.mem.objAt) := by
  refine hr.invariant_of
    (Q := fun σ => ∀ S a, σ.mem.storage S = some a → a = 0 ∨ 0 < σ.mem.strong a)
    (P := fun σ => Concurrent.Chained (σ.mem.log S) ((σ.mem.storage S).map σ.mem.objAt))
    (fun _ hr _ _ => strong_pos_stored hr) ?_ ?_
  · rintro _ rfl
    rfl
  · intro l σ σ' hQ hC _ hs
    obtain ⟨m', st', ht, rfl⟩ := State.step_cases hs
    change Concurrent.Chained (m'.log S) ((m'.storage S).map m'.objAt)
    rcases threadStep_log ht S with ⟨hS, hl⟩ | ⟨he, op, hl⟩
    · have hobj : (σ.mem.storage S).map m'.objAt = (σ.mem.storage S).map σ.mem.objAt := by
        cases h : σ.mem.storage S with
        | none => rfl
        | some a => simp [Shared.objAt, threadStep_epoch ht (hQ S a h)]
      rw [hS, hl, hobj]
      exact hC
    · have hobj : σ.mem.objAt = m'.objAt := by
        funext a
        rw [Shared.objAt, Shared.objAt, he]
      rw [hl]
      exact ⟨by rw [hobj], hC⟩

end ArcSwap.RwLock
