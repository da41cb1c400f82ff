import ArcSwap.RwLock.Model
import ArcSwap.Concurrent.Stacks

namespace ArcSwap.RwLock
set_option autoImplicit true

variable {Thr Sto : Type} {m m' : Shared Sto} {pre rest st st' : List (Frame Sto)}

theorem takeHandle_lock (h : m.takeHandle p = some m') : m'.lock = m.lock := by
  rw [Shared.takeHandle] at h
  split at h
  · cases h
    rfl
  · split at h <;> cases h
    rfl

variable [DecidableEq Sto]

def Frame.reads (S : Sto) : Frame Sto → Nat
  | .load S' _ pc =>
    match pc with
    | .read | .inc _ _ | .unlock _ _ => if S' = S then 1 else 0
    | .lock | .done _ _ => 0
  | _ => 0

def Frame.writes (S : Sto) : Frame Sto → Nat
  | .wait S' _ _ pc =>
    match pc with
    | .unlock => if S' = S then 1 else 0
    | .lock | .done => 0
  | .cas _ S' _ _ pc =>
    match pc with
    | .exchange | .inc _ _ | .dropNew _ | .unlock _ => if S' = S then 1 else 0
    | .lock | .done _ => 0
  | _ => 0

theorem user_reads (S : Sto) : (Frame.user : Frame Sto).reads S = 0 := rfl

theorem user_writes (S : Sto) : (Frame.user : Frame Sto).writes S = 0 := rfl

/-- A step changes at most the lock of the storage of its activation, as it says. -/
def LockStep (m : Shared Sto) (st : List (Frame Sto)) (m' : Shared Sto) (st' : List (Frame Sto)) :
    Prop :=
  ∀ S, (m.lock S).Step ((st.map (Frame.reads S)).sum) ((st.map (Frame.writes S)).sum)
    (m'.lock S) ((st'.map (Frame.reads S)).sum) ((st'.map (Frame.writes S)).sum)

theorem LockStep.same (hl : m'.lock = m.lock)
    (hr : ∀ S, (st'.map (Frame.reads S)).sum = (st.map (Frame.reads S)).sum)
    (hw : ∀ S, (st'.map (Frame.writes S)).sum = (st.map (Frame.writes S)).sum) :
    LockStep m st m' st' := by
  intro S
  rw [hl, hr, hw]
  exact .same

theorem LockStep.release {f g : Frame Sto} (hr : ∀ S, g.reads S = f.reads S)
    (hw : ∀ S, g.writes S = f.writes S) (hs : release m a g = (m', pre)) :
    LockStep m [f] m' pre := by
  obtain ⟨rfl, rfl⟩ := Prod.mk.inj hs
  refine .same ?_ (fun S => ?_) (fun S => ?_)
  · rw [Shared.dec]
    split <;> rfl
  · split <;> simp [hr, user_reads]
  · split <;> simp [hw, user_writes]

theorem LockStep.set {f g : Frame Sto} {l : Concurrent.Lock}
    (hS : (m.lock S).Step (f.reads S) (f.writes S) l (g.reads S) (g.writes S))
    (hr : ∀ S', S' ≠ S → g.reads S' = f.reads S') (hw : ∀ S', S' ≠ S → g.writes S' = f.writes S') :
    LockStep m [f] (m.setLock S l) [g] := by
  intro S'
  simp only [List.map_cons, List.map_nil, List.sum_cons, List.sum_nil, Nat.add_zero]
  by_cases h : S' = S
  · subst h
    simpa [Shared.setLock] using hS
  · simp only [Shared.setLock, Function.update_of_ne h, hr S' h, hw S' h]
    exact .same

theorem loadStep_lock (hs : loadStep m S (.load S since) pc = some (m', pre)) :
    LockStep m [.load S since pc] m' pre := by
  cases pc with
  | lock =>
    simp only [loadStep, Option.map_eq_some_iff] at hs
    obtain ⟨l, hl, he⟩ := hs
    cases he
    refine .set ?_ ?_ ?_
    · simpa [Frame.reads, Frame.writes] using Concurrent.Lock.Step.read hl
    · intro S' h
      simp [Frame.reads, Ne.symm h]
    · intro S' h
      rfl
  | read =>
    simp only [loadStep, Option.map_eq_some_iff] at hs
    obtain ⟨p, _, he⟩ := hs
    cases he
    exact .same rfl (fun _ => rfl) (fun _ => rfl)
  | inc p e =>
    cases hs
    refine .same ?_ (fun _ => rfl) (fun _ => rfl)
    rw [Shared.inc]
    split <;> rfl
  | unlock p e =>
    cases hs
    refine .set ?_ ?_ ?_
    · simpa [Frame.reads, Frame.writes] using Concurrent.Lock.Step.unread rfl
    · intro S' h
      simp [Frame.reads, Ne.symm h]
    · intro S' h
      rfl
  | done => cases hs

theorem waitStep_lock (hs : waitStep m S ptr keep (.wait S ptr keep) pc = some (m', pre)) :
    LockStep m [.wait S ptr keep pc] m' pre := by
  cases pc with
  | lock =>
    simp only [waitStep, Option.map_eq_some_iff] at hs
    obtain ⟨l, hl, he⟩ := hs
    cases he
    refine .set ?_ ?_ ?_
    · simpa [Frame.reads, Frame.writes] using Concurrent.Lock.Step.write hl
    · intro S' h
      rfl
    · intro S' h
      simp [Frame.writes, Ne.symm h]
  | unlock =>
    cases hs
    refine .set ?_ ?_ ?_
    · cases keep <;> simpa [Frame.reads, Frame.writes] using Concurrent.Lock.Step.unwrite rfl
    · intro S' h
      cases keep <;> rfl
    · intro S' h
      cases keep <;> simp [Frame.writes, Ne.symm h]
  | done => cases hs

theorem casStep_lock
    (hs : casStep m op S current new (.cas op S current new) pc = some (m', pre)) :
    LockStep m [.cas op S current new pc] m' pre := by
  cases pc with
  | lock =>
    simp only [casStep, Option.map_eq_some_iff] at hs
    obtain ⟨l, hl, he⟩ := hs
    cases he
    refine .set ?_ ?_ ?_
    · simpa [Frame.reads, Frame.writes] using Concurrent.Lock.Step.write hl
    · intro S' h
      rfl
    · intro S' h
      simp [Frame.writes, Ne.symm h]
  | exchange =>
    simp only [casStep, Option.map_eq_some_iff] at hs
    obtain ⟨old, _, he⟩ := hs
    split at he <;> cases he <;> exact .same rfl (fun _ => rfl) (fun _ => rfl)
  | inc old e =>
    cases hs
    refine .same ?_ (fun _ => rfl) (fun _ => rfl)
    rw [Shared.inc]
    split <;> rfl
  | dropNew old =>
    apply LockStep.release (a := new) (g := .cas op S current new (.unlock old))
    · exact fun _ => rfl
    · exact fun _ => rfl
    · exact Option.some.inj hs
  | unlock old =>
    cases hs
    refine .set ?_ ?_ ?_
    · simpa [Frame.reads, Frame.writes] using Concurrent.Lock.Step.unwrite rfl
    · intro S' h
      rfl
    · intro S' h
      simp [Frame.writes, Ne.symm h]
  | done => cases hs

theorem Frame.step_lock {f : Frame Sto} (hs : f.step m = some (m', pre)) :
    LockStep m [f] m' pre := by
  cases f with
  | user => cases hs
  | load S since pc => exact loadStep_lock hs
  | swap op S new keep =>
    simp only [Frame.step, Option.map_eq_some_iff] at hs
    obtain ⟨old, _, he⟩ := hs
    cases he
    exact .same rfl (fun _ => rfl) (fun _ => rfl)
  | wait S ptr keep pc => exact waitStep_lock hs
  | cas op S current new pc => exact casStep_lock hs
  | discard ptr =>
    cases ptr with
    | none => cases hs
    | some a =>
      apply LockStep.release (a := a) (g := .discard none)
      · exact fun _ => rfl
      · exact fun _ => rfl
      · exact Option.some.inj hs

theorem retStep_lock (hs : retStep m st = some (m', st')) : LockStep m st m' st' := by
  cases st with
  | nil => cases hs
  | cons f st =>
    simp only [retStep, Option.map_eq_some_iff] at hs
    obtain ⟨v, hv, he⟩ := hs
    cases he
    have hf : ∀ S, f.reads S = 0 ∧ f.writes S = 0 := by
      intro S
      unfold Frame.result at hv
      split at hv <;> cases hv <;> exact ⟨rfl, rfl⟩
    refine .same ?_ (fun S => ?_) (fun S => ?_)
    · cases v <;> rfl
    · simp [(hf S).1]
    · simp [(hf S).2]

theorem userStep_lock (hs : userStep m free st act = some (m', st')) : LockStep m st m' st' := by
  cases act with
  | alloc a =>
    simp only [userStep, Option.map_eq_some_iff] at hs
    obtain ⟨m₁, h₁, he⟩ := hs
    cases he
    rw [Shared.allocate] at h₁
    split at h₁ <;> cases h₁
    exact .same rfl (fun _ => rfl) (fun _ => rfl)
  | clone a =>
    simp only [userStep] at hs
    split at hs <;> cases hs
    refine .same ?_ (fun _ => rfl) (fun _ => rfl)
    rw [Shared.inc]
    split <;> rfl
  | dropHandle a =>
    simp only [userStep, Option.map_eq_some_iff] at hs
    obtain ⟨m₁, h₁, he⟩ := hs
    cases he
    refine .same (takeHandle_lock h₁) (fun S => ?_) (fun S => ?_) <;>
      simp [Frame.reads, Frame.writes]
  | create S a =>
    simp only [userStep] at hs
    split at hs
    · simp only [Option.map_eq_some_iff] at hs
      obtain ⟨m₁, h₁, he⟩ := hs
      cases he
      have hl := takeHandle_lock h₁
      exact .same hl (fun _ => rfl) (fun _ => rfl)
    · cases hs
  | load S =>
    simp only [userStep, Option.map_eq_some_iff] at hs
    obtain ⟨_, _, he⟩ := hs
    cases he
    refine .same rfl (fun S => ?_) (fun S => ?_) <;> simp [Frame.reads, Frame.writes]
  | swap | store | cas =>
    simp only [userStep, Option.bind_eq_some_iff, Option.map_eq_some_iff] at hs
    obtain ⟨_, _, m₁, h₁, he⟩ := hs
    cases he
    have hl := takeHandle_lock h₁
    refine .same hl (fun S => ?_) (fun S => ?_) <;>
      simp [Frame.reads, Frame.writes]
  | intoInner S | dropStorage S =>
    simp only [userStep] at hs
    split at hs
    · simp only [Option.map_eq_some_iff] at hs
      obtain ⟨p, _, he⟩ := hs
      cases he
      refine .same rfl (fun S => ?_) (fun S => ?_) <;> simp [Frame.reads, Frame.writes]
    · cases hs
  | userRet =>
    simp only [userStep] at hs
    split at hs <;> cases hs
    refine .same rfl (fun S => ?_) (fun S => ?_) <;> simp [Frame.reads, Frame.writes]
  | run => cases hs
  | ret => cases hs

theorem threadStep_lock (hs : threadStep m free st act = some (m', st')) :
    LockStep m st m' st' := by
  rcases threadStep_cases hs with ⟨f, rest, pre, _, rfl, hf, rfl⟩ | ⟨_, hs⟩ | ⟨_, hs⟩
  · intro S
    have h := (Frame.step_lock hf S).add (a := (rest.map (Frame.reads S)).sum)
      (b := (rest.map (Frame.writes S)).sum)
    simpa [Nat.add_assoc] using h
  · exact retStep_lock hs
  · exact userStep_lock hs

variable {σ σ' : State Thr Sto} [DecidableEq Thr] [Fintype Thr]

/-- Every lock is held by exactly the activations in their critical sections. -/
theorem locks_held (hr : (machine Thr Sto).Reach ok σ) (S : Sto) :
    (σ.mem.lock S).Held (Concurrent.total (Frame.reads S) σ.stack)
      (Concurrent.total (Frame.writes S) σ.stack) := by
  refine hr.invariant (P := fun σ => (σ.mem.lock S).Held
    (Concurrent.total (Frame.reads S) σ.stack) (Concurrent.total (Frame.writes S) σ.stack)) ?_ ?_
  · rintro _ rfl
    simp [State.initial, Concurrent.total, Concurrent.Lock.free_held]
  · intro l σ σ' h _ hs
    obtain ⟨m', st', ht, rfl⟩ := State.step_cases hs
    rw [Concurrent.total_eq (Frame.reads S) σ.stack l.1,
      Concurrent.total_eq (Frame.writes S) σ.stack l.1] at h
    rw [Concurrent.total_update, Concurrent.total_update]
    exact h.step (threadStep_lock ht S)

end ArcSwap.RwLock
