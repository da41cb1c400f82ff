import ArcSwap.Operations

namespace ArcSwap
set_option autoImplicit true

variable {Thr Sto : Type}

/-- The changes of `S` that an operation has made. -/
def Shared.entries (m : Shared Thr Sto) (op : Nat) (S : Sto) : List Update :=
  (m.log S).filter (·.op = op)

variable {m m' : Shared Thr Sto} {st st' pre rest : List (Frame Thr Sto)}

theorem Shared.entries_congr (h : m'.log = m.log) (op : Nat) (S : Sto) :
    m'.entries op S = m.entries op S := by
  rw [Shared.entries, h, ← Shared.entries]

def Frame.changes : Frame Thr Sto → Option (Nat × Sto × List Update)
  | .swap op S _ pc =>
    some (op, S, match pc with
      | .start => []
      | .await _ u | .done _ u => [u])
  | .cas op S _ _ _ pc =>
    some (op, S, match pc with
      | .pay _ u | .dec _ u => [u]
      | .done _ u => u.toList
      | .retry | .load | .exchange _ | .drop | .dropNew _ => [])
  | .rcu _ _ (.cas _ _ _) => none
  | .rcu op S pc =>
    some (op, S, match pc with
      | .compare cur prev arg res => if cur.ptr = prev.ptr then [⟨op, some arg, some res⟩] else []
      | .inner _ arg res | .release _ _ arg res | .dropCur _ arg res | .done _ arg res =>
        [⟨op, some arg, some res⟩]
      | .load | .closure _ _ | .cas _ _ _ | .dropOld _ => [])
  | _ => none

theorem Frame.op_of_changes {f : Frame Thr Sto} (h : f.changes = some (n, S, us)) :
    f.op = some n := by
  cases f with
  | swap | cas =>
    cases h
    rfl
  | rcu op S pc => cases pc <;> cases h <;> rfl
  | _ => cases h

/-- The objects an operation keeps track of are those its pointers refer to. -/
def Frame.Objects (m : Shared Thr Sto) : Frame Thr Sto → Prop
  | .swap op _ _ pc =>
    match pc with
    | .start => True
    | .await old u | .done old u => ∃ new, u = ⟨op, some (m.objAt old), some new⟩
  | .cas op _ current new dst pc =>
    match pc with
    | .retry | .load | .exchange _ | .drop => dst = m.objAt new
    | .pay old u | .dec old u | .done old (some u) =>
      old.ptr = current ∧ u = ⟨op, some (m.objAt old.ptr), some dst⟩
    | .dropNew old | .done old none => old.ptr ≠ current
  | .rcu _ _ pc =>
    match pc with
    | .closure cur arg | .cas cur arg _ | .compare cur _ arg _ | .inner cur arg _ =>
      arg = m.objAt cur.ptr
    | .release _ ret arg _ | .dropCur ret arg _ | .done ret arg _ => arg = m.objAt ret
    | .load | .dropOld _ => True
  | _ => True

theorem Frame.Auxiliary.objects {f : Frame Thr Sto} (h : f.Auxiliary) : f.Objects m := by
  cases f with
  | swap | cas => cases h.1
  | rcu => exact absurd rfl h.2
  | _ => trivial

theorem Frame.Objects.keep {f : Frame Thr Sto} (h : f.Objects m)
    (howned : ∀ a ∈ f.owned, m'.objAt a = m.objAt a)
    (hheld : ∀ g ∈ f.held, m'.objAt g.ptr = m.objAt g.ptr)
    (hawait : ∀ op S new old u, f = .swap op S new (.await old u) → m'.objAt old = m.objAt old) :
    f.Objects m' := by
  cases f with
  | swap op S new pc =>
    cases pc with
    | start => trivial
    | await old u =>
      obtain ⟨n, rfl⟩ := h
      exact ⟨n, by rw [hawait op S new old _ rfl]⟩
    | done old u =>
      obtain ⟨n, rfl⟩ := h
      exact ⟨n, by rw [howned old (by simp [Frame.owned])]⟩
  | cas op S current new dst pc =>
    cases pc with
    | retry | load | exchange | drop =>
      show dst = m'.objAt new
      rw [howned new (by simp [Frame.owned])]
      exact h
    | pay old u | dec old u =>
      obtain ⟨rfl, rfl⟩ := h
      exact ⟨rfl, by rw [hheld old (by simp [Frame.held])]⟩
    | dropNew => exact h
    | done old u =>
      cases u with
      | none => exact h
      | some u =>
        obtain ⟨rfl, rfl⟩ := h
        exact ⟨rfl, by rw [hheld old (by simp [Frame.held])]⟩
  | rcu op S pc =>
    cases pc with
    | closure cur arg | cas cur arg | compare cur _ arg | inner cur arg =>
      show arg = m'.objAt cur.ptr
      rw [hheld cur (by simp [Frame.held])]
      exact h
    | release _ ret arg | dropCur ret arg | done ret arg =>
      show arg = m'.objAt ret
      rw [howned ret (by simp [Frame.owned])]
      exact h
    | _ => trivial
  | _ => trivial

theorem Stacked.below (h : Stacked st) (hf : f ∈ st) (hr : ¬ f.Ready) : ∃ g ∈ st, Called g f := by
  obtain ⟨above, below, rfl⟩ := List.append_of_mem hf
  cases above using List.reverseRecOn with
  | nil => exact absurd (h.ready f rfl) hr
  | append_singleton above g =>
    refine ⟨g, by simp, ?_⟩
    have hc := h.called
    rw [List.append_assoc, List.isChain_append] at hc
    exact (List.isChain_cons_cons.1 hc.2.1).1

variable {σ σ' : State Thr Sto} {cfg : Config Thr Sto}

variable [DecidableEq Sto]

/-- An operation has made the changes `us` of `S`, and no others. -/
def Shared.Made (m : Shared Thr Sto) (op : Nat) (S : Sto) (us : List Update) : Prop :=
  ∀ S', m.entries op S' = if S' = S then us else []

def Frame.Made (m : Shared Thr Sto) (f : Frame Thr Sto) : Prop :=
  ∀ op S us, f.changes = some (op, S, us) → m.Made op S us

/-- A finished operation has made the change it returns from, if any: `swap` one from what it
returns, `compare_and_swap` one if it returns the expected pointer, and `rcu` one from what it
returns to the result of its closure for just that. -/
def Call.Done (m : Shared Thr Sto) : Call Sto → Prop
  | .load _ _ _ _ => True
  | .swap op S new ret => m.Made op S [⟨op, some ret, some new⟩]
  | .cas op S current new ret =>
    m.Made op S (if ret.1 = current then [⟨op, some ret, some new⟩] else [])
  | .rcu op S arg new ret => ret = arg ∧ m.Made op S [⟨op, some arg, some new⟩]

theorem Shared.entries_other (h : m'.log = Function.update m.log S (u :: m.log S))
    (hop : u.op ≠ op) (S' : Sto) : m'.entries op S' = m.entries op S' := by
  rw [Shared.entries, h]
  by_cases hS : S' = S
  · subst hS
    rw [Function.update_self, List.filter_cons_of_neg (by simpa using hop), ← Shared.entries]
  · rw [Function.update_of_ne hS, ← Shared.entries]

theorem Shared.Made.first (hm : m.Made op S []) (h : m'.log = Function.update m.log S (u :: m.log S))
    (hop : u.op = op) : m'.Made op S [u] := by
  intro S'
  have he := hm S'
  rw [Shared.entries, h]
  by_cases hS : S' = S
  · subst hS
    rw [Function.update_self, List.filter_cons_of_pos (by simpa using hop), ← Shared.entries, he]
    simp
  · rw [Function.update_of_ne hS, ← Shared.entries, he, if_neg hS, if_neg hS]

theorem Call.Done.keep {c : Call Sto} (h : c.Done m)
    (hk : ∀ op, c.op = some op → ∀ S, m'.entries op S = m.entries op S) : c.Done m' := by
  have made : ∀ {op S us}, c.op = some op → m.Made op S us → m'.Made op S us := by
    intro op S us hop hm S'
    rw [hk op hop, hm S']
  cases c with
  | load => trivial
  | swap => exact made rfl h
  | cas => exact made rfl h
  | rcu => exact ⟨h.1, made rfl h.2⟩

/-- What is known of an activation as part of an operation. -/
structure Frame.Linear (m : Shared Thr Sto) (f : Frame Thr Sto) : Prop where
  made : f.Made m
  objects : f.Objects m

theorem Frame.Linear.call {f : Frame Thr Sto} (h : f.Linear m) (hc : f.call m = some c) :
    c.Done m := by
  unfold Frame.call at hc
  split at hc <;> cases hc
  · trivial
  · trivial
  · rename_i op S new old u
    obtain ⟨n, rfl⟩ := show ∃ n, u = ⟨op, some (m.objAt old), some n⟩ from h.objects
    exact h.made op S _ rfl
  · rename_i op S current new dst old u
    have hm := h.made op S u.toList rfl
    cases u with
    | none =>
      have hne : old.ptr ≠ current := h.objects
      show m.Made op S (if old.ptr = current then _ else _)
      rw [if_neg hne]
      exact hm
    | some u =>
      obtain ⟨hptr, rfl⟩ := show old.ptr = current ∧ u = ⟨op, some (m.objAt old.ptr), some dst⟩
        from h.objects
      show m.Made op S (if old.ptr = current then _ else _)
      rw [if_pos hptr]
      exact hm
  · rename_i op S ret arg res
    obtain rfl : arg = m.objAt ret := h.objects
    exact ⟨rfl, h.made op S _ rfl⟩

theorem Frame.Auxiliary.made {f : Frame Thr Sto} (h : f.Auxiliary) : f.Made m := by
  intro op S us hc
  cases (Frame.op_of_changes hc).symm.trans h.1

theorem Frame.Made.keep {f : Frame Thr Sto} (h : f.Made m)
    (hk : ∀ n, f.op = some n → ∀ S, m'.entries n S = m.entries n S) : f.Made m' := by
  intro op S us hc S'
  rw [hk op (Frame.op_of_changes hc), h op S us hc S']

theorem Frame.Auxiliary.linear {f : Frame Thr Sto} (h : f.Auxiliary) : f.Linear m :=
  ⟨h.made, h.objects⟩

theorem Frame.Linear.congr {f : Frame Thr Sto} (h : f.Linear m) (hlog : m'.log = m.log)
    (hepoch : m'.epoch = m.epoch) : f.Linear m' := by
  have hobj : ∀ a, m'.objAt a = m.objAt a := by
    intro a
    rw [Shared.objAt, Shared.objAt, hepoch]
  exact ⟨h.made.keep fun n _ => Shared.entries_congr hlog n,
    h.objects.keep (fun a _ => hobj a) (fun g _ => hobj g.ptr) (fun _ _ _ old _ _ => hobj old)⟩

theorem release_linear {f : Frame Thr Sto} (h : f.Linear m) (hs : release m a f = (m', pre)) :
    ∀ g ∈ pre, g.Linear m' := by
  have hi := Internal.release hs
  have hf := h.congr hi.log hi.epoch
  obtain ⟨_, rfl⟩ := Prod.mk.inj hs
  split
  · exact List.forall_mem_cons.2 ⟨Frame.Auxiliary.linear ⟨rfl, by simp [Frame.callee]⟩, by simpa using hf⟩
  · simpa using hf

/-- The attempt of `rcu` has replaced just what the closure was given, if the pointer it returns is
the one the closure was given. -/
theorem Called.linear {f g g' : Frame Thr Sto} (hc : Called f g) (hv : f.result = some v)
    (hg : g.resume m v = some g') (hf : f.Linear m) (hl : g.Linear m) : g'.Linear m := by
  have ha := hc.resolve_left (Frame.result_ne_panic hv)
  unfold Frame.resume at hg
  split at hg <;> cases hg
  · exact Frame.Auxiliary.linear ⟨rfl, by simp [Frame.callee]⟩
  · exact ⟨hl.made, hl.objects⟩
  · exact Frame.Auxiliary.linear ⟨rfl, by simp [Frame.callee]⟩
  · rename_i op S current new dst old
    split
    · exact ⟨hl.made, hl.objects⟩
    · exact ⟨hl.made, by assumption⟩
  · exact ⟨hl.made, hl.objects⟩
  · exact ⟨hl.made, hl.objects⟩
  · exact ⟨hl.made, rfl⟩
  · rename_i op S cur arg res prev
    refine ⟨?_, hl.objects⟩
    obtain rfl : arg = m.objAt cur.ptr := hl.objects
    cases f with
    | cas op' S' current new dst pc =>
      cases ha
      cases pc with
      | done old u =>
        cases hv
        rintro _ _ _ ⟨⟩
        have hm := hf.made op S u.toList rfl
        cases u with
        | none =>
          have hne : prev.ptr ≠ cur.ptr := hf.objects
          show m.Made op S (if cur.ptr = prev.ptr then _ else _)
          rw [if_neg (Ne.symm hne)]
          exact hm
        | some u =>
          obtain ⟨hptr, rfl⟩ := show prev.ptr = cur.ptr ∧ u = ⟨op, some (m.objAt prev.ptr), some res⟩
            from hf.objects
          show m.Made op S (if cur.ptr = prev.ptr then _ else _)
          rw [if_pos hptr.symm, ← hptr]
          exact hm
      | _ => cases hv
    | intoInner src => cases src <;> cases ha
    | _ => cases ha
  · rename_i op S cur arg res a
    obtain rfl : a = cur.ptr := by
      have hgives := Frame.result_gives hv
      rw [show f.callee = .inner cur.ptr from ha] at hgives
      cases hgives
      rfl
    exact ⟨hl.made, hl.objects⟩
  · exact ⟨hl.made, hl.objects⟩
  · exact ⟨hl.made, rfl⟩

variable [DecidableEq Thr]

theorem Frame.step_linear (cfg : Config Thr Sto) (t : Thr) {f : Frame Thr Sto} (h : f.Linear m)
    (hr : f.Ready) (hs : f.step cfg t m sp = some (m', pre)) : ∀ g ∈ pre, g.Linear m' := by
  have hout := (Frame.step_outcome hs).2
  have aux : f.Auxiliary → ∀ g ∈ pre, g.Linear m' := fun hf g hg => (hout.auxiliary hf g hg).linear
  have below : ∀ {g f' : Frame Thr Sto} {m'}, g.Auxiliary → f'.Linear m' →
      ∀ k ∈ [g, f'], k.Linear m' := by
    intro g f' m' hg hf
    exact List.forall_mem_cons.2 ⟨hg.linear, by simpa using hf⟩
  cases f with
  | user => cases hs
  | panic => cases hs
  | load | payAll | guardDrop | discard => exact aux ⟨rfl, by simp [Frame.callee]⟩
  | intoInner src => exact aux ⟨rfl, by cases src <;> simp [Frame.callee]⟩
  | swap op S new pc =>
    cases pc with
    | start =>
      simp only [Frame.step, swapStep, Option.map_eq_some_iff] at hs
      obtain ⟨old, hS, he⟩ := hs
      cases he
      refine below ⟨rfl, by simp [Frame.callee]⟩ ⟨?_, ⟨_, rfl⟩⟩
      rintro _ _ _ ⟨⟩
      refine (h.made op S [] rfl).first ?_ rfl
      rw [Shared.setStorage, hS]
      rfl
    | await => cases hs
    | done => cases hs
  | cas op S current new dst pc =>
    cases pc with
    | retry =>
      cases hs
      exact below ⟨rfl, by simp [Frame.callee]⟩ (Frame.Linear.congr ⟨h.made, h.objects⟩ rfl rfl)
    | exchange old =>
      simp only [Frame.step, casStep, Option.map_eq_some_iff] at hs
      obtain ⟨ptr, hS, he⟩ := hs
      split at he
      · rename_i hc
        cases he
        obtain rfl := hc.1
        have hold : old.ptr = ptr := hr
        obtain rfl : dst = m.objAt new := h.objects
        refine below ⟨rfl, by simp [Frame.callee]⟩ ⟨?_, hold, hold ▸ rfl⟩
        rintro _ _ _ ⟨⟩
        refine (h.made op S [] rfl).first ?_ rfl
        rw [Shared.setStorage, hS]
        rfl
      · cases he
        exact below ⟨rfl, by simp [Frame.callee]⟩ ⟨h.made, h.objects⟩
    | dec old u =>
      simp only [Frame.step, casStep, Option.some.injEq] at hs
      exact release_linear (f := .cas op S current new dst (.done old (some u)))
        ⟨h.made, h.objects⟩ hs
    | dropNew old =>
      simp only [Frame.step, casStep, Option.some.injEq] at hs
      exact release_linear (f := .cas op S current new dst (.done old none))
        ⟨h.made, h.objects⟩ hs
    | _ => cases hs
  | rcu op S pc =>
    cases pc with
    | compare cur prev arg res =>
      simp only [Frame.step, rcuStep] at hs
      have hm : m.Made op S (if cur.ptr = prev.ptr then [⟨op, some arg, some res⟩] else []) :=
        h.made op S _ rfl
      split at hs <;> rename_i hptr <;> cases hs
      · refine below ⟨rfl, by simp [Frame.callee]⟩ ⟨?_, h.objects⟩
        rintro _ _ _ ⟨⟩
        rw [if_pos hptr] at hm
        exact hm
      · refine below ⟨rfl, by simp [Frame.callee]⟩ ⟨?_, trivial⟩
        rintro _ _ _ ⟨⟩
        rw [if_neg hptr] at hm
        exact hm
    | release cur ret arg res =>
      cases hs
      exact below ⟨rfl, by simp [Frame.callee]⟩ ⟨h.made, h.objects⟩
    | _ => cases hs

/-- A step changes at most one storage, in the name of the running operation or of a new one. -/
theorem threadStep_log_op (hs : threadStep cfg t m free st act = some (m', st')) :
    m'.log = m.log ∨ ∃ S u, m'.log = Function.update m.log S (u :: m.log S) ∧
      ((∀ sp, act ≠ .run sp) ∧ u.op = m.nextOp ∧ m'.nextOp = m.nextOp + 1 ∨
        ∃ sp, act = .run sp ∧ ∃ f ∈ st.head?, f.op = some u.op ∧ (f.Made m → m.Made u.op S [])) := by
  rcases threadStep_cases hs with ⟨sp, f, rest, pre, rfl, rfl, hf, _⟩ | ⟨_, h⟩ | ⟨_, h, _⟩ | ⟨hu, h⟩
  · rcases (Frame.step_cases cfg t hf).internal_or_write with hi | hw
    · exact .inl hi.log
    · right
      cases hw <;> exact ⟨_, _, rfl, .inr ⟨sp, rfl, _, rfl, rfl, fun hm => hm _ _ _ rfl⟩⟩
  · left
    obtain ⟨f, v, rest, _, _, ⟨rfl, _⟩ | ⟨_, _, _, _, _, rfl, _⟩⟩ := retStep_cases h
    · cases v <;> rfl
    · rw [Shared.recordFor_eq]
  · left
    rw [claimStep] at h
    split at h <;> cases h
    rfl
  · have hact : ∀ sp, act ≠ .run sp := by
      rintro sp rfl
      cases h
    have hw := userStep_write h
    clear h hs
    cases hw with
    | same _ hl => exact .inl hl
    | alloc h =>
      rw [allocate_eq h]
      exact .inl rfl
    | create _ h =>
      rw [takeHandle_eq h]
      exact .inr ⟨_, _, rfl, .inl ⟨hact, rfl, rfl⟩⟩
    | remove => exact .inr ⟨_, _, rfl, .inl ⟨hact, rfl, rfl⟩⟩

theorem threadStep_entries (hs : threadStep cfg t m free st act = some (m', st'))
    (hn : n < m.nextOp ∨ m'.nextOp ≤ n)
    (hf : ∀ sp, act = .run sp → ∀ f ∈ st.head?, f.op ≠ some n) (S : Sto) :
    m'.entries n S = m.entries n S := by
  rcases threadStep_log_op hs with hl | ⟨S', u, hl, hu⟩
  · exact Shared.entries_congr hl n S
  · refine Shared.entries_other hl ?_ S
    rintro rfl
    rcases hu with ⟨_, hop, hnext⟩ | ⟨sp, hact, f, hf', hop, _⟩
    · omega
    · exact hf sp hact f hf' hop

theorem userStep_linear (hs : userStep m free st act = some (m', st'))
    (hfresh : ∀ S, m.entries m.nextOp S = []) (hold : ∀ f ∈ st, f.Linear m') :
    ∀ f ∈ st', f.Linear m' := by
  have hw := userStep_write hs
  have hm := (userStep_cases hs).2
  have plain : ∀ {f : Frame Thr Sto}, f.op = none → f.callee ≠ .rcu → f.Linear m' :=
    fun h h' => Frame.Auxiliary.linear ⟨h, h'⟩
  clear hs
  cases hw with
  | alloc => exact hold
  | create => exact hold
  | remove _ _ hst =>
    rcases hst with rfl | rfl
    · exact List.forall_mem_cons.2 ⟨plain rfl (by simp [Frame.callee]), hold⟩
    · exact List.forall_mem_cons.2 ⟨plain rfl (by simp [Frame.callee]),
        List.forall_mem_cons.2 ⟨plain rfl (by simp [Frame.callee]), hold⟩⟩
  | same _ hl he =>
    have hobj : m'.objAt = m.objAt := by
      funext a
      rw [Shared.objAt, Shared.objAt, he]
    have fresh : ∀ {op S}, m.Begins m' op → m'.Made op S [] := by
      rintro op S ⟨rfl, _⟩ S'
      rw [Shared.entries_congr hl, hfresh S', ite_self]
    have entry : ∀ {f : Frame Thr Sto}, f.Entry m m' → f.Linear m' := by
      intro f hf
      unfold Frame.Entry at hf
      split at hf
      case h_2 src g => exact plain rfl (by cases src <;> simp [Frame.callee])
      case h_6 =>
        refine ⟨?_, trivial⟩
        rintro _ _ _ ⟨⟩
        exact fresh hf
      case h_7 =>
        refine ⟨?_, hf.2.trans (congrFun hobj.symm _)⟩
        rintro _ _ _ ⟨⟩
        exact fresh hf.1
      case h_8 => exact hf.elim
      all_goals exact plain rfl (by simp [Frame.callee])
    have outer : ∀ {f : Frame Thr Sto}, f.Outer m m' → f.Linear m' := by
      intro f hf
      unfold Frame.Outer at hf
      split at hf
      · exact plain rfl (by simp [Frame.callee])
      · refine ⟨?_, trivial⟩
        rintro _ _ _ ⟨⟩
        exact fresh hf
      · exact hf.elim
    cases hm with
    | stay => exact hold
    | enter hf => exact List.forall_mem_cons.2 ⟨entry hf, hold⟩
    | call hf hg =>
      exact List.forall_mem_cons.2 ⟨entry hf, List.forall_mem_cons.2 ⟨outer hg, hold⟩⟩
    | @closure dst new op S cur arg rest hd =>
      obtain ⟨hc, hrest⟩ := List.forall_mem_cons.1 hold
      refine List.forall_mem_cons.2 ⟨⟨?_, hd.trans (congrFun hobj.symm _)⟩,
        List.forall_mem_cons.2 ⟨⟨?_, hc.objects⟩, hrest⟩⟩
      · rintro _ _ _ ⟨⟩
        exact hc.made op S [] rfl
      · rintro _ _ _ ⟨⟩
    | ret => exact (List.forall_mem_cons.1 hold).2

variable [Fintype Thr]

theorem op_lt_of_call (hr : (machine cfg).Reach ok σ) {c : Call Sto} (hc : c ∈ σ.mem.calls)
    (hop : c.op = some n) : n < σ.mem.nextOp := by
  have hb := begun_le hr n
  have hpos : 0 < σ.mem.finished n := List.countP_pos_iff.2 ⟨c, hc, by simpa using hop⟩
  have hle : σ.mem.finished n ≤ σ.begun n := Nat.le_add_left ..
  split at hb
  · assumption
  · omega

theorem ops_apart (hr : (machine cfg).Reach ok σ) {f : Frame Thr Sto} (hst : σ.stack t = f :: rest)
    (hop : f.op = some n) : (∀ g ∈ rest, g.op ≠ some n) ∧
      (∀ x, x ≠ t → ∀ g ∈ σ.stack x, g.op ≠ some n) ∧ ∀ c ∈ σ.mem.calls, c.op ≠ some n := by
  have hb : σ.begun n ≤ 1 := by
    have hb := begun_le hr n
    split at hb <;> omega
  have hsum : ∑ x, running (σ.stack x) n =
      running rest n + 1 + ∑ x ∈ Finset.univ.erase t, running (σ.stack x) n := by
    rw [← Finset.add_sum_erase Finset.univ _ (Finset.mem_univ t), hst, running_cons, if_pos hop]
  rw [State.begun, hsum] at hb
  refine ⟨?_, ?_, ?_⟩
  · intro g hg hg'
    have hpos := running_pos hg hg'
    omega
  · intro x hx g hg hg'
    have hpos := running_pos hg hg'
    have hle := Finset.single_le_sum (f := fun x => running (σ.stack x) n)
      (fun _ _ => Nat.zero_le _) (Finset.mem_erase.2 ⟨hx, Finset.mem_univ x⟩)
    omega
  · intro c hc hc'
    have hpos : 0 < σ.mem.finished n := List.countP_pos_iff.2 ⟨c, hc, by simpa using hc'⟩
    omega

section
omit [DecidableEq Sto] [DecidableEq Thr]

theorem begun_of_frame {f : Frame Thr Sto} (hf : f ∈ σ.stack t) (hop : f.op = some n) :
    running (σ.stack t) n ≤ σ.begun n ∧ 0 < running (σ.stack t) n := by
  have hle := Finset.single_le_sum (f := fun t => running (σ.stack t) n)
    (fun _ _ => Nat.zero_le _) (Finset.mem_univ t)
  exact ⟨Nat.le_trans hle (Nat.le_add_right ..), running_pos hf hop⟩

end

theorem op_lt_of_frame (hr : (machine cfg).Reach ok σ) {f : Frame Thr Sto} (hf : f ∈ σ.stack t)
    (hop : f.op = some n) : n < σ.mem.nextOp := by
  have hb := begun_le hr n
  obtain ⟨hle, hpos⟩ := begun_of_frame hf hop
  split at hb
  · assumption
  · omega

variable [Fintype Sto]

/-- The number of changes an operation has made. -/
def Shared.changesOf (m : Shared Thr Sto) (op : Nat) : Nat := ∑ S, (m.entries op S).length

section
omit [DecidableEq Thr] [Fintype Thr]

theorem Shared.Made.changesOf (h : m.Made op S us) : m.changesOf op = us.length := by
  have he : ∀ S', (m.entries op S').length = if S' = S then us.length else 0 := by
    intro S'
    rw [h S']
    split <;> rfl
  rw [Shared.changesOf, Finset.sum_congr rfl fun S' _ => he S', Finset.sum_ite_eq']
  simp

end

/-- Every operation does what it returns, and no other change. -/
structure Linear (σ : State Thr Sto) : Prop where
  frame : ∀ t, (σ.stack t).head? ≠ some .panic → ∀ f ∈ σ.stack t, f.Linear σ.mem
  calls : ∀ c ∈ σ.mem.calls, c.Done σ.mem
  fresh : ∀ op, σ.mem.nextOp ≤ op → ∀ S, σ.mem.entries op S = []
  once : ∀ op, σ.mem.changesOf op ≤ 1

/-- What was swapped out of a storage stays until it is returned. -/
theorem stays_of_await (hr : (machine cfg).Reach ok σ) (hp : (σ.stack t).head? ≠ some .panic)
    (hf : .swap op S new (.await old u) ∈ σ.stack t) : σ.mem.Stays old := by
  obtain ⟨g, hg, hc⟩ := (Stacked.reach hr t).below hf (fun h => h)
  have hpark := ((Protocol.reach hr).node t).parked
  rcases hc with rfl | hc
  · cases hst : σ.stack t with
    | nil =>
      rw [hst] at hg
      cases hg
    | cons k rest =>
      rw [hst] at hg hp hpark
      rcases List.mem_cons.1 hg with rfl | hg
      · exact absurd rfl hp
      · exact (hpark _ hg).elim
  · cases g with
    | payAll ptr S' pc =>
      cases hc
      refine stays_of_owned hr hg ?_
      cases pc with
      | help n todo h => cases h <;> simp [Frame.owned]
      | _ => simp [Frame.owned]
    | intoInner src => cases src <;> cases hc
    | _ => cases hc

theorem objects_keep (hr : (machine cfg).Reach ok σ)
    (hs : threadStep cfg t σ.mem σ.free (σ.stack t) act = some (m', st'))
    (hp : (σ.stack x).head? ≠ some .panic) (hf : f ∈ σ.stack x) (ho : f.Objects σ.mem) :
    f.Objects m' := by
  have keep : ∀ {a}, σ.mem.Stays a → m'.objAt a = σ.mem.objAt a := by
    intro a ha
    rw [Shared.objAt, Shared.objAt, threadStep_epoch hs ha]
  refine ho.keep (fun a ha => keep (stays_of_owned hr hf ha))
    (fun g hg => keep (stays_of_held hr hf hg)) ?_
  rintro op S new old u rfl
  exact keep (stays_of_await hr hp hf)

section
omit [DecidableEq Thr] [Fintype Thr]

theorem Linear.initial (cfg : Config Thr Sto) : Linear (State.initial cfg) where
  frame _ _ _ h := by cases h
  calls _ h := by cases h
  fresh _ _ _ := rfl
  once op := by simp [Shared.changesOf, Shared.entries, State.initial]

end

theorem Linear.step (hr : (machine cfg).Reach ok σ) (hL : Linear σ)
    (hs : State.step cfg l σ = some σ') : Linear σ' := by
  obtain ⟨m', st', ht, rfl⟩ := State.step_cases hs
  obtain ⟨t, act⟩ := l
  have hst := Stacked.reach hr t
  have keep : ∀ x f, (σ.stack x).head? ≠ some .panic → f ∈ σ.stack x →
      (∀ sp, act = .run sp → ∀ g ∈ (σ.stack t).head?, ∀ n, f.op = some n → g.op ≠ some n) →
      f.Linear m' := by
    intro x f hp hf hop
    have hl := hL.frame x hp f hf
    refine ⟨hl.made.keep fun n hn => ?_, objects_keep hr ht hp hf hl.objects⟩
    exact threadStep_entries ht (.inl (op_lt_of_frame hr hf hn)) fun sp ha g hg => hop sp ha g hg n hn
  refine ⟨?_, ?_, ?_, ?_⟩
  · intro x hp f hf
    by_cases hx : x = t
    · subst hx
      simp only [Function.update_self] at hp hf
      rcases threadStep_cases ht with ⟨sp, f₀, rest, pre, rfl, he, hstep, rfl⟩ | ⟨rfl, h⟩ |
        ⟨rfl, h, rfl⟩ | ⟨hu, h⟩
      · have hnp : (σ.stack x).head? ≠ some .panic := by
          rw [he]
          exact fun h => (Frame.step_outcome hstep).1 (Option.some.inj h)
        rcases List.mem_append.1 hf with hf | hf
        · have hl := hL.frame x hnp f₀ (by simp [he])
          exact Frame.step_linear cfg x hl (hst.ready f₀ (by simp [he])) hstep f hf
        · refine keep x f hnp (by simp [he, hf]) ?_
          rintro _ _ g hg n hn hg'
          rw [he] at hg
          cases hg
          exact (ops_apart hr he hg').1 f hf hn
      · have hrest : ∀ f ∈ (σ.stack x).tail, f.Linear m' := by
          intro f hf
          refine keep x f ?_ (List.mem_of_mem_tail hf) (by simp)
          obtain ⟨f₀, v, rest, he, hv, _⟩ := retStep_cases h
          rw [he]
          exact fun h => Frame.result_ne_panic hv (Option.some.inj h)
        obtain ⟨f₀, v, rest, he, hv, ⟨rfl, rfl, _⟩ | ⟨g, g', rest', rfl, hg, rfl, rfl⟩⟩ :=
          retStep_cases h
        · rw [he] at hrest
          exact hrest f hf
        · have hnp : (σ.stack x).head? ≠ some .panic := by
            rw [he]
            exact fun h => Frame.result_ne_panic hv (Option.some.inj h)
          rw [he] at hrest hst
          rcases List.mem_cons.1 hf with rfl | hf
          · refine Frame.Linear.congr (m := σ.mem) ?_ ?_ ?_
            · exact (List.isChain_cons_cons.1 hst.called).1.linear hv hg
                (hL.frame x hnp f₀ (by simp [he])) (hL.frame x hnp g (by simp [he]))
            · rw [Shared.recordFor_eq]
            · rw [Shared.recordFor_eq]
          · exact hrest f (List.mem_cons_of_mem _ hf)
      · exact keep x f hp hf (by simp)
      · have hnp : (σ.stack x).head? ≠ some .panic := by
          intro h'
          cases hk : σ.stack x with
          | nil => simp [hk] at h'
          | cons k rest =>
            rw [hk] at h' hu
            cases h'
            cases hu
        refine userStep_linear h (hL.fresh _ (Nat.le_refl _)) (fun g hg => keep x g hnp hg ?_) f hf
        rintro sp rfl
        cases h
    · simp only [Function.update_of_ne hx] at hp hf
      refine keep x f hp hf ?_
      rintro sp _ g hg n hn hg'
      cases hk : σ.stack t with
      | nil => simp [hk] at hg
      | cons k rest =>
        rw [hk] at hg
        cases hg
        exact (ops_apart hr hk hg').2.1 x hx f hf hn
  · intro c hc
    rcases threadStep_calls ht c hc with hc | ⟨rfl, f, hf, hfc⟩
    · refine (hL.calls c hc).keep fun n hn => threadStep_entries ht (.inl (op_lt_of_call hr hc hn)) ?_
      rintro _ _ g hg hg'
      cases hk : σ.stack t with
      | nil => simp [hk] at hg
      | cons k rest =>
        rw [hk] at hg
        cases hg
        exact (ops_apart hr hk hg').2.2 c hc hn
    · have hmem := List.mem_of_mem_head? hf
      have hnp : (σ.stack t).head? ≠ some .panic := by
        rw [show (σ.stack t).head? = some f from hf]
        rintro ⟨⟩
        cases hfc
      refine ((hL.frame t hnp f hmem).call hfc).keep fun n hn => threadStep_entries ht (.inl ?_) (by simp)
      exact op_lt_of_frame hr hmem (Frame.call_op hfc hn)
  · intro op hop S
    have hle := (threadStep_running hst ht op).1
    rw [threadStep_entries ht (.inr hop)]
    · exact hL.fresh op (Nat.le_trans hle hop) S
    · intro sp _ f hf hf'
      have hlt := op_lt_of_frame hr (List.mem_of_mem_head? hf) hf'
      have hop : m'.nextOp ≤ op := hop
      omega
  · intro op
    show m'.changesOf op ≤ 1
    rcases threadStep_log_op ht with hl | ⟨S, u, hl, hu⟩
    · rw [Shared.changesOf, Finset.sum_congr rfl fun S _ => by rw [Shared.entries_congr hl]]
      exact hL.once op
    · by_cases hop : u.op = op
      · have hmade : σ.mem.Made op S [] := by
          subst hop
          rcases hu with ⟨_, he, _⟩ | ⟨sp, rfl, f, hf, hfop, hfm⟩
          · intro S'
            rw [he, hL.fresh _ (Nat.le_refl _), ite_self]
          · refine hfm (hL.frame t ?_ f (List.mem_of_mem_head? hf)).made
            rw [show (σ.stack t).head? = some f from hf]
            rintro ⟨⟩
            cases hfop
        rw [(hmade.first hl hop).changesOf]
        exact Nat.le_refl 1
      · rw [Shared.changesOf, Finset.sum_congr rfl fun S _ => by rw [Shared.entries_other hl hop]]
        exact hL.once op

theorem Linear.reach (hr : (machine cfg).Reach ok σ) : Linear σ :=
  hr.invariant_of (fun _ hr => hr) (fun _ hi => hi ▸ .initial cfg)
    (fun _ _ _ hr hL _ hs => hL.step hr hs)

end ArcSwap
