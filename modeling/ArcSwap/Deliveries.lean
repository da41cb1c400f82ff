import ArcSwap.Envelopes
import ArcSwap.Schedule
import Mathlib.Data.List.Nodup

namespace ArcSwap
set_option autoImplicit true

variable {Thr Sto : Type}

/-- The generation and pointer of a replacement that a reader has taken and not read yet. -/
def Frame.receiving : Frame Thr Sto → Option (Nat × Nat)
  | .load _ _ _ (.envelope g _ _ p) => some (g, p)
  | _ => none

theorem Frame.Plain.receiving {f : Frame Thr Sto} (h : f.Plain) : f.receiving = none := by
  unfold Frame.receiving
  split
  · exact h.elim
  · rfl

/-- Whether a pointer handed over lies in the control of its reader or is about to be read. -/
def inTransit (m : Shared Thr Sto) (stack : Thr → List (Frame Thr Sto)) (x : Handoff Thr) : Nat :=
  (if m.offered x.reader = some x.ptr ∧ m.published x.reader = x.gen then 1 else 0) +
    (if (stack x.reader).head?.bind Frame.receiving = some (x.gen, x.ptr) then 1 else 0)

variable {m m' : Shared Thr Sto} {σ σ' : State Thr Sto} {st st' rest pre : List (Frame Thr Sto)}

theorem inTransit_of_none (x : Handoff Thr) (ho : m.offered x.reader = none)
    (hr : (stack x.reader).head?.bind Frame.receiving = none) : inTransit m stack x = 0 := by
  rw [inTransit, ho, hr]
  simp

theorem head_receiving (h : ∀ f ∈ st.head?, f.Plain) : st.head?.bind Frame.receiving = none := by
  cases st with
  | nil => rfl
  | cons f st => exact (h f rfl).receiving

variable [DecidableEq Thr]

/-- At most one pointer is handed over for a transaction, and none is lost or read twice. -/
structure Deliveries (σ : State Thr Sto) : Prop where
  seen : ∀ x ∈ σ.mem.sent, Seen σ.mem x.reader x.gen ∧ σ.mem.control x.reader ≠ x.gen
  once : (σ.mem.sent.map fun x => (x.reader, x.gen)).Nodup
  count : ∀ x, σ.mem.sent.count x = σ.mem.received.count x + inTransit σ.mem σ.stack x

theorem Deliveries.keep (hD : Deliveries σ) (hk : Keeps σ.mem m') (hs : m'.sent = σ.mem.sent)
    (hc : ∀ x, m'.received.count x + inTransit m' (Function.update σ.stack t st') x =
      σ.mem.received.count x + inTransit σ.mem σ.stack x) :
    Deliveries ⟨m', Function.update σ.stack t st'⟩ where
  seen x hx := by
    obtain ⟨hn, hne⟩ := hD.seen x (hs ▸ hx)
    exact ⟨hk.seen hn, fun h => hne (hk.control _ _ hn h).1⟩
  once := by
    show (m'.sent.map _).Nodup
    rw [hs]
    exact hD.once
  count x := by
    show m'.sent.count x = _
    rw [hs, hc x]
    exact hD.count x

theorem inTransit_congr (x : Handoff Thr) (ho : m'.offered = m.offered)
    (hp : m'.published = m.published)
    (hr : st'.head?.bind Frame.receiving = (stack t).head?.bind Frame.receiving) :
    inTransit m' (Function.update stack t st') x = inTransit m stack x := by
  rw [inTransit, inTransit, ho, hp]
  by_cases hx : x.reader = t
  · rw [hx, Function.update_self, hr]
  · rw [Function.update_of_ne hx]

theorem inTransit_of_ne (x : Handoff Thr) (hx : x.reader ≠ t)
    (ho : m'.offered x.reader = m.offered x.reader)
    (hp : m'.published x.reader = m.published x.reader) :
    inTransit m' (Function.update stack t st') x = inTransit m stack x := by
  rw [inTransit, inTransit, Function.update_of_ne hx, ho, hp]

variable {cfg : Config Thr Sto}

theorem Deliveries.initial (cfg : Config Thr Sto) : Deliveries (State.initial cfg) where
  seen _ hx := by cases hx
  once := .nil
  count x := by simp [inTransit, State.initial]

theorem Deliveries.withdraw (hD : Deliveries σ) (hP : Protocol w σ)
    (hst : σ.stack t = .load S since full (.setIdle g c) :: rest)
    (hk : Keeps σ.mem { σ.mem.setControl t idle with
        offered := Function.update σ.mem.offered t none }) :
    Deliveries ⟨{ σ.mem.setControl t idle with
        offered := Function.update σ.mem.offered t none },
      Function.update σ.stack t (.load S since full (if σ.mem.control t = g then .inc c
        else .envelope g c (clearTag (σ.mem.control t)) ((σ.mem.offered t).getD 0)) :: rest)⟩ := by
  have ht := (hP.node t).top
  rw [hst] at ht
  obtain ⟨⟨_, hp, hg, hc, _⟩, _⟩ := ht
  refine hD.keep hk rfl ?_
  intro x
  congr 1
  by_cases hx : x.reader = t
  · rcases hc with ⟨hc, ho⟩ | ⟨hc, hsome⟩
    · rw [if_pos hc, inTransit_of_none x, inTransit_of_none x]
      · rw [hx, ho]
      · rw [hx, hst]
        rfl
      · rw [hx]
        exact Function.update_self ..
      · rw [hx, Function.update_self]
        rfl
    · have hne : σ.mem.control t ≠ g := by
        rintro rfl
        omega
      obtain ⟨p, hp'⟩ := Option.isSome_iff_exists.1 hsome
      rw [if_neg hne]
      simp [inTransit, hx, hst, hp', hp, Frame.receiving, and_comm]
  · exact inTransit_of_ne x hx (Function.update_of_ne hx ..) rfl

variable [DecidableEq Sto]

theorem Deliveries.exchange (hD : Deliveries σ) (hP : Protocol w σ)
    (hst : σ.stack t = .payAll ptr S (.help n todo (.exchange v since r their mine)) :: rest)
    (hv : σ.mem.control n = v) :
    Deliveries ⟨{ σ.mem.setControl n (mine ||| replacementTag) with
        offered := Function.update σ.mem.offered n (some r)
        sent := ⟨n, v, r⟩ :: σ.mem.sent },
      Function.update σ.stack t (.payAll ptr S (.help n todo (.offer their)) :: rest)⟩ := by
  obtain ⟨⟨hseen, _, _⟩, _, hm4⟩ :=
    show HelpPc.Inv σ.mem n S (.exchange v since r their mine) from
      hP.help t (.payAll ptr S (.help n todo (.exchange v since r their mine))) (by simp [hst])
  obtain ⟨S', _, hpub, hg, hc, _⟩ := (hP.node n).watched.opened (hv ▸ hseen.1)
  have ho : σ.mem.offered n = none := by
    rcases hc with ⟨_, ho⟩ | ⟨hc, _⟩
    · exact ho
    · rw [hg] at hc
      cases hc
  have hself : (σ.mem.setControl n (mine ||| replacementTag)).control n = mine + 1 := by
    rw [← replacementTag_or hm4]
    exact Function.update_self ..
  have hk : Keeps σ.mem { σ.mem.setControl n (mine ||| replacementTag) with
      offered := Function.update σ.mem.offered n (some r)
      sent := ⟨n, v, r⟩ :: σ.mem.sent } := exchange_keeps hm4
  refine ⟨?_, ?_, ?_⟩
  · intro x hx
    rcases List.mem_cons.1 hx with rfl | hx
    · refine ⟨hk.seen hseen, ?_⟩
      intro h
      have h' : mine + 1 = v := hself.symm.trans h
      have := hseen.1
      omega
    · obtain ⟨hn, hne⟩ := hD.seen x hx
      exact ⟨hk.seen hn, fun h => hne (hk.control _ _ hn h).1⟩
  · refine List.nodup_cons.2 ⟨?_, hD.once⟩
    intro h
    obtain ⟨x, hx, he⟩ := List.mem_map.1 h
    obtain ⟨rfl, rfl⟩ := Prod.mk.inj he
    exact (hD.seen x hx).2 hv
  · intro x
    have h := hD.count x
    have hr : ((Function.update σ.stack t
        (.payAll ptr S (.help n todo (.offer their)) :: rest)) x.reader).head?.bind Frame.receiving =
        (σ.stack x.reader).head?.bind Frame.receiving := by
      by_cases hx : x.reader = t
      · rw [hx, Function.update_self, hst]
        rfl
      · rw [Function.update_of_ne hx]
    simp only [List.count_cons, inTransit, hr, Shared.setControl] at h ⊢
    by_cases hx : x.reader = n
    · obtain ⟨xr, xg, xp⟩ := x
      subst hx
      simp only [ho, Function.update_self, hpub, hv] at h ⊢
      simp only [reduceCtorEq, false_and, if_false, Option.some.injEq, beq_iff_eq,
        Handoff.mk.injEq, true_and, and_comm] at h ⊢
      omega
    · have hne : ¬ (⟨n, v, r⟩ : Handoff Thr) = x := by
        rintro rfl
        exact hx rfl
      simp only [Function.update_of_ne hx, beq_iff_eq, hne, if_false, Nat.add_zero]
      exact h

theorem Deliveries.run {f : Frame Thr Sto} (hD : Deliveries σ) (hP : Protocol w σ)
    (hE : Envelopes cfg σ) (hk : Keeps σ.mem m') (hst : σ.stack t = f :: rest)
    (hs : SpaceStep t σ.mem f m' pre) :
    Deliveries ⟨m', Function.update σ.stack t (pre ++ rest)⟩ := by
  have hw := hE.writing t
  have ht := (hP.node t).top
  rw [hst] at hw ht
  cases hs with
  | other hq hf hp hn =>
    cases pre with
    | nil => exact absurd rfl hn
    | cons g pre =>
      refine hD.keep hk hq.sent ?_
      intro x
      rw [hq.received, inTransit_congr x hq.offered hq.published]
      rw [hst]
      exact (hp g rfl).receiving.trans hf.receiving.symm
  | publish =>
    refine hD.keep hk rfl ?_
    intro x
    congr 1
    by_cases hx : x.reader = t
    · rw [inTransit_of_none x, inTransit_of_none x]
      · rw [hx, ht.1.2]
      · rw [hx, hst]
        rfl
      · rw [hx]
        exact ht.1.2
      · rw [hx, Function.update_self]
        split <;> rfl
    · exact inTransit_of_ne x hx rfl (Function.update_of_ne hx ..)
  | withdraw => exact hD.withdraw hP hst hk
  | @receive _ _ _ g c space p =>
    refine hD.keep hk rfl ?_
    intro x
    have hw : σ.mem.handover space = p := hw
    have ho := ht.1.2
    show (_ :: σ.mem.received).count x + _ = _
    rw [hw, List.count_cons]
    by_cases hx : x.reader = t
    · obtain ⟨xr, xg, xp⟩ := x
      subst hx
      simp only [inTransit, ho, hst, Function.update_self, Frame.receiving, List.cons_append,
        List.head?_cons, Option.bind_some, Option.some.injEq, Prod.mk.injEq, beq_iff_eq,
        Handoff.mk.injEq, true_and, reduceCtorEq, false_and, if_false, Nat.add_zero, Nat.zero_add]
    · have hne : ¬ (⟨t, g, p⟩ : Handoff Thr) = x := by
        rintro rfl
        exact hx rfl
      simp only [beq_iff_eq, hne, if_false, Nat.add_zero]
      congr 1
      exact inTransit_of_ne x hx rfl rfl
  | exchange hc => exact hD.exchange hP hst hc
  | _ =>
    refine hD.keep hk rfl ?_
    intro x
    congr 1
    refine inTransit_congr x rfl rfl ?_
    rw [hst]
    first
    | rfl
    | split <;> rfl

variable [Fintype Thr]

theorem Deliveries.step (hD : Deliveries σ) (hP : Protocol cfg.width σ) (hst : ∀ t, Stacked (σ.stack t)) (hE : Envelopes cfg σ)
    (hs : State.step cfg l σ = some σ') : Deliveries σ' := by
  obtain ⟨m', st', ht, rfl⟩ := State.step_cases hs
  have hk := (threadStep_ok hP (hst _) ht).keeps
  rcases threadStep_space (hP.node l.1) ht with ⟨f, rest, pre, he, hf, rfl⟩ | ⟨hm, hh, hh'⟩
  · exact hD.run hP hE hk he hf
  · refine hD.keep hk hm.sent ?_
    intro x
    rw [hm.received, inTransit_congr x hm.offered hm.published]
    exact (head_receiving hh').trans (head_receiving hh).symm

theorem Deliveries.reach (h : (machine cfg).Reach ok σ) : Deliveries σ :=
  h.invariant_of
    (fun _ hr => And.intro (Protocol.reach hr) (And.intro (Stacked.reach hr) (Envelopes.reach hr)))
    (fun _ hi => hi ▸ .initial cfg) (fun _ _ _ hQ hD _ hs => hD.step hQ.1 hQ.2.1 hQ.2.2 hs)

/-- A reader has been helped. -/
def receiving (σ : State Thr Sto) (t : Thr) (S : Sto) : Bool :=
  match σ.stack t with
  | .load S' _ _ (.envelope _ _ _ _) :: _ => S' = S
  | _ => false

end ArcSwap
