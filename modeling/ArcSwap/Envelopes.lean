import ArcSwap.ProtocolRun
import ArcSwap.SpaceStep
import Mathlib.Logic.Equiv.Basic

namespace ArcSwap
set_option autoImplicit true

variable {Thr Sto : Type}

/-- The envelope an activation has taken over and not offered yet. -/
def Frame.space : Frame Thr Sto → Option Nat
  | .load _ _ _ (.envelope _ _ space _) | .load _ _ _ (.offer _ _ space) => some space
  | .payAll _ _ (.help _ _ (.offer their)) => some their
  | _ => none

/-- The envelope of the node `n`: the one lying in its control, the one its thread has taken over,
or else the one its `space_offer` points to. -/
def envelopeOf (m : Shared Thr Sto) (st : List (Frame Thr Sto)) (n : Thr) : Nat :=
  if m.control n % 4 = 1 then clearTag (m.control n)
  else (st.head?.bind Frame.space).getD (m.spaceOffer n)

def State.envelope (σ : State Thr Sto) (n : Thr) : Nat := envelopeOf σ.mem (σ.stack n) n

/-- What an activation knows of the envelope it writes or reads. -/
def Writing (m : Shared Thr Sto) (t : Thr) : List (Frame Thr Sto) → Prop
  | .payAll _ _ (.help _ _ (.write _ _ _ _ mine)) :: _ => mine = m.spaceOffer t
  | .payAll _ _ (.help _ _ (.exchange _ _ r _ mine)) :: _ =>
    mine = m.spaceOffer t ∧ m.handover mine = r
  | .load _ _ _ (.envelope _ _ space p) :: _ => m.handover space = p
  | _ => True

/-- The envelopes are the handovers of the nodes in some order, and the ones in use are intact. -/
structure Envelopes (cfg : Config Thr Sto) (σ : State Thr Sto) : Prop where
  owner : ∃ π : Equiv.Perm Thr, ∀ n, σ.envelope n = cfg.handover (π n)
  writing : ∀ t, Writing σ.mem t (σ.stack t)
  offered : ∀ n, σ.mem.control n % 4 = 1 →
    σ.mem.offered n = some (σ.mem.handover (clearTag (σ.mem.control n)))

theorem Frame.Plain.space {f : Frame Thr Sto} (h : f.Plain) : f.space = none := by
  unfold Frame.space
  split <;> first
    | rfl
    | exact h.elim

theorem Frame.Plain.writing {f : Frame Thr Sto} (h : f.Plain) : Writing m t (f :: rest) := by
  unfold Writing
  split <;> first
    | trivial
    | (rename_i heq; cases heq; exact h.elim)

theorem NodeTop.idle_of_space (h : NodeTop m t st) (hs : st.head?.bind Frame.space = some s) :
    Idle m t := by
  cases st with
  | nil => exact h.1
  | cons f st =>
    cases f with
    | load S since full pc =>
      cases pc with
      | envelope => exact h.1
      | offer => exact h.1
      | _ => cases hs
    | panic => cases hs
    | _ => exact h.1

theorem NodeOk.space_eq_none (h : NodeOk w m t st) (hc : m.control t ≠ idle) :
    st.head?.bind Frame.space = none := by
  cases hs : st.head?.bind Frame.space with
  | none => rfl
  | some s => exact absurd (h.top.idle_of_space hs).1 hc

theorem Writing.congr (h : Writing m t st) (hs : m'.spaceOffer t = m.spaceOffer t)
    (hh : m'.handover = m.handover) : Writing m' t st := by
  unfold Writing
  rw [hs, hh]
  exact h

theorem envelopeOf_congr (hc : m'.control t = m.control t) (hs : m'.spaceOffer t = m.spaceOffer t)
    (hst : st'.head?.bind Frame.space = st.head?.bind Frame.space) :
    envelopeOf m' st' t = envelopeOf m st t := by
  rw [envelopeOf, envelopeOf, hc, hs, hst]

theorem envelopeOf_idle (h : m.control t = idle) :
    envelopeOf m st t = (st.head?.bind Frame.space).getD (m.spaceOffer t) := by
  rw [envelopeOf, h]
  rfl

variable {m m' : Shared Thr Sto} {σ σ' : State Thr Sto}
variable {st st' rest pre : List (Frame Thr Sto)} {cfg : Config Thr Sto}

theorem Envelopes.ne (hE : Envelopes cfg σ) (hn : n ≠ t) : σ.envelope n ≠ σ.envelope t := by
  obtain ⟨π, hπ⟩ := hE.owner
  rw [hπ, hπ]
  intro h
  exact hn (π.injective (cfg.distinct h))

theorem Frame.Parked.plain {f : Frame Thr Sto} (h : f.Parked) : f.Plain := by
  unfold Frame.Plain
  split <;> trivial

theorem Frame.Entry.plain {f : Frame Thr Sto} (h : f.Entry m m') : f.Plain := by
  unfold Frame.Plain
  split <;> trivial

theorem Frame.result_plain {f : Frame Thr Sto} (h : f.result = some v) : f.Plain := by
  unfold Frame.result at h
  split at h <;> trivial

theorem Frame.plain_of_not_entered {f : Frame Thr Sto} (h : ¬ f.Entered) : f.Plain := by
  unfold Frame.Plain
  split <;> first
    | trivial
    | exact h trivial

theorem Quiet.sameSpace (h : Quiet m m') : SameSpace m m' :=
  ⟨h.control, h.spaceOffer, h.handover, h.offered, h.published, h.sent, h.received⟩

theorem head_space (h : ∀ f ∈ st.head?, f.Plain) : st.head?.bind Frame.space = none := by
  cases st with
  | nil => rfl
  | cons f st => exact (h f rfl).space

theorem head_writing (h : ∀ f ∈ st.head?, f.Plain) : Writing m t st := by
  cases st with
  | nil => trivial
  | cons f st => exact (h f rfl).writing

theorem Envelopes.initial (cfg : Config Thr Sto) : Envelopes cfg (State.initial cfg) where
  owner := ⟨Equiv.refl Thr, fun _ => rfl⟩
  writing _ := trivial
  offered n hn := by cases hn

variable [DecidableEq Thr]

theorem Envelopes.keep (hE : Envelopes cfg σ) (hh : m'.handover = σ.mem.handover)
    (hs : ∀ n, n ≠ t → m'.spaceOffer n = σ.mem.spaceOffer n)
    (hc : ∀ n, n ≠ t → m'.control n = σ.mem.control n)
    (he : envelopeOf m' st' t = σ.envelope t) (hw : Writing m' t st')
    (ho : ∀ n, m'.control n % 4 = 1 → m'.offered n = σ.mem.offered n ∧
      m'.control n = σ.mem.control n) :
    Envelopes cfg ⟨m', Function.update σ.stack t st'⟩ where
  owner := by
    obtain ⟨π, hπ⟩ := hE.owner
    refine ⟨π, ?_⟩
    intro n
    rw [← hπ n]
    by_cases hn : n = t
    · subst hn
      simpa [State.envelope] using he
    · simp only [State.envelope, Function.update_of_ne hn]
      exact envelopeOf_congr (hc n hn) (hs n hn) rfl
  writing n := by
    by_cases hn : n = t
    · subst hn
      simpa using hw
    · simp only [Function.update_of_ne hn]
      exact (hE.writing n).congr (hs n hn) hh
  offered n hn := by
    obtain ⟨ho, hc⟩ := ho n hn
    rw [ho, hc, hh]
    exact hE.offered n (hc ▸ hn)

theorem Envelopes.stay (hE : Envelopes cfg σ) (hm : SameSpace σ.mem m')
    (hs : st'.head?.bind Frame.space = (σ.stack t).head?.bind Frame.space)
    (hw : Writing m' t st') : Envelopes cfg ⟨m', Function.update σ.stack t st'⟩ := by
  apply hE.keep hm.handover (fun n _ => congrFun hm.spaceOffer n)
    (fun n _ => congrFun hm.control n)
  · rw [State.envelope, envelopeOf, envelopeOf, hm.control, hm.spaceOffer, hs]
  · exact hw
  · exact fun n _ => ⟨congrFun hm.offered n, congrFun hm.control n⟩

theorem Envelopes.publish (hE : Envelopes cfg σ) (hP : Protocol w σ)
    (hst : σ.stack t = .load S since full (.setControl g b) :: rest) :
    Envelopes cfg ⟨{ σ.mem.setControl t g with
      published := Function.update σ.mem.published t g
      publishedAt := Function.update σ.mem.publishedAt t (σ.mem.stamp S)
      clock := σ.mem.clock + 1 },
      Function.update σ.stack t (.load S since full (if b then .reserve g else .candidate g) :: rest)⟩ := by
  have ht := (hP.node t).top
  rw [hst] at ht
  obtain ⟨hi, _, _, _, _, hg, _⟩ := ht
  have hg4 := (hP.node t).generation.1
  have h2 : g % 4 = 2 := by omega
  refine hE.keep rfl (fun _ _ => rfl) (fun n hn => Function.update_of_ne hn ..) ?_ ?_ ?_
  · rw [State.envelope, envelopeOf_idle hi.1, hst]
    cases b <;> simp [envelopeOf, Shared.setControl, h2, Frame.space]
  · cases b <;> trivial
  · intro n hn
    by_cases hnt : n = t
    · subst hnt
      simp [Shared.setControl, h2] at hn
    · simp [Shared.setControl, hnt]

theorem Envelopes.withdraw (hE : Envelopes cfg σ) (hP : Protocol w σ)
    (hst : σ.stack t = .load S since full (.setIdle g c) :: rest) :
    Envelopes cfg ⟨{ σ.mem.setControl t idle with
        offered := Function.update σ.mem.offered t none },
      Function.update σ.stack t (.load S since full (if σ.mem.control t = g then .inc c
        else .envelope g c (clearTag (σ.mem.control t)) ((σ.mem.offered t).getD 0)) :: rest)⟩ := by
  have ht := (hP.node t).top
  rw [hst] at ht
  obtain ⟨⟨_, _, hg, hc, _⟩, _⟩ := ht
  refine hE.keep rfl (fun _ _ => rfl) (fun n hn => Function.update_of_ne hn ..) ?_ ?_ ?_
  · rw [State.envelope, hst, envelopeOf_idle (Function.update_self ..)]
    rcases hc with ⟨hc, _⟩ | ⟨hc, _⟩
    · simp [envelopeOf, hc, hg, Frame.space, Shared.setControl]
    · have hne : σ.mem.control t ≠ g := by
        rintro rfl
        omega
      simp [envelopeOf, hc, hne, Frame.space]
  · rcases hc with ⟨hc, _⟩ | ⟨hc, hsome⟩
    · rw [if_pos hc]
      trivial
    · have hne : σ.mem.control t ≠ g := by
        rintro rfl
        omega
      rw [if_neg hne]
      simp [Writing, Shared.setControl, hE.offered t hc]
  · intro n hn
    by_cases hnt : n = t
    · subst hnt
      simp [Shared.setControl, idle] at hn
    · simp [Shared.setControl, hnt]

theorem Envelopes.space {space : Nat} (hE : Envelopes cfg σ) (hi : σ.mem.control t = idle)
    (hf : (σ.stack t).head?.bind Frame.space = some space)
    (hs : st'.head?.bind Frame.space = none) (hw : ∀ m', Writing m' t st') :
    Envelopes cfg ⟨{ σ.mem with spaceOffer := Function.update σ.mem.spaceOffer t space },
      Function.update σ.stack t st'⟩ := by
  refine hE.keep rfl (fun n hn => Function.update_of_ne hn ..) (fun _ _ => rfl) ?_ ?_ ?_
  · refine Eq.trans (envelopeOf_idle ?_) ?_
    · exact hi
    rw [State.envelope, envelopeOf_idle hi, hf, hs]
    simp
  · exact hw _
  · exact fun n _ => ⟨rfl, rfl⟩

theorem Envelopes.write (hE : Envelopes cfg σ) (hP : Protocol w σ)
    (hst : σ.stack t = .payAll ptr S (.help n todo (.write v since r their mine)) :: rest) :
    Envelopes cfg ⟨{ σ.mem with handover := Function.update σ.mem.handover mine r },
      Function.update σ.stack t ((if tagOf mine = 0 then
        .payAll ptr S (.help n todo (.exchange v since r their mine)) else .panic) :: rest)⟩ := by
  have hmine := hE.writing t
  have hi : Idle σ.mem t := by
    have ht := (hP.node t).top
    rw [hst] at ht
    exact ht.1
  rw [hst] at hmine
  change mine = σ.mem.spaceOffer t at hmine
  have het : σ.envelope t = mine := by
    rw [State.envelope, envelopeOf_idle hi.1, hst, hmine]
    rfl
  have hne : ∀ x, x ≠ t → σ.envelope x ≠ mine := fun x hx => het ▸ hE.ne hx
  refine ⟨?_, ?_, ?_⟩
  · obtain ⟨π, hπ⟩ := hE.owner
    refine ⟨π, ?_⟩
    intro x
    rw [← hπ x]
    by_cases hx : x = t
    · subst hx
      simp only [State.envelope, Function.update_self]
      refine envelopeOf_congr rfl rfl ?_
      rw [hst]
      split <;> rfl
    · simp only [State.envelope, Function.update_of_ne hx]
      exact envelopeOf_congr rfl rfl rfl
  · intro x
    by_cases hx : x = t
    · subst hx
      simp only [Function.update_self]
      split
      · exact ⟨hmine, Function.update_self ..⟩
      · trivial
    · have hw := hE.writing x
      have hn := hne x hx
      have htop := (hP.node x).top
      simp only [Function.update_of_ne hx]
      rw [State.envelope] at hn
      cases hsx : σ.stack x with
      | nil => trivial
      | cons f rest' =>
        rw [hsx] at hw htop hn
        by_cases hf : f.Plain
        · exact hf.writing
        · unfold Frame.Plain at hf
          split at hf
          · rw [envelopeOf_idle htop.1.1] at hn
            exact (Function.update_of_ne hn ..).trans hw
          · trivial
          · exact hw
          · rw [envelopeOf_idle htop.1.1] at hn
            refine ⟨hw.1, ?_⟩
            rw [← hw.2]
            exact Function.update_of_ne (hw.1 ▸ hn) ..
          · trivial
          · exact absurd trivial hf
  · intro x hx
    have hxt : x ≠ t := by
      rintro rfl
      rw [show σ.mem.control x = idle from hi.1] at hx
      cases hx
    have hn := hne x hxt
    rw [State.envelope, envelopeOf, if_pos hx] at hn
    show σ.mem.offered x = some (Function.update σ.mem.handover mine r _)
    rw [Function.update_of_ne hn]
    exact hE.offered x hx

theorem Envelopes.exchange (hE : Envelopes cfg σ) (hP : Protocol w σ)
    (hst : σ.stack t = .payAll ptr S (.help n todo (.exchange v since r their mine)) :: rest)
    (hv : σ.mem.control n = v) :
    Envelopes cfg ⟨{ σ.mem.setControl n (mine ||| replacementTag) with
        offered := Function.update σ.mem.offered n (some r)
        sent := ⟨n, v, r⟩ :: σ.mem.sent },
      Function.update σ.stack t (.payAll ptr S (.help n todo (.offer their)) :: rest)⟩ := by
  have hi : Idle σ.mem t := by
    have ht := (hP.node t).top
    rw [hst] at ht
    exact ht.1
  obtain ⟨⟨hseen, _, _⟩, ⟨htheir, _⟩, hm4⟩ :=
    show HelpPc.Inv σ.mem n S (.exchange v since r their mine) from
      hP.help t (.payAll ptr S (.help n todo (.exchange v since r their mine))) (by simp [hst])
  obtain ⟨hmine, hwritten⟩ : mine = σ.mem.spaceOffer t ∧ σ.mem.handover mine = r := by
    have hw := hE.writing t
    rwa [hst] at hw
  have hnt : n ≠ t := by
    rintro rfl
    exact hseen.ne_idle hi.1 hv
  have hctl : ∀ x, x ≠ n →
      (σ.mem.setControl n (mine ||| replacementTag)).control x = σ.mem.control x :=
    fun x hx => Function.update_of_ne hx ..
  have hself : (σ.mem.setControl n (mine ||| replacementTag)).control n = mine + 1 := by
    rw [← replacementTag_or hm4]
    exact Function.update_self ..
  have h1 : (mine + 1) % 4 = 1 := by omega
  have hclear : clearTag (mine + 1) = mine := by
    rw [clearTag_eq]
    omega
  have het : σ.envelope t = mine := by
    rw [State.envelope, envelopeOf_idle hi.1, hst, hmine]
    rfl
  have hen : σ.envelope n = their := by
    have hne : σ.mem.control n ≠ idle := fun h => hseen.ne_idle h hv
    rw [htheir hv, State.envelope, envelopeOf, (hP.node n).space_eq_none hne, if_neg]
    · rfl
    · have := hseen.1
      omega
  refine ⟨?_, ?_, ?_⟩
  · obtain ⟨π, hπ⟩ := hE.owner
    refine ⟨(Equiv.swap t n).trans π, ?_⟩
    intro x
    rw [Equiv.trans_apply, ← hπ]
    by_cases hxn : x = n
    · subst hxn
      rw [Equiv.swap_apply_right, het]
      simp only [State.envelope, envelopeOf, hself, h1, hclear, if_true]
    · by_cases hxt : x = t
      · subst hxt
        rw [Equiv.swap_apply_left, hen]
        simp only [State.envelope, Function.update_self]
        exact envelopeOf_idle ((hctl x hxn).trans hi.1)
      · rw [Equiv.swap_apply_of_ne_of_ne hxt hxn]
        simp only [State.envelope, Function.update_of_ne hxt]
        exact envelopeOf_congr (hctl x hxn) rfl rfl
  · intro x
    by_cases hx : x = t
    · subst hx
      simp only [Function.update_self]
      trivial
    · have hw := hE.writing x
      simp only [Function.update_of_ne hx]
      exact hw
  · intro x hx
    by_cases hxn : x = n
    · subst hxn
      show Function.update σ.mem.offered x (some r) x = some (σ.mem.handover (clearTag _))
      rw [Function.update_self, hself, hclear, hwritten]
    · show Function.update σ.mem.offered n (some r) x = some (σ.mem.handover (clearTag _))
      rw [Function.update_of_ne hxn, hctl x hxn]
      apply hE.offered
      rw [← hctl x hxn]
      exact hx

theorem Envelopes.run {f : Frame Thr Sto} (hE : Envelopes cfg σ) (hP : Protocol w σ)
    (hst : σ.stack t = f :: rest) (hs : SpaceStep t σ.mem f m' pre) :
    Envelopes cfg ⟨m', Function.update σ.stack t (pre ++ rest)⟩ := by
  have hw := hE.writing t
  have ht := (hP.node t).top
  rw [hst] at hw ht
  cases hs with
  | other hq hf hp hn =>
    cases pre with
    | nil => exact absurd rfl hn
    | cons g pre =>
      have hg : g.Plain := hp g rfl
      apply hE.stay hq
      · rw [hst]
        exact hg.space.trans hf.space.symm
      · exact hg.writing
  | publish => exact hE.publish hP hst
  | withdraw => exact hE.withdraw hP hst
  | receive =>
    refine hE.keep rfl (fun _ _ => rfl) (fun _ _ => rfl) ?_ ?_ ?_
    · rw [State.envelope, hst]
      rfl
    · trivial
    · exact fun n _ => ⟨rfl, rfl⟩
  | keep => exact hE.space ht.1.1 (hst ▸ rfl) rfl (fun _ => trivial)
  | mySpace => exact hE.stay (.refl _) (hst ▸ rfl) rfl
  | write => exact hE.write hP hst
  | exchange hc => exact hE.exchange hP hst hc
  | miss hc => exact hE.stay (.refl _) (hst ▸ rfl) trivial
  | give => exact hE.space ht.1.1 (hst ▸ rfl) rfl (fun _ => trivial)

variable [DecidableEq Sto]

theorem threadStep_space (hn : NodeOk w m t st)
    (hs : threadStep cfg t m free st act = some (m', st')) :
    (∃ f rest pre, st = f :: rest ∧ SpaceStep t m f m' pre ∧ st' = pre ++ rest) ∨
    (SameSpace m m' ∧ (∀ f ∈ st.head?, f.Plain) ∧ ∀ f ∈ st'.head?, f.Plain) := by
  rcases threadStep_cases hs with ⟨sp, f, rest, pre, rfl, rfl, hf, rfl⟩ | ⟨rfl, hr⟩ |
    ⟨rfl, hc, rfl⟩ | ⟨hu, hr⟩
  · exact .inl ⟨f, rest, pre, rfl, Frame.step_space hf, rfl⟩
  · right
    obtain ⟨f, v, rest, rfl, hv, ⟨rfl, rfl, _⟩ | ⟨g, g', rest', rfl, hg, rfl, rfl⟩⟩ :=
      retStep_cases hr
    · refine ⟨((Quiet.record m f).give v).sameSpace, by simpa using Frame.result_plain hv, ?_⟩
      intro g hg
      exact (hn.parked g (List.mem_of_mem_head? hg)).plain
    · refine ⟨(Quiet.recordFor m g f).sameSpace, by simpa using Frame.result_plain hv, ?_⟩
      simpa using (Frame.resume_ok hg).1.plain
  · right
    rw [claimStep] at hc
    split at hc
    · cases hc
    · rename_i ht
      cases hc
      have hp : ∀ f ∈ st'.head?, f.Plain := by
        intro f hf
        apply Frame.plain_of_not_entered
        intro he
        exact ht (hn.listed.1 (hn.entered f (List.mem_of_mem_head? hf) he))
      exact ⟨{ SameSpace.refl m with }, hp, hp⟩
  · right
    obtain ⟨hq, hm⟩ := userStep_cases hr
    have hp := (hn.calm_of_user hu).2
    have hh : ∀ f ∈ st.head?, f.Plain := fun f hf => (hp f (List.mem_of_mem_head? hf)).plain
    refine ⟨hq.sameSpace, hh, ?_⟩
    cases hm with
    | stay => exact hh
    | enter hf => simpa using hf.plain
    | call hf hg => simpa using hf.plain
    | closure => simp [Frame.Plain]
    | ret =>
      intro g hg
      exact (hp g (List.mem_cons_of_mem _ (List.mem_of_mem_head? hg))).plain

variable [Fintype Thr]

theorem Envelopes.step (hE : Envelopes cfg σ) (hP : Protocol cfg.width σ)
    (hs : State.step cfg l σ = some σ') : Envelopes cfg σ' := by
  obtain ⟨m', st', ht, rfl⟩ := State.step_cases hs
  rcases threadStep_space (hP.node l.1) ht with ⟨f, rest, pre, hst, hf, rfl⟩ | ⟨hm, hh, hh'⟩
  · exact hE.run hP hst hf
  · exact hE.stay hm ((head_space hh').trans (head_space hh).symm) (head_writing hh')

theorem Envelopes.reach (h : (machine cfg).Reach ok σ) : Envelopes cfg σ :=
  h.invariant_of (fun _ hr => Protocol.reach hr) (fun _ hi => hi ▸ .initial cfg)
    (fun _ _ _ hP hE _ hs => hE.step hP hs)

end ArcSwap
