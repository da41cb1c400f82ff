import ArcSwap.Interference

namespace ArcSwap
set_option autoImplicit true

variable {Thr Sto : Type} {m m' : Shared Thr Sto} {rest pre : List (Frame Thr Sto)}

theorem NodeOk.owns_of_load (hn : NodeOk w m t (.load S since full pc :: rest))
    (he : pc ≠ .enter) : Owns m t := by
  refine hn.entered _ (List.mem_cons_self ..) ?_
  cases pc with
  | enter => exact he rfl
  | _ => trivial

theorem StepOk.load (hn : NodeOk w m t (.load S since full pc :: rest)) (hq : Quiet m m')
    (he : pc ≠ .enter) (htop : LoadPc.NodeInv m' t S pc') :
    StepOk w t m m' [.load S since full pc'] rest :=
  .goto hn hq htop (fun _ => hn.owns_of_load he) trivial

theorem discardStep_own (hn : NodeOk w m t (.load S since full pc :: rest))
    (hpc : pc ≠ .enter) (ho : Own t m m') (ht : Open m t S 2) (hh : HelpingHolds m t debtNone)
    (hcontrol : m'.control t = m.control t) (hoffered : m'.offered t = m.offered t)
    (hdebt : m'.debt = m.debt) (haddr : m'.activeAddr t = m.activeAddr t)
    (hgen : m'.generation t = m.generation t) (hpub : m'.published t = m.published t)
    (hat : m'.publishedAt t = m.publishedAt t) (hspace : m'.spaceOffer t = m.spaceOffer t)
    (htop : Open m' t S 2 → HelpingHolds m' t debtNone → NodeTop m' t (f' :: rest))
    (hf : f'.HelpInv m') : StepOk w t m m' [f'] rest := by
  have hopen : Open m' t S 2 := by
    refine ⟨haddr.trans ht.1, hpub.trans ht.2.1, rfl, ?_, ?_, ?_⟩
    · rw [hcontrol, hoffered]
      exact ht.2.2.2.1
    · rw [hat]
      exact Nat.lt_of_lt_of_le ht.2.2.2.2.1 ho.clock
    · rw [hat, ho.log]
      exact ht.2.2.2.2.2
  refine StepOk.own hn ho (hn.owns_of_load hpc) (.inr hopen.2.1) ?_ ?_ ?_ ?_ hf
  · apply ho.keeps (fun hs => hs.congr hpub)
    intro v _ hc
    exact ⟨hcontrol ▸ hc, haddr, hat, hspace⟩
  · rw [hgen]
    exact hn.generation
  · rw [hspace]
    exact hn.space
  · apply htop hopen
    rw [HelpingHolds, hdebt]
    exact hh

variable [DecidableEq Thr]

theorem take_ok (hn : NodeOk w m t (.load S since full (.take p e d) :: rest)) :
    StepOk w t m { m.setDebt d p with offset := Function.update m.offset t (d.2 + 1) }
      [.load S since full (.confirm p e d)] rest := by
  have hl := hn.owns_of_load (by simp)
  obtain ⟨hi, hh, hd, hj, _⟩ :=
    show LoadPc.NodeInv m t S (.take p e d) from hn.top
  have ho : Own t m { m.setDebt d p with offset := Function.update m.offset t (d.2 + 1) } := by
    refine ⟨fun _ _ => rfl, fun _ _ => rfl, ?_, fun _ _ => rfl, fun _ _ => rfl, fun _ _ => rfl,
      fun _ _ => rfl, fun _ _ => rfl, fun _ _ => rfl, rfl, Nat.le_refl _, rfl, rfl⟩
    intro n j hne
    apply Function.update_of_ne
    rintro rfl
    exact hne hd
  refine StepOk.own hn ho hl hl ?_ hn.generation hn.space ?_ trivial
  · exact ho.keeps (fun hs => hs.congr rfl) (fun v _ hc => ⟨hc, rfl, rfl, rfl⟩)
  · refine ⟨⟨hi.1, hi.2, hi.3⟩, ?_, hd, hj, .inr (Function.update_self ..)⟩
    have he : helpingSlot t ≠ d := by
      rintro rfl
      exact hj rfl
    show Function.update m.debt d p (helpingSlot t) = debtNone ∨
      Function.update m.debt d p (helpingSlot t) = debtNone
    rw [Function.update_of_ne he]
    exact hh

theorem setAddr_ok (hn : NodeOk w m t (.load S since full .setAddr :: rest)) :
    StepOk w t m { m with
        generation := Function.update m.generation t (nextGeneration w (m.generation t))
        activeAddr := Function.update m.activeAddr t (some S) }
      [.load S since full (.setControl (nextGeneration w (m.generation t) ||| genTag)
        (nextGeneration w (m.generation t) = 0))] rest := by
  have hl := hn.owns_of_load (by simp)
  obtain ⟨hi, hh⟩ := show LoadPc.NodeInv m t S .setAddr from hn.top
  obtain ⟨hg, hlt⟩ := hn.generation
  have hp := hi.fresh
  have hnext := nextGeneration_cases hg hlt
  have hg4 : nextGeneration w (m.generation t) % 4 = 0 := by omega
  have hlt' := nextGeneration_lt w (m.generation t)
  rw [genTag_or hg4]
  generalize nextGeneration w (m.generation t) = gen at *
  generalize hm : ({ m with
    generation := Function.update m.generation t gen
    activeAddr := Function.update m.activeAddr t (some S) } : Shared Thr Sto) = m'
  have hgen : m'.generation t = gen := by
    subst hm
    exact Function.update_self ..
  have hctl : m'.control = m.control := by
    subst hm
    rfl
  have hpub : m'.published = m.published := by
    subst hm
    rfl
  have ho : Own t m m' := by
    subst hm
    exact ⟨fun _ _ => rfl, fun _ _ => rfl, fun _ _ _ => rfl,
      fun _ hne => Function.update_of_ne hne .., fun _ hne => Function.update_of_ne hne ..,
      fun _ _ => rfl, fun _ _ => rfl, fun _ _ => rfl, fun _ _ => rfl, rfl, Nat.le_refl _, rfl, rfl⟩
  refine StepOk.own hn ho hl ?_ ?_ ?_ ?_ ?_ trivial
  · subst hm
    exact hl
  · apply ho.keeps (fun hs => hs.congr (congrFun hpub t))
    intro v hv hc
    rw [hctl] at hc
    exact (hv.ne_idle hi.control hc).elim
  · rw [hgen]
    exact ⟨hg4, hlt'⟩
  · subst hm
    exact hn.space
  · refine ⟨?_, ?_, ?_, ?_, ?_, ?_, ?_⟩
    · subst hm
      exact ⟨hi.control, hi.offered⟩
    · subst hm
      exact hh
    · subst hm
      exact Function.update_self ..
    · rw [hpub]
      exact hp.1
    · rw [hpub]
      have := hp.2
      omega
    · rw [hgen]
    · simp

theorem setControl_ok (hn : NodeOk w m t (.load S since full (.setControl g b) :: rest)) :
    StepOk w t m { m.setControl t g with
        published := Function.update m.published t g
        publishedAt := Function.update m.publishedAt t (m.stamp S)
        clock := m.clock + 1 }
      [.load S since full (if b then .reserve g else .candidate g)] rest := by
  have hl := hn.owns_of_load (by simp)
  obtain ⟨hi, hh, ha, hp, hlt, hg, rfl⟩ :=
    show LoadPc.NodeInv m t S (.setControl g b) from hn.top
  have hloc : m.localNode t = true := hl.resolve_right hp
  generalize hm : ({ m.setControl t g with
    published := Function.update m.published t g
    publishedAt := Function.update m.publishedAt t (m.stamp S)
    clock := m.clock + 1 } : Shared Thr Sto) = m'
  have hgen : m'.generation = m.generation := by
    subst hm
    rfl
  have hctl : m'.control t = g := by
    subst hm
    exact Function.update_self ..
  have hpub : m'.published t = g := by
    subst hm
    exact Function.update_self ..
  have hat : m'.publishedAt t = m.stamp S := by
    subst hm
    exact Function.update_self ..
  have ho : Own t m m' := by
    subst hm
    exact ⟨fun _ hne => Function.update_of_ne hne .., fun _ _ => rfl, fun _ _ _ => rfl,
      fun _ _ => rfl, fun _ _ => rfl,
      fun _ hne => Function.update_of_ne hne .., fun _ hne => Function.update_of_ne hne ..,
      fun _ _ => rfl, fun _ _ => rfl, rfl, Nat.le_succ _, rfl, rfl⟩
  have hopen : Open m' t S g := by
    refine ⟨?_, hpub, ?_, .inl ⟨hctl, ?_⟩, ?_, ?_⟩
    · subst hm
      exact ha
    · have := hn.generation.1
      omega
    · subst hm
      exact hi.2
    · rw [hat]
      subst hm
      exact Nat.lt_succ_self _
    · rw [hat, ho.log]
      exact Nat.le_refl _
  have hh' : HelpingHolds m' t debtNone := by
    subst hm
    exact hh
  refine StepOk.own hn ho hl ?_ ?_ ?_ ?_ ?_ trivial
  · subst hm
    exact .inl hloc
  · have hlater : ∀ {v}, Seen m t v → v ≠ g ∧ NotAfter v g := by
      rintro v ⟨_, hv⟩
      rcases hv with hv | ⟨hv, hv2⟩
      · exact absurd hv hp
      · rcases hlt with rfl | hlt
        · exact ⟨hv2, .inl rfl⟩
        · exact ⟨by omega, .inr ⟨by omega, hv2⟩⟩
    apply ho.keeps
    · intro v hs
      exact ⟨hs.1, hpub ▸ (hlater hs).2⟩
    · intro v hv hc
      exact absurd (hc.symm.trans hctl) (hlater hv).1
  · rw [hgen]
    exact hn.generation
  · subst hm
    exact hn.space
  · by_cases hg2 : g = 2
    · simp only [hg2, decide_true, if_true]
      exact ⟨hg2 ▸ hopen, hh', rfl⟩
    · simp only [hg2, decide_false, Bool.false_eq_true, if_false]
      refine ⟨hopen, hh', fun _ => ⟨hpub ▸ hg2, ?_⟩⟩
      rw [hpub, hgen]
      omega

theorem setSlot_ok (hn : NodeOk w m t (.load S since full (.setSlot g c) :: rest)) :
    StepOk w t m (m.setDebt (helpingSlot t) c) [.load S since full (.setIdle g c)] rest := by
  have hl := hn.owns_of_load (by simp)
  obtain ⟨hopen, _, hf⟩ := show LoadPc.NodeInv m t S (.setSlot g c) from hn.top
  have ho : Own t m (m.setDebt (helpingSlot t) c) := by
    refine ⟨fun _ _ => rfl, fun _ _ => rfl, ?_, fun _ _ => rfl, fun _ _ => rfl, fun _ _ => rfl,
      fun _ _ => rfl, fun _ _ => rfl, fun _ _ => rfl, rfl, Nat.le_refl _, rfl, rfl⟩
    intro n j hne
    apply Function.update_of_ne
    rintro ⟨⟩
    exact hne rfl
  refine StepOk.own hn ho hl hl ?_ hn.generation hn.space ?_ trivial
  · exact ho.keeps (fun hs => hs.congr rfl) (fun v _ hc => ⟨hc, rfl, rfl, rfl⟩)
  · exact ⟨hopen, .inr (Function.update_self ..), hf⟩

theorem setIdle_ok (hn : NodeOk w m t (.load S since full (.setIdle g c) :: rest)) :
    StepOk w t m { m.setControl t idle with offered := Function.update m.offered t none }
      [.load S since full (if m.control t = g then .inc c
        else .envelope g c (clearTag (m.control t)) ((m.offered t).getD 0))] rest := by
  have hl := hn.owns_of_load (by simp)
  obtain ⟨_, hholds, hf⟩ := show LoadPc.NodeInv m t S (.setIdle g c) from hn.top
  generalize hm : ({ m.setControl t idle with
    offered := Function.update m.offered t none } : Shared Thr Sto) = m'
  have hctl : m'.control t = idle := by
    subst hm
    exact Function.update_self ..
  have ho : Own t m m' := by
    subst hm
    exact ⟨fun _ hne => Function.update_of_ne hne .., fun _ hne => Function.update_of_ne hne ..,
      fun _ _ _ => rfl, fun _ _ => rfl, fun _ _ => rfl, fun _ _ => rfl, fun _ _ => rfl,
      fun _ _ => rfl, fun _ _ => rfl, rfl, Nat.le_refl _, rfl, rfl⟩
  have hi : Idle m' t := by
    refine ⟨hctl, ?_, ?_⟩
    · subst hm
      exact Function.update_self ..
    · subst hm
      exact hf
  have hh : HelpingHolds m' t c := by
    subst hm
    exact hholds
  refine StepOk.own hn ho hl ?_ ?_ ?_ ?_ ?_ trivial
  · subst hm
    exact hl
  · apply ho.keeps
    · intro v hs
      refine hs.congr ?_
      subst hm
      rfl
    · intro v hv hc
      exact (hv.ne_idle hctl hc).elim
  · subst hm
    exact hn.generation
  · subst hm
    exact hn.space
  · split
    · exact ⟨hi, hh⟩
    · refine ⟨hi, hh, ?_⟩
      rw [clearTag_eq]
      omega

theorem loadStep_ok (cfg : Config Thr Sto)
    (hn : NodeOk cfg.width m t (.load S since full pc :: rest))
    (hs : loadStep cfg t m S (.load S since full) pc = some (m', pre)) :
    StepOk cfg.width t m m' pre rest := by
  have ht : pc.NodeInv m t S := hn.top
  cases pc with
  | enter =>
    simp only [loadStep] at hs
    split at hs
    · rename_i hl
      cases hs
      refine StepOk.goto hn (.refl m) ?_ (fun _ => .inl hl) trivial
      split <;> exact ht
    · cases hs
  | first =>
    have hl := (hn.owns_of_load (by simp)).localNode ht.1.fresh
    simp only [loadStep, Option.map_eq_some_iff, hl, if_true] at hs
    obtain ⟨ptr, _, he⟩ := hs
    cases he
    exact .load hn (.refl m) (by simp) ht
  | scan p e i =>
    cases hs
    refine StepOk.load hn (.refl m) (by simp) ?_
    split
    · rename_i hd
      refine ⟨ht.1, ht.2, rfl, ?_, hd⟩
      simp only [fastSlot, ne_eq, Fin.ext_iff]
      have := Nat.mod_lt (i + m.offset t) (show 8 > 0 by decide)
      show ¬ (i + m.offset t) % 8 = 8
      omega
    · split <;> exact ht
  | take p e d =>
    cases hs
    exact take_ok hn
  | confirm p e d =>
    simp only [loadStep, Option.map_eq_some_iff] at hs
    obtain ⟨c, _, he⟩ := hs
    cases he
    refine StepOk.load hn (.refl m) (by simp) ?_
    split
    · exact ⟨ht.1, ht.2.1⟩
    · exact ht
  | repay p e d =>
    simp only [loadStep] at hs
    split at hs
    · cases hs
      have hq := (Quiet.pay m d).undisturbed t
      exact .load hn (.pay m d) (by simp) ⟨hq.idle ht.1, hq.holds ht.2.1⟩
    · cases hs
      exact .load hn (.refl m) (by simp) ⟨ht.1, ht.2.1⟩
  | setAddr =>
    have hl := (hn.owns_of_load (by simp)).localNode ht.1.fresh
    simp only [loadStep, hl, if_true] at hs
    cases hs
    exact setAddr_ok hn
  | setControl g discard =>
    cases hs
    exact setControl_ok hn
  | reserve g =>
    cases hs
    obtain ⟨ho, hh, rfl⟩ := ht
    exact .load hn (.writers m t _) (by simp) ⟨ho, hh, rfl⟩
  | cooldown g =>
    cases hs
    obtain ⟨ho, hh, rfl⟩ := ht
    refine discardStep_own hn (by simp) ⟨fun _ _ => rfl, fun _ _ => rfl, fun _ _ _ => rfl,
      fun _ _ => rfl, fun _ _ => rfl, fun _ _ => rfl, fun _ _ => rfl, fun _ _ => rfl,
      fun _ _ => rfl, rfl, Nat.le_refl _, rfl, rfl⟩ ho hh rfl rfl rfl rfl rfl rfl rfl rfl ?_ ?_
    · intro ho' hh'
      split
      · exact ⟨ho', hh', rfl⟩
      · exact ⟨S, ho'⟩
    · split <;> trivial
  | release g =>
    cases hs
    obtain ⟨ho, hh, rfl⟩ := ht
    refine discardStep_own hn (by simp) ⟨fun _ _ => rfl, fun _ _ => rfl, fun _ _ _ => rfl,
      fun _ _ => rfl, fun _ _ => rfl, fun _ _ => rfl, fun _ _ => rfl, fun _ _ => rfl,
      fun _ hne => Function.update_of_ne hne .., rfl, Nat.le_refl _, rfl, rfl⟩ ho hh
      rfl rfl rfl rfl rfl rfl rfl rfl ?_ trivial
    intro ho' hh'
    refine ⟨ho', hh', ?_⟩
    simp
  | candidate g =>
    simp only [loadStep, Option.map_eq_some_iff] at hs
    obtain ⟨c, _, he⟩ := hs
    cases he
    have ho := hn.owns_of_load (by simp)
    refine StepOk.goto hn (.refl m) ?_ (fun _ => ho) ?_
    · split
      · rename_i hl
        exact ⟨ht.1, ht.2.1, ht.2.2 hl⟩
      · rename_i hl
        obtain rfl : g = 2 := ht.1.2.1.symm.trans (ho.resolve_left hl)
        exact ⟨S, ht.1⟩
    · split <;> trivial
  | setSlot g c =>
    cases hs
    exact setSlot_ok hn
  | setIdle g c =>
    cases hs
    exact setIdle_ok hn
  | inc c =>
    cases hs
    have hq := (Quiet.inc m c).undisturbed t
    exact .load hn (.inc m c) (by simp) ⟨hq.idle ht.1, hq.holds ht.2⟩
  | pay c =>
    simp only [loadStep] at hs
    split at hs
    · cases hs
      have hq := (Quiet.pay m (helpingSlot t)).undisturbed t
      exact .load hn (.pay m _) (by simp) ⟨hq.idle ht.1, .inl (Function.update_self ..)⟩
    · rename_i hne
      cases hs
      exact .load hn (.refl m) (by simp) ⟨ht.1, .inl (ht.2.resolve_right hne)⟩
  | dec c =>
    simp only [loadStep, Option.some.injEq] at hs
    exact .release (.load S since full (.done ⟨none, c⟩)) hn ht.1 ht.2 ht trivial
      (fun _ => hn.owns_of_load (by simp)) trivial hs
  | envelope g c space p =>
    cases hs
    have hl := hn.owns_of_load (by simp)
    have ho : Own t m { m with received := ⟨t, g, m.handover space⟩ :: m.received } :=
      ⟨fun _ _ => rfl, fun _ _ => rfl, fun _ _ _ => rfl, fun _ _ => rfl, fun _ _ => rfl,
        fun _ _ => rfl, fun _ _ => rfl, fun _ _ => rfl, fun _ _ => rfl, rfl, Nat.le_refl _, rfl, rfl⟩
    refine StepOk.own hn ho hl hl ?_ hn.generation hn.space ?_ trivial
    · exact ho.keeps (fun hs => hs.congr rfl) (fun v _ hc => ⟨hc, rfl, rfl, rfl⟩)
    · exact ⟨⟨ht.1.1, ht.1.2, ht.1.3⟩, ht.2⟩
  | offer c r space =>
    cases hs
    have hl := hn.owns_of_load (by simp)
    have ho : Own t m { m with spaceOffer := Function.update m.spaceOffer t space } :=
      ⟨fun _ _ => rfl, fun _ _ => rfl, fun _ _ _ => rfl, fun _ _ => rfl, fun _ _ => rfl,
        fun _ _ => rfl, fun _ _ => rfl, fun _ hne => Function.update_of_ne hne ..,
        fun _ _ => rfl, rfl, Nat.le_refl _, rfl, rfl⟩
    refine StepOk.own hn ho hl hl ?_ hn.generation ?_ ?_ trivial
    · apply ho.keeps (fun hs => hs.congr rfl)
      intro v hv hc
      exact (hv.ne_idle ht.1.control hc).elim
    · show Function.update m.spaceOffer t space t % 4 = 0
      rw [Function.update_self]
      exact ht.2.2
    · exact ⟨⟨ht.1.1, ht.1.2, ht.1.3⟩, ht.2.1⟩
  | repayUnused c r =>
    simp only [loadStep] at hs
    split at hs
    · cases hs
      have hq := (Quiet.pay m (helpingSlot t)).undisturbed t
      exact .load hn (.pay m _) (by simp) ⟨hq.idle ht.1, .inl (Function.update_self ..)⟩
    · rename_i hne
      cases hs
      exact .load hn (.refl m) (by simp) ⟨ht.1, .inl (ht.2.resolve_right hne)⟩
  | decUnused c r =>
    simp only [loadStep, Option.some.injEq] at hs
    exact .release (.load S since full (.done ⟨none, r⟩)) hn ht.1 ht.2 ht trivial
      (fun _ => hn.owns_of_load (by simp)) trivial hs
  | done g => cases hs

end ArcSwap
