import ArcSwap.Interference

namespace ArcSwap
set_option autoImplicit true

variable {Thr Sto : Type} {m m' : Shared Thr Sto} {pre rest : List (Frame Thr Sto)}

theorem StepOk.move (hn : NodeOk w m t (f :: rest)) (hq : Quiet m m')
    (htop : NodeTop m t (f' :: rest)) (he : f'.Entered → Owns m t)
    (hh : f'.HelpInv m) : StepOk w t m m' [f'] rest :=
  .goto hn hq ((hq.undisturbed t).top _ htop) he (hq.keeps.help hh)

theorem helpNext_slot (h : helpNext n todo v = some (.slot n todo j)) : v % 4 ≠ 2 := by
  intro hv
  rw [helpNext, tagOf_eq, hv] at h
  cases h

theorem Observed.next (h : Observed m n v) (todo : List Thr) :
    helpNext n todo v = some (.slot n todo 0) ∨
      helpNext n todo v = some (.help n todo (.addr v)) ∧ Seen m n v := by
  rcases h with h | h | h
  · subst h
    exact .inl rfl
  · rw [helpNext, tagOf_eq, h]
    exact .inl rfl
  · rw [helpNext, tagOf_eq, h.1]
    exact .inr ⟨rfl, h⟩

theorem Observed.parked (h : Observed m n v) (ptr : Nat) (S : Sto) (todo : List Thr) :
    Frame.Parked ((helpNext n todo v).elim .panic (Frame.payAll ptr S)) := by
  rcases h.next todo with h | ⟨h, _⟩
  · rw [h]
    trivial
  · rw [h]
    trivial

theorem Observed.helpInv (h : Observed m n v) (ptr : Nat) (S : Sto) (todo : List Thr) :
    Frame.HelpInv m ((helpNext n todo v).elim .panic (Frame.payAll ptr S)) := by
  rcases h.next todo with h | ⟨h, hs⟩
  · rw [h]
    trivial
  · rw [h]
    exact hs

theorem Observed.top (h : Observed m n v) (ptr : Nat) (S : Sto) (todo : List Thr)
    (ht : Idle m t ∧ HelpingHolds m t debtNone) :
    NodeTop m t ((helpNext n todo v).elim .panic (Frame.payAll ptr S) :: rest) := by
  rcases h.next todo with h | ⟨h, _⟩
  · rw [h]
    exact ht
  · rw [h]
    exact ht

theorem nextSlot_helpInv (m : Shared Thr Sto) (ptr : Nat) (S : Sto) (n : Thr) (todo : List Thr)
    (j : Fin 9) : (Frame.payAll ptr S (nextSlot n todo j)).HelpInv m := by
  rw [nextSlot]
  split <;> trivial

theorem StepOk.push (hn : NodeOk w m t (f :: rest)) (hq : Quiet m m') (htop : NodeTop m t (g :: f' :: rest)) (hp : f'.Parked)
    (he : ¬ f'.Entered) (hg : ¬ g.Entered) (hh : f'.HelpInv m) (hi : g.HelpInv m) :
    StepOk w t m m' [g, f'] rest :=
  .call hn hq ((hq.undisturbed t).top _ htop) hp (fun h => (h.elim he hg).elim)
    (hq.keeps.help hh) (hq.keeps.help hi)

theorem discardStep_ok (hn : NodeOk w m t (.discard pc :: rest))
    (hs : discardStep m .discard pc = some (m', pre)) : StepOk w t m m' pre rest := by
  have ht : Idle m t ∧ HelpingHolds m t debtNone := hn.top
  cases pc with
  | await => cases hs
  | dec a =>
    simp only [discardStep, Option.some.injEq] at hs
    exact .release (.discard .done) hn ht.1 ht.2 ht trivial False.elim trivial hs
  | done => cases hs

theorem rcuStep_ok (hn : NodeOk w m t (.rcu op S pc :: rest))
    (hs : rcuStep m (.rcu op S) pc = some (m', pre)) : StepOk w t m m' pre rest := by
  have ht : Idle m t ∧ HelpingHolds m t debtNone := hn.top
  cases pc with
  | compare cur prev arg res =>
    simp only [rcuStep] at hs
    split at hs
    · cases hs
      exact .push hn (.refl m) ht trivial id id trivial trivial
    · cases hs
      exact .push hn (.refl m) ht trivial id id trivial trivial
  | release cur ret arg res =>
    cases hs
    exact .push hn (.refl m) ht trivial id id trivial trivial
  | _ => cases hs

variable [DecidableEq Thr]

theorem exchange_undisturbed (hs : Seen m n v) (hc : m.control n = v)
    (hm : mine % 4 = 0) (x : Thr) :
    Undisturbed x m { m.setControl n (mine ||| replacementTag) with
      offered := Function.update m.offered n (some r)
      sent := ⟨n, v, r⟩ :: m.sent } := by
  refine ⟨?_, fun _ => .inl rfl, rfl, rfl, rfl, rfl, rfl, rfl, Iff.rfl, Nat.le_refl _,
    fun _ => Nat.le_refl _⟩
  by_cases hx : x = n
  · subst hx
    refine .inr ⟨hc ▸ hs.1, ?_, ?_⟩
    · simp only [Shared.setControl, Function.update_self, replacementTag_or hm]
      omega
    · simp
  · left
    exact ⟨Function.update_of_ne hx .., Function.update_of_ne hx ..⟩

theorem offer_undisturbed (hx : x ≠ t) :
    Undisturbed x m { m with spaceOffer := Function.update m.spaceOffer t their } :=
  ⟨.inl ⟨rfl, rfl⟩, fun _ => .inl rfl, rfl, rfl, rfl, rfl, Function.update_of_ne hx .., rfl,
    Iff.rfl, Nat.le_refl _, fun _ => Nat.le_refl _⟩

theorem offer_keeps (hi : Idle m t) :
    Keeps m ({ m with spaceOffer := Function.update m.spaceOffer t their } : Shared Thr Sto) where
  seen hs := hs.congr rfl
  control x v hv hc := by
    refine ⟨hc, rfl, rfl, ?_⟩
    by_cases hx : x = t
    · subst hx
      exact (hv.ne_idle hi.1 hc).elim
    · exact Function.update_of_ne hx ..
  calls _ hc := hc

theorem innerStep_ok (hn : NodeOk w m t (.intoInner src g pc :: rest))
    (hs : innerStep m g (.intoInner src g) pc = some (m', pre)) : StepOk w t m m' pre rest := by
  have ht : Idle m t ∧ HelpingHolds m t debtNone := hn.top
  cases pc with
  | start =>
    simp only [innerStep] at hs
    split at hs
    · cases hs
      exact .move hn (.refl m) ht False.elim trivial
    · cases hs
      exact .move hn (.inc m g.ptr) ht False.elim trivial
  | pay d =>
    simp only [innerStep] at hs
    split at hs
    · cases hs
      exact .move hn (.pay m d) ht False.elim trivial
    · cases hs
      exact .move hn (.refl m) ht False.elim trivial
  | dec =>
    simp only [innerStep, Option.some.injEq] at hs
    exact .release (.intoInner src g .done) hn ht.1 ht.2 ht trivial False.elim trivial hs
  | done => cases hs

theorem dropStep_ok (hn : NodeOk w m t (.guardDrop g pc :: rest))
    (hs : dropStep m g (.guardDrop g) pc = some (m', pre)) : StepOk w t m m' pre rest := by
  have ht : Idle m t ∧ HelpingHolds m t debtNone := hn.top
  cases pc with
  | start =>
    simp only [dropStep] at hs
    split at hs
    · cases hs
      exact .move hn (.refl m) ht False.elim trivial
    · split at hs
      · cases hs
        exact .move hn (.pay m _) ht False.elim trivial
      · cases hs
        exact .move hn (.refl m) ht False.elim trivial
  | dec =>
    simp only [dropStep, Option.some.injEq] at hs
    exact .release (.guardDrop g .done) hn ht.1 ht.2 ht trivial False.elim trivial hs
  | done => cases hs

variable [DecidableEq Sto]

theorem exchange_keeps (hm : mine % 4 = 0) :
    Keeps m ({ m.setControl n (mine ||| replacementTag) with
      offered := Function.update m.offered n (some r)
      sent := ⟨n, v, r⟩ :: m.sent } : Shared Thr Sto) where
  seen hs := hs.congr rfl
  control x v hv hc := by
    by_cases hx : x = n
    · subst hx
      have h1 := hv.1
      simp only [Shared.setControl, Function.update_self, replacementTag_or hm] at hc
      omega
    · refine ⟨?_, rfl, rfl, rfl⟩
      rw [← hc]
      exact (Function.update_of_ne hx ..).symm
  calls _ hc := hc

theorem helpStep_ok (hn : NodeOk w m t (.payAll ptr S (.help n todo h) :: rest))
    (hw : ∀ n, Watched m n) (hh : h.Inv m n S)
    (hs : helpStep t m S (.payAll ptr S) n todo h = some (m', pre)) : StepOk w t m m' pre rest := by
  have ht : Idle m t ∧ HelpingHolds m t debtNone := hn.top
  have hl : Owns m t := hn.entered _ (List.mem_cons_self ..) trivial
  have ho := (hw n).observed
  cases h with
  | load =>
    simp only [helpStep, hl.localNode ht.1.fresh, if_true] at hs
    cases hs
    exact .move hn (.refl m) (ho.top ptr S todo ht) (fun _ => hl) (ho.helpInv ptr S todo)
  | addr v =>
    simp only [helpStep] at hs
    split at hs
    · rename_i ha
      cases hs
      have hq := Quiet.tick m
      apply StepOk.call hn hq ?_ ?_ (fun _ => hl) ?_ ?_
      · exact ⟨(hq.undisturbed t).idle ht.1, (hq.undisturbed t).holds ht.2⟩
      · trivial
      · refine ⟨hh, ?_⟩
        intro hc
        obtain ⟨S', ha', _, _, _, htime, hver⟩ := (hw n).opened (hc ▸ hh.1)
        have he := Option.some.inj (ha.symm.trans ha')
        subst he
        exact ⟨ha, htime, hver⟩
      · trivial
    · rename_i ha
      cases hs
      exact .move hn (.refl m) ht (fun _ => hl) ⟨hh, fun _ => ha⟩
  | recheck v =>
    simp only [helpStep] at hs
    cases hs
    split
    · exact .move hn (.refl m) ht (fun _ => hl) trivial
    · exact .move hn (.refl m) (ho.top ptr S todo ht) (fun _ => hl) (ho.helpInv ptr S todo)
  | await v since => cases hs
  | theirSpace v since r =>
    simp only [helpStep] at hs
    cases hs
    exact .move hn (.refl m) ht (fun _ => hl) ⟨hh, fun _ => rfl, (hw n).space⟩
  | mySpace v since r their =>
    simp only [helpStep] at hs
    cases hs
    exact .move hn (.refl m) ht (fun _ => hl) ⟨hh.1, hh.2, (hw t).space⟩
  | write v since r their mine =>
    simp only [helpStep, tagOf_eq, hh.2.2, if_true] at hs
    cases hs
    have hu : ∀ x, Undisturbed x m { m with handover := Function.update m.handover mine r } :=
      fun x => ⟨.inl ⟨rfl, rfl⟩, fun _ => .inl rfl, rfl, rfl, rfl, rfl, rfl, rfl, Iff.rfl,
        Nat.le_refl _, fun _ => Nat.le_refl _⟩
    have hk : Keeps m { m with handover := Function.update m.handover mine r } :=
      ⟨fun hs => hs.congr rfl, fun _ _ _ hc => ⟨hc, rfl, rfl, rfl⟩, fun _ hc => hc⟩
    refine ⟨fun x _ => hu x, hk, ?_, ?_⟩
    · exact hn.replace (hu t) ⟨(hu t).idle ht.1, (hu t).holds ht.2⟩ hn.parked (fun _ _ _ => hl)
    · intro f hf
      rw [List.mem_singleton.1 hf]
      exact hk.helpPc (.exchange v since r their mine) hh
  | exchange v since r their mine =>
    simp only [helpStep] at hs
    split at hs
    · rename_i hc
      cases hs
      have hu := fun x => exchange_undisturbed (r := r) hh.1.seen hc hh.2.2 x
      refine ⟨fun x _ => hu x, exchange_keeps hh.2.2, ?_, ?_⟩
      · exact hn.replace (hu t) ⟨(hu t).idle ht.1, (hu t).holds ht.2⟩ hn.parked (fun _ _ _ => hl)
      · intro f hf
        rw [List.mem_singleton.1 hf]
        exact hh.2.1.2
    · cases hs
      exact .move hn (.refl m) ht (fun _ => hl) ho
  | offer their =>
    simp only [helpStep] at hs
    cases hs
    refine ⟨fun x hx => offer_undisturbed hx, offer_keeps ht.1, ?_, ?_⟩
    · refine { hn with entered := ?_, space := ?_, top := ⟨⟨ht.1.1, ht.1.2, ht.1.3⟩, ht.2⟩ }
      · intro f _ _
        exact hl
      · show Function.update m.spaceOffer t their t % 4 = 0
        rw [Function.update_self]
        exact hh
    · intro f hf
      rw [List.mem_singleton.1 hf]
      trivial
  | drop v r =>
    simp only [helpStep, Option.some.injEq] at hs
    exact .release _ hn ht.1 ht.2 (Observed.top hh ptr S todo ht) (Observed.parked hh ptr S todo)
      (fun _ => hl) (Observed.helpInv hh ptr S todo) hs

theorem payStep_ok (hn : NodeOk w m t (.payAll ptr S pc :: rest)) (hw : ∀ n, Watched m n)
    (hh : (Frame.payAll ptr S pc).HelpInv m)
    (hs : payStep t m ptr S (.payAll ptr S) pc = some (m', pre)) : StepOk w t m m' pre rest := by
  have ht : Idle m t ∧ HelpingHolds m t debtNone := hn.top
  have hl : pc ≠ .start → Owns m t := by
    intro he
    apply hn.entered _ (List.mem_cons_self ..)
    cases pc <;> trivial
  cases pc with
  | start =>
    simp only [payStep] at hs
    split at hs
    · rename_i hl
      cases hs
      exact .move hn (.inc m ptr) ht (fun _ => .inl hl) trivial
    · cases hs
  | head =>
    cases hs
    exact .move hn (.refl m) ht (fun _ => hl (by simp)) trivial
  | next todo =>
    cases todo with
    | nil =>
      cases hs
      exact .move hn (.refl m) ht (fun _ => hl (by simp)) trivial
    | cons n todo =>
      cases hs
      exact .move hn (.writers m n _) ht (fun _ => hl (by simp)) trivial
  | help n todo h => exact helpStep_ok hn hw hh hs
  | slot n todo j =>
    simp only [payStep] at hs
    split at hs
    · cases hs
      exact .move hn (.pay m (n, j)) ht (fun _ => hl (by simp)) trivial
    · cases hs
      exact .move hn (.refl m) ht (fun _ => hl (by simp)) (nextSlot_helpInv ..)
  | inc n todo j =>
    cases hs
    exact .move hn (.inc m ptr) ht (fun _ => hl (by simp)) (nextSlot_helpInv ..)
  | release n todo =>
    cases hs
    exact .move hn (.writers m n _) ht (fun _ => hl (by simp)) trivial
  | dec =>
    simp only [payStep, Option.some.injEq] at hs
    exact .release (.payAll ptr S .done) hn ht.1 ht.2 ht trivial (fun _ => hl (by simp))
      trivial hs
  | done => cases hs

section
omit [DecidableEq Thr]

theorem swapStep_ok (hn : NodeOk w m t (.swap op S new pc :: rest))
    (hs : swapStep m op S new (.swap op S new) pc = some (m', pre)) : StepOk w t m m' pre rest := by
  have ht : Idle m t ∧ HelpingHolds m t debtNone := hn.top
  cases pc with
  | start =>
    simp only [swapStep, Option.map_eq_some_iff] at hs
    obtain ⟨old, _, he⟩ := hs
    cases he
    exact .push hn (.setStorage m op S _) ht trivial id id trivial trivial
  | await old u => cases hs
  | done old u => cases hs

theorem casStep_ok (hn : NodeOk w m t (.cas op S current new dst pc :: rest))
    (hs : casStep m spurious op S current new dst (.cas op S current new dst) pc = some (m', pre)) :
    StepOk w t m m' pre rest := by
  have ht : Idle m t ∧ HelpingHolds m t debtNone := hn.top
  cases pc with
  | retry =>
    cases hs
    exact .push hn (.tick m) ht trivial id id trivial trivial
  | exchange old =>
    simp only [casStep, Option.map_eq_some_iff] at hs
    obtain ⟨ptr, _, he⟩ := hs
    split at he
    · cases he
      exact .push hn (.setStorage m op S _) ht trivial id id trivial trivial
    · cases he
      exact .push hn (.refl m) ht trivial id id trivial trivial
  | dec old u =>
    simp only [casStep, Option.some.injEq] at hs
    exact .release (.cas op S current new dst (.done old (some u))) hn ht.1 ht.2 ht trivial
      False.elim trivial hs
  | dropNew old =>
    simp only [casStep, Option.some.injEq] at hs
    exact .release (.cas op S current new dst (.done old none)) hn ht.1 ht.2 ht trivial
      False.elim trivial hs
  | load => cases hs
  | pay old u => cases hs
  | drop => cases hs
  | done old u => cases hs

end

end ArcSwap
