import ArcSwap.ProtocolRun
import ArcSwap.Concurrent.Trace

namespace ArcSwap
set_option autoImplicit true

variable {Thr Sto : Type} {m m' : Shared Thr Sto} {st' above rest : List (Frame Thr Sto)}

theorem above_unique {f g : Frame Thr Sto} {x y : List (Frame Thr Sto)}
    (h : x ++ f :: rest = y ++ g :: rest) : f = g :=
  (List.cons.inj (List.append_inj_right' h (by simp))).1

theorem Stacked.called_above {f c : Frame Thr Sto} {x : List (Frame Thr Sto)}
    (h : Stacked (x ++ c :: f :: rest)) :
    Called c f :=
  (List.isChain_cons_cons.1 h.called.right_of_append).1

variable [DecidableEq Thr]

abbrev Happened (Thr Sto : Type) := Concurrent.Event (State Thr Sto) (Thr × Action Thr Sto)

/-- The steps that activations make by themselves. -/
def Action.goesOn : Action Thr Sto → Bool
  | .run _ | .ret => true
  | _ => false

/-- The activation with `depth` others below it on the stack of `t` that makes a step. -/
def ownStep (t : Thr) (depth : Nat) (e : Happened Thr Sto) : Option (Frame Thr Sto) :=
  if e.act.1 = t ∧ e.act.2.goesOn = true ∧ (e.pre.stack t).length = depth + 1 then
    (e.pre.stack t).head?
  else none

variable {e : Happened Thr Sto}

theorem ownStep_other (h : e.act.1 ≠ t) (d : Nat) : ownStep t d e = none :=
  if_neg fun hc => h hc.1

theorem ownStep_user (h : e.act.2.goesOn = false) (d : Nat) : ownStep t d e = none :=
  if_neg fun hc => absurd hc.2.1 (by simp [h])

theorem ownStep_length (h : (e.pre.stack t).length ≠ d + 1) : ownStep t d e = none :=
  if_neg fun hc => h hc.2.2

theorem ownStep_top {f : Frame Thr Sto} (ht : e.act.1 = t) (ha : e.act.2.goesOn = true)
    (hst : e.pre.stack t = f :: rest) : ownStep t rest.length e = some f := by
  rw [ownStep, hst, if_pos ⟨ht, ha, rfl⟩]
  rfl

variable [DecidableEq Sto]

theorem threadStep_above {top f : Frame Thr Sto}
    (hs : threadStep cfg t m free (top :: above ++ f :: rest) act = some (m', st')) :
    (∃ above', st' = above' ++ f :: rest) ∨
      ∃ v f', act = .ret ∧ above = [] ∧ top.result = some v ∧ f.resume m v = some f' ∧
        m' = m.recordFor f top ∧ st' = f' :: rest := by
  rw [List.cons_append] at hs
  rcases threadStep_cases hs with ⟨sp, g, below, pre, _, he, _, rfl⟩ | ⟨hact, hs⟩ | ⟨_, _, rfl⟩ |
    ⟨_, hs⟩
  · cases he
    exact .inl ⟨pre ++ above, (List.append_assoc ..).symm⟩
  · obtain ⟨g, v, below, he, hv, ⟨_, rfl, _⟩ | ⟨h, h', below', rfl, hh, rfl, rfl⟩⟩ :=
      retStep_cases hs
    · cases he
      exact .inl ⟨above, rfl⟩
    · cases above with
      | nil =>
        cases he
        exact .inr ⟨v, h', hact, rfl, hv, hh, rfl, rfl⟩
      | cons a above =>
        cases he
        exact .inl ⟨h' :: above, rfl⟩
  · exact .inl ⟨top :: above, rfl⟩
  · generalize hst : top :: (above ++ f :: rest) = st at hs
    cases (userStep_cases hs).2 with
    | stay => exact .inl ⟨top :: above, hst.symm⟩
    | enter =>
      subst hst
      exact .inl ⟨_ :: top :: above, rfl⟩
    | call =>
      subst hst
      exact .inl ⟨_ :: _ :: top :: above, rfl⟩
    | closure =>
      cases hst
      exact .inl ⟨_ :: _ :: above, rfl⟩
    | ret =>
      cases hst
      exact .inl ⟨above, rfl⟩

variable {s s' : State Thr Sto} {cfg : Config Thr Sto}

/-- The activation with `depth` others below it has not returned. -/
def Running (t : Thr) (depth : Nat) (s : State Thr Sto) : Prop := depth < (s.stack t).length

variable [Fintype Thr]

instance (t : Thr) (depth : Nat) (s : State Thr Sto) : Decidable (Running t depth s) :=
  inferInstanceAs (Decidable (_ < _))

theorem State.step_own (hs : State.step cfg (t, act) s = some s') :
    threadStep cfg t s.mem s.free (s.stack t) act = some (s'.mem, s'.stack t) := by
  obtain ⟨m', st', ht, rfl⟩ := State.step_cases hs
  simpa using ht

theorem State.step_other (hs : State.step cfg l s = some s') (hl : l.1 ≠ t) :
    s'.stack t = s.stack t := by
  obtain ⟨m', st', _, rfl⟩ := State.step_cases hs
  exact Function.update_of_ne (Ne.symm hl) ..

end ArcSwap
