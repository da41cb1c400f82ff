import ArcSwap.Sequential.Model
import ArcSwap.Concurrent.Account

namespace ArcSwap.Sequential
set_option autoImplicit true

open Concurrent (Account unit)

variable {K Thr Sto : Type}

def held (r : Ref K) : Guard K Thr := ⟨r, none⟩

def Proper (r : Ref K) : Prop := r.2 ≠ 0 ∧ r.2 ≠ debtNone

variable {m m' : Mem K Thr Sto} {E E' : List (Guard K Thr)} {c c' : Cell K Sto} {r : Ref K}
  {d : Debt Thr}
variable [DecidableEq K]

theorem inc_count (h : Heap K Sto) (r r' : Ref K) :
    (h.inc r).count r' = h.count r' + if r' = r ∧ r.2 ≠ 0 then 1 else 0 := by
  by_cases h0 : r.2 = 0
  · simp only [Heap.inc, h0, if_true, ne_eq, not_true, and_false, if_false, Nat.add_zero]
  · by_cases hr : r' = r <;>
      simp only [Heap.inc, h0, hr, if_false, if_true, Function.update_apply, ne_eq,
        not_false_eq_true, and_true, Nat.add_zero]

theorem dec_count (h : Heap K Sto) (r r' : Ref K) :
    (h.dec r).count r' = h.count r' - if r' = r ∧ r.2 ≠ 0 then 1 else 0 := by
  by_cases h0 : r.2 = 0
  · simp only [Heap.dec, h0, if_true, ne_eq, not_true, and_false, if_false, Nat.sub_zero]
  · by_cases hr : r' = r <;>
      simp only [Heap.dec, h0, hr, if_false, if_true, Function.update_apply, ne_eq,
        not_false_eq_true, and_true, Nat.sub_zero]

/-- What `inc` and `dec` leave alone. -/
structure Heap.Counts (h h' : Heap K Sto) : Prop where
  storage : h'.storage = h.storage
  handles : h'.handles = h.handles

theorem Heap.inc_counts (h : Heap K Sto) (r : Ref K) : h.Counts (h.inc r) := by
  rw [Heap.inc]
  split <;> exact ⟨rfl, rfl⟩

theorem Heap.dec_counts (h : Heap K Sto) (r : Ref K) : h.Counts (h.dec r) := by
  rw [Heap.dec]
  split <;> exact ⟨rfl, rfl⟩

def Mem.lent (m : Mem K Thr Sto) (d : Debt Thr) (r : Ref K) : Bool :=
  m.debt d = r.2 ∧ m.lender d = some r.1

theorem Mem.lent_of_ne (hd : m.debt d ≠ r.2) : m.lent d r = false := by
  simp only [Mem.lent, hd, false_and, decide_false]

variable [DecidableEq Thr]

theorem count_singleton (r r' : Ref K) (o o' : Option (Debt Thr)) :
    [(⟨r, o⟩ : Guard K Thr)].count ⟨r', o'⟩ = if r' = r then unit o' o else 0 := by
  by_cases hr : r' = r
  · subst hr
    by_cases ho : o' = o
    · subst ho
      simp [unit]
    · rw [if_pos rfl, unit, if_neg ho, List.count_eq_zero]
      simp [ho]
  · rw [if_neg hr, List.count_eq_zero]
    simp [hr]

theorem Mem.lent_lend (m : Mem K Thr Sto) (d : Debt Thr) (r r' : Ref K) (x : Debt Thr) :
    (m.lend d r).lent x r' = if x = d then decide (r' = r) else m.lent x r' := by
  by_cases hx : x = d
  · subst hx
    simp only [Mem.lent, Mem.lend, Function.update_self, if_true, Option.some.injEq]
    apply decide_eq_decide.2
    rw [Prod.ext_iff, and_comm, eq_comm (a := r.1), eq_comm (a := r.2)]
  · simp only [Mem.lent, Mem.lend, Function.update_of_ne hx, if_neg hx]

theorem Mem.lent_clear (m : Mem K Thr Sto) (d : Debt Thr) (hr : Proper r) (x : Debt Thr) :
    (m.clear d).lent x r = if x = d then false else m.lent x r := by
  by_cases hx : x = d
  · subst hx
    simp only [if_true]
    apply Mem.lent_of_ne
    simp only [Mem.clear, Function.update_self]
    exact fun h => hr.2 h.symm
  · simp only [Mem.lent, Mem.clear, Function.update_of_ne hx, if_neg hx]

variable [Fintype Sto]

def Heap.stored (h : Heap K Sto) (r : Ref K) : Nat :=
  (Finset.univ.filter fun S => h.storage S = some r).card

/-- How many references there are, counted ones or ones recorded on a slot. `E` are those that an
operation has in its hands. -/
def Mem.refs (m : Mem K Thr Sto) (E : List (Guard K Thr)) (g : Guard K Thr) : Nat :=
  (m.guards ++ E).count g + if g.debt = none then m.handles g.ref + m.stored g.ref else 0

def Mem.account (m : Mem K Thr Sto) (E : List (Guard K Thr)) (r : Ref K) : Account (Debt Thr) where
  count := m.count r
  slot d := m.lent d r
  refs o := m.refs E ⟨r, o⟩

theorem Mem.refs_cons (m : Mem K Thr Sto) (g : Guard K Thr) (E : List (Guard K Thr))
    (x : Guard K Thr) : m.refs (g :: E) x = m.refs E x + [g].count x := by
  simp only [Mem.refs, List.count_append, List.count_cons, List.count_nil]
  omega

theorem Mem.refs_congr (hg : m'.guards = m.guards) (hh : m'.handles = m.handles)
    (hs : m'.storage = m.storage) (E : List (Guard K Thr)) : m'.refs E = m.refs E := by
  funext g
  simp only [Mem.refs, Heap.stored, hg, hh, hs]

theorem Mem.refs_perm (h : E.Perm E') (m : Mem K Thr Sto) : m.refs E' = m.refs E := by
  funext g
  simp only [Mem.refs, List.count_append, h.count_eq]

theorem Mem.refs_map (m : Mem K Thr Sto) {f : Heap K Sto → Heap K Sto}
    (hf : m.toHeap.Counts (f m.toHeap)) (E : List (Guard K Thr)) : (m.map f).refs E = m.refs E := by
  have hg : (m.map f).guards = m.guards := rfl
  exact Mem.refs_congr hg hf.handles hf.storage E

variable [Fintype Thr]

/-- The accounts balance, and the cell counts all references. -/
structure Accounts (m : Mem K Thr Sto) (E : List (Guard K Thr)) (c : Cell K Sto) : Prop where
  balanced : ∀ r, Proper r → (m.account E r).Balanced
  total : ∀ r, Proper r → c.count r = ∑ o, m.refs E ⟨r, o⟩

theorem sum_singleton (r r' : Ref K) (o : Option (Debt Thr)) :
    ∑ o', [(⟨r, o⟩ : Guard K Thr)].count ⟨r', o'⟩ = if r' = r then 1 else 0 := by
  simp only [count_singleton]
  split
  · exact Concurrent.sum_unit o
  · exact Finset.sum_const_zero

theorem Accounts.same (h : Accounts m E c) (hc : m'.count = m.count)
    (hl : ∀ d r, Proper r → m'.lent d r = m.lent d r)
    (hr : ∀ r o, Proper r → m'.refs E' ⟨r, o⟩ = m.refs E ⟨r, o⟩)
    (hc' : ∀ r, Proper r → c'.count r = c.count r) : Accounts m' E' c' := by
  constructor
  · intro r hp
    refine Account.Move.balanced (.skip ?_ ?_ ?_) (h.balanced r hp)
    · exact congrFun hc r
    · exact fun d => hl d r hp
    · exact fun o => hr r o hp
  · intro r hp
    simp only [hc' r hp, hr r _ hp]
    exact h.total r hp

theorem Accounts.move (h : Accounts m E c) (r : Ref K)
    (hm : Proper r → (m.account E r).Move (m'.account E' r))
    (hc : ∀ r', r' ≠ r → m'.count r' = m.count r')
    (hl : ∀ d r', Proper r' → r' ≠ r → m'.lent d r' = m.lent d r')
    (hr : ∀ r' o, r' ≠ r → m'.refs E' ⟨r', o⟩ = m.refs E ⟨r', o⟩)
    (ht : Proper r → c'.count r + ∑ o, m.refs E ⟨r, o⟩ = c.count r + ∑ o, m'.refs E' ⟨r, o⟩)
    (hc' : ∀ r', r' ≠ r → c'.count r' = c.count r') : Accounts m' E' c' := by
  constructor
  · intro r' hp
    by_cases he : r' = r
    · subst he
      exact (hm hp).balanced (h.balanced _ hp)
    · refine Account.Move.balanced (.skip ?_ ?_ ?_) (h.balanced r' hp)
      · exact hc r' he
      · exact fun d => hl d r' hp he
      · exact fun o => hr r' o he
  · intro r' hp
    by_cases he : r' = r
    · subst he
      have ht := ht hp
      have hold := h.total _ hp
      omega
    · rw [hc' r' he, h.total r' hp]
      simp only [hr r' _ he]

theorem sum_refs_succ {R R' : Guard K Thr → Nat} (h : ∀ g, R' g = R g + [x].count g) :
    ∑ o, R' ⟨x.ref, o⟩ = ∑ o, R ⟨x.ref, o⟩ + 1 := by
  obtain ⟨r, o⟩ := x
  simp only [h, Finset.sum_add_distrib, sum_singleton, if_true]

theorem Accounts.lend (h : Accounts m E c) (r : Ref K) (hd : m.debt d = debtNone) :
    Accounts (m.lend d r) (⟨r, some d⟩ :: E) (c.map (·.inc r)) := by
  have hrefs : ∀ g, (m.lend d r).refs (⟨r, some d⟩ :: E) g =
      m.refs E g + [⟨r, some d⟩].count g := by
    intro g
    rw [Mem.refs_cons]
    rfl
  apply h.move r
  · intro hp
    refine .fill d rfl ?_ (fun x => ?_) fun o => ?_
    · apply Mem.lent_of_ne
      rw [hd]
      exact fun h => hp.2 h.symm
    · exact (Mem.lent_lend ..).trans (by rw [decide_eq_true rfl]; rfl)
    · exact (hrefs _).trans (by rw [count_singleton, if_pos rfl]; rfl)
  · exact fun _ _ => rfl
  · intro x r' hp hr
    rw [Mem.lent_lend]
    split
    · rename_i hx
      subst hx
      rw [decide_eq_false hr, Mem.lent_of_ne]
      rw [hd]
      exact fun h => hp.2 h.symm
    · rfl
  · intro r' o hr
    rw [hrefs, count_singleton, if_neg hr]
    rfl
  · intro hp
    have hsum : ∑ o, (m.lend d r).refs (⟨r, some d⟩ :: E) ⟨r, o⟩ = ∑ o, m.refs E ⟨r, o⟩ + 1 :=
      sum_refs_succ hrefs
    have hc : (c.map (·.inc r)).count r = c.count r + 1 :=
      (inc_count ..).trans (by rw [if_pos ⟨rfl, hp.1⟩])
    omega
  · intro r' hr
    exact (inc_count ..).trans (by rw [if_neg fun h => hr h.1]; rfl)

theorem Accounts.paid (h : Accounts m (⟨r, some d⟩ :: E) c) (hd : m.debt d ≠ r.2) :
    Accounts m (held r :: E) c := by
  apply h.move r
  · intro hp
    refine .paid d rfl (Mem.lent_of_ne hd) (fun _ => rfl) fun o => ?_
    simp only [Mem.account, Mem.refs_cons, held, count_singleton, if_true]
    omega
  · exact fun _ _ => rfl
  · exact fun _ _ _ _ => rfl
  · intro r' o hr
    simp only [Mem.refs_cons, held, count_singleton, if_neg hr]
  · intro hp
    simp only [Mem.refs_cons, held, Finset.sum_add_distrib, sum_singleton]
  · exact fun _ _ => rfl

theorem Accounts.inc (h : Accounts m E c) (r : Ref K) :
    Accounts (m.map (·.inc r)) (held r :: E) (c.map (·.inc r)) := by
  have hrefs : ∀ g, (m.map (·.inc r)).refs (held r :: E) g = m.refs E g + [held r].count g := by
    intro g
    rw [Mem.refs_cons, Mem.refs_map m (Heap.inc_counts ..)]
  apply h.move r
  · intro hp
    refine .inc ?_ (fun _ => rfl) fun o => ?_
    · exact (inc_count ..).trans (by rw [if_pos ⟨rfl, hp.1⟩]; rfl)
    · exact (hrefs _).trans (by rw [held, count_singleton, if_pos rfl]; rfl)
  · intro r' hr
    exact (inc_count ..).trans (by rw [if_neg fun h => hr h.1]; rfl)
  · exact fun _ _ _ _ => rfl
  · intro r' o hr
    rw [hrefs, held, count_singleton, if_neg hr]
    rfl
  · intro hp
    have hsum : ∑ o, (m.map (·.inc r)).refs (held r :: E) ⟨r, o⟩ = ∑ o, m.refs E ⟨r, o⟩ + 1 :=
      sum_refs_succ hrefs
    have hc : (c.map (·.inc r)).count r = c.count r + 1 :=
      (inc_count ..).trans (by rw [if_pos ⟨rfl, hp.1⟩])
    omega
  · intro r' hr
    exact (inc_count ..).trans (by rw [if_neg fun h => hr h.1]; rfl)

theorem Accounts.dec (h : Accounts m (held r :: E) c) :
    Accounts (m.map (·.dec r)) E (c.map (·.dec r)) := by
  have hrefs : ∀ g, m.refs (held r :: E) g = (m.map (·.dec r)).refs E g + [held r].count g := by
    intro g
    rw [Mem.refs_cons, Mem.refs_map m (Heap.dec_counts ..)]
  apply h.move r
  · intro hp
    refine .dec ?_ (fun _ => rfl) fun o => ?_
    · exact (dec_count ..).trans (by rw [if_pos ⟨rfl, hp.1⟩]; rfl)
    · exact (hrefs _).trans (by rw [held, count_singleton, if_pos rfl]; rfl)
  · intro r' hr
    exact (dec_count ..).trans (by rw [if_neg fun h => hr h.1]; rfl)
  · exact fun _ _ _ _ => rfl
  · intro r' o hr
    rw [hrefs, held, count_singleton, if_neg hr]
    rfl
  · intro hp
    have hsum : ∑ o, m.refs (held r :: E) ⟨r, o⟩ = ∑ o, (m.map (·.dec r)).refs E ⟨r, o⟩ + 1 :=
      sum_refs_succ hrefs
    have htotal := h.total r hp
    have hc : (c.map (·.dec r)).count r = c.count r - 1 :=
      (dec_count ..).trans (by rw [if_pos ⟨rfl, hp.1⟩])
    omega
  · intro r' hr
    exact (dec_count ..).trans (by rw [if_neg fun h => hr h.1]; rfl)

theorem Accounts.repay {o : Option (Debt Thr)} (h : Accounts m (⟨r, o⟩ :: E) c)
    (ho : o = none ∨ o = some d) (hd : m.debt d = r.2)
    (hl : Proper r → m.lender d = some r.1) : Accounts (m.clear d) E (c.map (·.dec r)) := by
  have hrefs : ∀ g, m.refs (⟨r, o⟩ :: E) g =
      (m.clear d).refs E g + [⟨r, o⟩].count g := by
    intro g
    rw [Mem.refs_cons]
    rfl
  have hlent : Proper r → m.lent d r = true := fun hp => decide_eq_true ⟨hd, hl hp⟩
  apply h.move r
  · intro hp
    refine .pay d o ho rfl (hlent hp) (fun x => Mem.lent_clear m d hp x) fun o' => ?_
    exact (hrefs _).trans (by rw [count_singleton, if_pos rfl]; rfl)
  · exact fun _ _ => rfl
  · intro x r' hp hr
    rw [Mem.lent_clear m d hp]
    split
    · rename_i hx
      subst hx
      symm
      by_cases h2 : r'.2 = r.2
      · have hp' : Proper r := ⟨h2 ▸ hp.1, h2 ▸ hp.2⟩
        apply decide_eq_false
        rintro ⟨_, hl'⟩
        exact hr (Prod.ext (Option.some.inj (hl'.symm.trans (hl hp'))) h2)
      · apply Mem.lent_of_ne
        rw [hd]
        exact fun h => h2 h.symm
    · rfl
  · intro r' o' hr
    rw [hrefs, count_singleton, if_neg hr]
    rfl
  · intro hp
    have hsum : ∑ o', m.refs (⟨r, o⟩ :: E) ⟨r, o'⟩ = ∑ o', (m.clear d).refs E ⟨r, o'⟩ + 1 :=
      sum_refs_succ hrefs
    have htotal := h.total r hp
    have hc : (c.map (·.dec r)).count r = c.count r - 1 :=
      (dec_count ..).trans (by rw [if_pos ⟨rfl, hp.1⟩])
    omega
  · intro r' hr
    exact (dec_count ..).trans (by rw [if_neg fun h => hr h.1]; rfl)

end ArcSwap.Sequential
