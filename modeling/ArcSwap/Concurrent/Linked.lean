import Mathlib.Logic.Function.Basic
import Mathlib.Data.List.Basic

namespace Concurrent
set_option autoImplicit true

/-- From `p` the links of `next` lead through exactly the cells of the list, and then end. -/
def Linked (next : ι → Option ι) (p : Option ι) : List ι → Prop
  | [] => p = none
  | a :: l => p = some a ∧ Linked next (next a) l

/-- The cells to which the links lead from `p`. -/
inductive Reachable (next : ι → Option ι) : Option ι → ι → Prop
  | here : Reachable next (some a) a
  | next (h : Reachable next (next a) b) : Reachable next (some a) b

variable {next : ι → Option ι} {p : Option ι} {l l' : List ι}

theorem Linked.nil (next : ι → Option ι) : Linked next none [] := rfl

theorem Linked.unique (h : Linked next p l) (h' : Linked next p l') : l = l' := by
  induction l generalizing p l' with
  | nil =>
    cases l' with
    | nil => rfl
    | cons b l' => cases h.symm.trans h'.1
  | cons a l ih =>
    cases l' with
    | nil => cases h.1.symm.trans h'
    | cons b l' =>
      obtain rfl := Option.some.inj (h.1.symm.trans h'.1)
      rw [ih h.2 h'.2]

theorem Linked.suffix (h : Linked next p (l ++ a :: l')) : Linked next (some a) (a :: l') := by
  induction l generalizing p with
  | nil => exact ⟨rfl, h.2⟩
  | cons b l ih => exact ih h.2

/-- No cell comes twice: its links would lead through lists of two lengths. -/
theorem Linked.nodup (h : Linked next p l) : l.Nodup := by
  induction l generalizing p with
  | nil => exact List.nodup_nil
  | cons a l ih =>
    rw [List.nodup_cons]
    refine ⟨fun ha => ?_, ih h.2⟩
    obtain ⟨l₁, l₂, rfl⟩ := List.append_of_mem ha
    have ha : Linked next (some a) (a :: (l₁ ++ a :: l₂)) := ⟨rfl, h.2⟩
    have he := (Linked.suffix h.2).unique ha
    have hlen := congrArg List.length he
    simp only [List.length_cons, List.length_append] at hlen
    omega

theorem Linked.mem_iff (h : Linked next p l) : Reachable next p a ↔ a ∈ l := by
  constructor
  · intro hr
    induction hr generalizing l with
    | here =>
      cases l with
      | nil => cases h
      | cons b l =>
        cases h.1
        exact List.mem_cons_self ..
    | next _ ih =>
      cases l with
      | nil => cases h
      | cons b l =>
        cases h.1
        exact List.mem_cons_of_mem _ (ih h.2)
  · intro ha
    induction l generalizing p with
    | nil => cases ha
    | cons b l ih =>
      cases h.1
      rcases List.mem_cons.1 ha with rfl | ha
      · exact .here
      · exact .next (ih h.2 ha)

theorem Linked.congr (h : Linked next p l) (hn : ∀ a ∈ l, next' a = next a) :
    Linked next' p l := by
  induction l generalizing p with
  | nil => exact h
  | cons a l ih =>
    refine ⟨h.1, ?_⟩
    rw [hn a (List.mem_cons_self ..)]
    exact ih h.2 fun b hb => hn b (List.mem_cons_of_mem a hb)

/-- A traversal of the cells there were when it began, `snapshot`, has come to the first of them,
`visited`, and goes on at `p`. Cells are only ever put in front. -/
def Walk (next : ι → Option ι) (cells snapshot visited : List ι) (p : Option ι) : Prop :=
  snapshot <:+ cells ∧ ∃ rest, snapshot = visited ++ rest ∧ Linked next p rest

variable {cells cells' snapshot visited : List ι}

theorem Walk.start (h : Linked next p cells) : Walk next cells cells [] p :=
  ⟨List.suffix_rfl, cells, rfl, h⟩

theorem Walk.visit (h : Walk next cells snapshot visited (some a)) :
    a ∈ cells ∧ Walk next cells snapshot (visited ++ [a]) (next a) := by
  obtain ⟨hs, rest, rfl, hl⟩ := h
  cases rest with
  | nil => cases hl
  | cons b rest =>
    obtain ⟨hb, hl⟩ := hl
    cases hb
    refine ⟨hs.subset (List.mem_append_right _ (List.mem_cons_self ..)), hs, rest, ?_, hl⟩
    rw [List.append_assoc]
    rfl

theorem Walk.ended (h : Walk next cells snapshot visited none) : visited = snapshot := by
  obtain ⟨_, rest, rfl, hl⟩ := h
  cases rest with
  | nil => exact (List.append_nil visited).symm
  | cons b rest => cases hl.1

theorem Walk.visited_initial (h : Walk next cells snapshot visited p) : visited <+: snapshot := by
  obtain ⟨_, rest, rfl, _⟩ := h
  exact List.prefix_append ..

theorem Walk.extend (h : Walk next cells snapshot visited p) (hc : cells <:+ cells')
    (hn : ∀ a ∈ cells, next' a = next a) : Walk next' cells' snapshot visited p := by
  obtain ⟨hs, rest, rfl, hl⟩ := h
  refine ⟨hs.trans hc, rest, rfl, hl.congr fun a ha => hn a ?_⟩
  exact hs.subset (List.mem_append_right _ ha)

end Concurrent
