import ArcSwap.Sequential.Refinement

namespace ArcSwap.Sequential
set_option autoImplicit true

/-- The reference counts: those of `Arc` and `Rc`, strong and weak. -/
inductive Count
  | arc
  | rc
  | weak
  | rcWeak
deriving DecidableEq

/-- The types that are `RefCnt`. -/
inductive Smart
  | arc
  | rc
  | pinArc
  | pinRc
  | weak
  | rcWeak
  | option (t : Smart)
deriving DecidableEq

abbrev Address := { a : Nat // a ≠ 0 }

/-- The values of the types. A `Weak` from `Weak::new` is of no object. -/
def Pointer : Smart → Type
  | .arc => Address
  | .rc => Address
  | .pinArc => Address
  | .pinRc => Address
  | .weak => Option Address
  | .rcWeak => Option Address
  | .option t => Option (Pointer t)

namespace Smart

def count : Smart → Count
  | .arc => .arc
  | .rc => .rc
  | .pinArc => .arc
  | .pinRc => .rc
  | .weak => .weak
  | .rcWeak => .rcWeak
  | .option t => t.count

def intoPtr : (t : Smart) → Pointer t → Nat
  | .arc, me => me.val
  | .rc, me => me.val
  | .pinArc, me => me.val
  | .pinRc, me => me.val
  | .weak, none => 0
  | .weak, some a => a.val
  | .rcWeak, none => 0
  | .rcWeak, some a => a.val
  | .option t, me => (me.map t.intoPtr).getD 0

def asPtr : (t : Smart) → Pointer t → Nat
  | .arc, me => me.val
  | .rc, me => me.val
  | .pinArc, me => me.val
  | .pinRc, me => me.val
  | .weak, none => 0
  | .weak, some a => a.val
  | .rcWeak, none => 0
  | .rcWeak, some a => a.val
  | .option t, me => (me.map t.asPtr).getD 0

def fromRaw (ptr : Nat) : Option Address :=
  if h : ptr ≠ 0 then some ⟨ptr, h⟩ else none

/-- `RefCnt::from_ptr`. It is undefined for a null pointer that the type has no value for. -/
def fromPtr : (t : Smart) → Nat → Option (Pointer t)
  | .arc, ptr => fromRaw ptr
  | .rc, ptr => fromRaw ptr
  | .pinArc, ptr => fromRaw ptr
  | .pinRc, ptr => fromRaw ptr
  | .weak, ptr => some (fromRaw ptr)
  | .rcWeak, ptr => some (fromRaw ptr)
  | .option t, ptr => if ptr = 0 then some none else (t.fromPtr ptr).map some

variable {Sto : Type}

def clone : (t : Smart) → Pointer t → Heap Count Sto → Heap Count Sto
  | .arc, me, h => h.inc (.arc, me.val)
  | .rc, me, h => h.inc (.rc, me.val)
  | .pinArc, me, h => h.inc (.arc, me.val)
  | .pinRc, me, h => h.inc (.rc, me.val)
  | .weak, none, h => h
  | .weak, some a, h => h.inc (.weak, a.val)
  | .rcWeak, none, h => h
  | .rcWeak, some a, h => h.inc (.rcWeak, a.val)
  | .option _, none, h => h
  | .option t, some me, h => t.clone me h

def drop : (t : Smart) → Pointer t → Heap Count Sto → Heap Count Sto
  | .arc, me, h => h.dec (.arc, me.val)
  | .rc, me, h => h.dec (.rc, me.val)
  | .pinArc, me, h => h.dec (.arc, me.val)
  | .pinRc, me, h => h.dec (.rc, me.val)
  | .weak, none, h => h
  | .weak, some a, h => h.dec (.weak, a.val)
  | .rcWeak, none, h => h
  | .rcWeak, some a, h => h.dec (.rcWeak, a.val)
  | .option _, none, h => h
  | .option t, some me, h => t.drop me h

def inc (t : Smart) (me : Pointer t) (h : Heap Count Sto) : Nat × Heap Count Sto :=
  (t.intoPtr me, t.clone me h)

def dec (t : Smart) (ptr : Nat) (h : Heap Count Sto) : Option (Heap Count Sto) :=
  (t.fromPtr ptr).map fun me => t.drop me h

/-- A pointer without the values that wrap an empty one, which are not told from the empty one. -/
def flatten : (t : Smart) → Pointer t → Pointer t
  | .option _, none => none
  | .option t, some me => if t.intoPtr me = 0 then none else some (t.flatten me)
  | .arc, me => me
  | .rc, me => me
  | .pinArc, me => me
  | .pinRc, me => me
  | .weak, me => me
  | .rcWeak, me => me

/-- Whether a type has a value without an object. -/
def nullable : Smart → Bool
  | .arc => false
  | .rc => false
  | .pinArc => false
  | .pinRc => false
  | .weak => true
  | .rcWeak => true
  | .option _ => true

/-- Whether a type wraps another one that can be empty already. -/
def nested : Smart → Bool
  | .option t => t.nullable || t.nested
  | _ => false

theorem asPtr_eq (t : Smart) (v : Pointer t) : t.asPtr v = t.intoPtr v := by
  induction t with
  | arc | rc | pinArc | pinRc => rfl
  | weak | rcWeak => cases v <;> rfl
  | option t ih =>
    cases v with
    | none => rfl
    | some v => exact ih v

theorem fromRaw_val (a : Address) : fromRaw a.val = some a :=
  dif_pos a.property

theorem val_of_fromRaw {p : Nat} {a : Address} (h : fromRaw p = some a) : a.val = p := by
  rw [fromRaw] at h
  split at h
  · rw [← Option.some.inj h]
  · cases h

theorem intoPtr_ne (t : Smart) (ht : t.nullable = false) (v : Pointer t) : t.intoPtr v ≠ 0 := by
  cases t with
  | arc | rc | pinArc | pinRc => exact Subtype.property (p := (· ≠ 0)) v
  | weak | rcWeak | option => cases ht

/-- A pointer comes back from its representation flattened. -/
theorem fromPtr_intoPtr (t : Smart) (v : Pointer t) :
    t.fromPtr (t.intoPtr v) = some (t.flatten v) := by
  induction t with
  | arc | rc | pinArc | pinRc => exact fromRaw_val v
  | weak | rcWeak =>
    cases v with
    | none => rfl
    | some a => exact congrArg some (fromRaw_val a)
  | option t ih =>
    cases v with
    | none => rfl
    | some v =>
      change (if t.intoPtr v = 0 then some none else (t.fromPtr (t.intoPtr v)).map some) =
        some (if t.intoPtr v = 0 then none else some (t.flatten v))
      split
      · rfl
      · rw [ih]
        rfl

theorem intoPtr_fromPtr (t : Smart) {p : Nat} {v : Pointer t} (h : t.fromPtr p = some v) :
    t.intoPtr v = p := by
  induction t with
  | arc | rc | pinArc | pinRc => exact val_of_fromRaw h
  | weak | rcWeak =>
    have he : fromRaw p = v := Option.some.inj h
    cases v with
    | none =>
      rw [fromRaw] at he
      split at he
      · cases he
      · rename_i hp
        exact (not_not.1 hp).symm
    | some a => exact val_of_fromRaw he
  | option t ih =>
    change (if p = 0 then some none else (t.fromPtr p).map some) = some v at h
    split at h
    · rename_i hp
      rw [← Option.some.inj h, hp]
      rfl
    · obtain ⟨v', he, rfl⟩ := Option.map_eq_some_iff.1 h
      exact ih he

theorem intoPtr_flatten (t : Smart) (v : Pointer t) : t.intoPtr (t.flatten v) = t.intoPtr v :=
  t.intoPtr_fromPtr (t.fromPtr_intoPtr v)

theorem intoPtr_inj (t : Smart) (v w : Pointer t) :
    t.intoPtr v = t.intoPtr w ↔ t.flatten v = t.flatten w := by
  constructor
  · intro h
    have he := t.fromPtr_intoPtr v
    rw [h, t.fromPtr_intoPtr w] at he
    exact (Option.some.inj he).symm
  · intro h
    rw [← t.intoPtr_flatten v, h, t.intoPtr_flatten w]

theorem exists_null (t : Smart) (ht : t.nullable = true) : ∃ v : Pointer t, t.intoPtr v = 0 := by
  cases t with
  | arc | rc | pinArc | pinRc => cases ht
  | weak | rcWeak | option => exact ⟨none, rfl⟩

theorem flatten_some (t : Smart) (v : Pointer t) :
    (option t).flatten (some v) = if t.intoPtr v = 0 then none else some (t.flatten v) :=
  rfl

/-- A type keeps its values apart unless it wraps one that can be empty already. -/
theorem flatten_eq_iff (t : Smart) : (∀ v, t.flatten v = v) ↔ t.nested = false := by
  induction t with
  | arc | rc | pinArc | pinRc | weak | rcWeak => exact ⟨fun _ => rfl, fun _ _ => rfl⟩
  | option t ih =>
    rw [nested, Bool.or_eq_false_iff]
    constructor
    · intro h
      constructor
      · rw [← Bool.not_eq_true]
        intro hn
        obtain ⟨v, hv⟩ := t.exists_null hn
        have he := h (some v)
        rw [flatten_some, if_pos hv] at he
        cases he
      · rw [← ih]
        intro v
        have he := h (some v)
        rw [flatten_some] at he
        split at he
        · cases he
        · exact Option.some.inj he
    · rintro ⟨hn, hnested⟩ v
      cases v with
      | none => rfl
      | some v => rw [flatten_some, if_neg (t.intoPtr_ne hn v), ih.2 hnested v]

theorem clone_eq (t : Smart) (v : Pointer t) (h : Heap Count Sto) :
    t.clone v h = h.inc (t.count, t.intoPtr v) := by
  induction t with
  | arc | rc | pinArc | pinRc => rfl
  | weak | rcWeak => cases v <;> rfl
  | option t ih =>
    cases v with
    | none => rfl
    | some v => exact ih v

theorem drop_eq (t : Smart) (v : Pointer t) (h : Heap Count Sto) :
    t.drop v h = h.dec (t.count, t.intoPtr v) := by
  induction t with
  | arc | rc | pinArc | pinRc => rfl
  | weak | rcWeak => cases v <;> rfl
  | option t ih =>
    cases v with
    | none => rfl
    | some v => exact ih v

end Smart

/-- The pointers and counts of the model represent the values of every `RefCnt` type, however deep
it is nested: `into_ptr` and `from_ptr` are inverse up to values that wrap an empty one, just as the
comparison of pointers is, which makes no difference unless a type wraps one that can be empty
already; `inc` and `dec` change the one count at the pointer, like a clone and a drop. -/
theorem pointers_represented {Sto : Type} (t : Smart) (v w : Pointer t) (h : Heap Count Sto) :
    t.asPtr v = t.intoPtr v ∧ t.fromPtr (t.intoPtr v) = some (t.flatten v) ∧
      (∀ p, t.fromPtr p = some v → t.intoPtr v = p) ∧
      (t.asPtr v = t.asPtr w ↔ t.flatten v = t.flatten w) ∧
      ((∀ v, t.flatten v = v) ↔ t.nested = false) ∧
      t.inc v h = (t.intoPtr v, h.inc (t.count, t.intoPtr v)) ∧
      t.dec (t.intoPtr v) h = some (h.dec (t.count, t.intoPtr v)) := by
  refine ⟨t.asPtr_eq v, t.fromPtr_intoPtr v, fun p => t.intoPtr_fromPtr, ?_, t.flatten_eq_iff, ?_, ?_⟩
  · rw [t.asPtr_eq, t.asPtr_eq]
    exact t.intoPtr_inj v w
  · rw [Smart.inc, t.clone_eq]
  · rw [Smart.dec, t.fromPtr_intoPtr, Option.map_some, t.drop_eq, t.intoPtr_flatten]

section
variable {K Thr Sto : Type}

theorem Heap.setStorage_ne [DecidableEq Sto] {S S' : Sto} (h : Heap K Sto)
    (hS : decide (S' = S) = false) (x : Option (Ref K)) :
    (h.setStorage S' x).storage S = h.storage S :=
  Function.update_of_ne (fun he => of_decide_eq_false hS he.symm) ..

variable [DecidableEq K]

theorem Heap.inc_storage (h : Heap K Sto) (r : Ref K) : (h.inc r).storage = h.storage :=
  (h.inc_counts r).storage

theorem Heap.dec_storage (h : Heap K Sto) (r : Ref K) : (h.dec r).storage = h.storage :=
  (h.dec_counts r).storage

theorem Heap.addHandle_storage (h : Heap K Sto) (r : Ref K) :
    (h.addHandle r).storage = h.storage :=
  (h.addHandle_only r).storage

theorem Heap.derive_storage (h : Heap K Sto) (upgrades : K → Bool) (r : Ref K) (k : K) :
    (h.derive upgrades r k).2.storage = h.storage := by
  rw [Heap.derive]
  split
  · rfl
  · exact (Heap.addHandle_storage ..).trans (Heap.inc_storage ..)

variable [DecidableEq Sto]

/-- Whether an operation can change what a storage holds. -/
def Op.writes (S : Sto) : Op K Sto → Bool
  | .create S' _ => S' = S
  | .swap S' _ => S' = S
  | .store S' _ => S' = S
  | .cas S' _ _ _ => S' = S
  | .rcu S' _ _ => S' = S
  | .intoInner S' => S' = S
  | .dropStorage S' => S' = S
  | _ => false

/-- Whether an operation returns what a storage held. -/
def Op.reads (S : Sto) : Op K Sto → Bool
  | .load S' => S' = S
  | .loadFull S' => S' = S
  | .swap S' _ => S' = S
  | .cas S' _ _ _ => S' = S
  | .rcu S' _ _ => S' = S
  | .intoInner S' => S' = S
  | _ => false

variable {c c' c'' : Cell K Sto} {op : Op K Sto} {S : Sto} {upgrades : K → Bool} {p : Nat}
variable [Fintype K]

theorem Cell.run_append {ops ops' : List (Op K Sto)} {vs : List Nat}
    (h : c.run upgrades (ops ++ ops') = some (c', vs)) :
    ∃ c₁ vs₁ vs₂, c.run upgrades ops = some (c₁, vs₁) ∧ c₁.run upgrades ops' = some (c', vs₂) ∧
      vs = vs₁ ++ vs₂ := by
  induction ops generalizing c vs with
  | nil => exact ⟨c, [], vs, rfl, h, rfl⟩
  | cons op ops ih =>
    obtain ⟨⟨c₁, v⟩, hstep, h⟩ := Option.bind_eq_some_iff.1 h
    obtain ⟨⟨c₂, vs'⟩, hrun, he⟩ := Option.map_eq_some_iff.1 h
    cases he
    obtain ⟨c₃, vs₁, vs₂, h₁, h₂, rfl⟩ := ih hrun
    refine ⟨c₃, v :: vs₁, vs₂, ?_, h₂, rfl⟩
    simp only [Cell.run, hstep, Option.bind_some, h₁, Option.map_some]

theorem Cell.step_reads (h : c.step upgrades op = some (c', p)) (hr : op.reads S = true) :
    (c.storage S).map Prod.snd = some p := by
  cases op with
  | load S' | loadFull S' | intoInner S' =>
    obtain rfl := of_decide_eq_true hr
    obtain ⟨r, hS, he⟩ := Option.map_eq_some_iff.1 h
    cases he
    rw [hS]
    rfl
  | swap S' new | cas S' current new spurious | rcu S' f spurious =>
    obtain rfl := of_decide_eq_true hr
    obtain ⟨old, hS, h⟩ := Option.bind_eq_some_iff.1 h
    obtain ⟨x, hx, he⟩ := Option.map_eq_some_iff.1 h
    cases he
    rw [hS]
    rfl
  | _ => cases hr

theorem Cell.run_singleton {vs : List Nat} (h : c.run upgrades [op] = some (c', vs)) :
    ∃ v, c.step upgrades op = some (c', v) ∧ vs = [v] := by
  obtain ⟨⟨c₁, v⟩, hstep, h⟩ := Option.bind_eq_some_iff.1 h
  cases h
  exact ⟨v, hstep, rfl⟩

theorem Cell.step_storage (h : c.step upgrades op = some (c', p)) (hw : op.writes S = false) :
    c'.storage S = c.storage S := by
  cases op with
  | alloc r =>
    obtain ⟨x, hx, he⟩ := Option.map_eq_some_iff.1 h
    cases he
    rw [Heap.alloc] at hx
    split at hx
    · cases hx
      simp only [Heap.addHandle_storage, Heap.inc_storage]
    · cases hx
  | derive r k =>
    obtain ⟨x, hx, he⟩ := Option.map_eq_some_iff.1 h
    cases he
    simp only [Cell.map, Heap.derive_storage]
  | dropHandle r =>
    obtain ⟨x, hx, he⟩ := Option.map_eq_some_iff.1 h
    cases he
    simp only [Cell.map, Heap.dec_storage, (Cell.takeHandle_only hx).1]
  | load S' =>
    obtain ⟨x, hx, he⟩ := Option.map_eq_some_iff.1 h
    cases he
    simp only [Cell.addGuard, Cell.map, Heap.inc_storage]
  | loadFull S' =>
    obtain ⟨x, hx, he⟩ := Option.map_eq_some_iff.1 h
    cases he
    simp only [Cell.map, Heap.addHandle_storage, Heap.inc_storage]
  | create S' r =>
    rw [Cell.step] at h
    split at h
    · obtain ⟨x, hx, he⟩ := Option.map_eq_some_iff.1 h
      cases he
      simp only [Cell.map, Heap.setStorage_ne _ hw, (Cell.takeHandle_only hx).1]
    · cases h
  | swap S' new =>
    obtain ⟨old, hold, h⟩ := Option.bind_eq_some_iff.1 h
    obtain ⟨x, hx, he⟩ := Option.map_eq_some_iff.1 h
    cases he
    simp only [Cell.map, Heap.addHandle_storage, Heap.setStorage_ne _ hw,
      (Cell.takeHandle_only hx).1]
  | store S' new =>
    obtain ⟨old, hold, h⟩ := Option.bind_eq_some_iff.1 h
    obtain ⟨x, hx, he⟩ := Option.map_eq_some_iff.1 h
    cases he
    simp only [Cell.map, Heap.dec_storage, Heap.setStorage_ne _ hw, (Cell.takeHandle_only hx).1]
  | cas S' current new spurious =>
    obtain ⟨old, hold, h⟩ := Option.bind_eq_some_iff.1 h
    obtain ⟨x, hx, he⟩ := Option.map_eq_some_iff.1 h
    cases he
    split
    · simp only [Cell.addGuard, Cell.map, Heap.setStorage_ne _ hw, (Cell.takeHandle_only hx).1]
    · simp only [Cell.addGuard, Cell.map, Heap.dec_storage, Heap.inc_storage,
        (Cell.takeHandle_only hx).1]
  | rcu S' f spurious =>
    obtain ⟨old, hold, h⟩ := Option.bind_eq_some_iff.1 h
    obtain ⟨x, hx, he⟩ := Option.map_eq_some_iff.1 h
    cases he
    simp only [Cell.map, Heap.addHandle_storage, Heap.setStorage_ne _ hw,
      (Cell.takeHandle_only hx).1]
  | intoInner S' =>
    obtain ⟨x, hx, he⟩ := Option.map_eq_some_iff.1 h
    cases he
    simp only [Cell.map, Heap.addHandle_storage, Heap.setStorage_ne _ hw]
  | dropStorage S' =>
    obtain ⟨x, hx, he⟩ := Option.map_eq_some_iff.1 h
    cases he
    simp only [Cell.map, Heap.dec_storage, Heap.setStorage_ne _ hw]
  | guardDrop i =>
    obtain ⟨x, hx, he⟩ := Option.map_eq_some_iff.1 h
    obtain ⟨r, hr, rfl⟩ := Option.map_eq_some_iff.1 hx
    cases he
    simp only [Cell.map, Heap.dec_storage]
  | guardIntoInner i =>
    obtain ⟨x, hx, he⟩ := Option.map_eq_some_iff.1 h
    obtain ⟨r, hr, rfl⟩ := Option.map_eq_some_iff.1 hx
    cases he
    simp only [Cell.map, Heap.addHandle_storage]
  | guardFromInner r =>
    obtain ⟨x, hx, he⟩ := Option.map_eq_some_iff.1 h
    cases he
    exact congrFun (Cell.takeHandle_only hx).1 S
  | guardDerive i k =>
    obtain ⟨x, hx, he⟩ := Option.map_eq_some_iff.1 h
    cases he
    simp only [Cell.map, Heap.derive_storage]

theorem Cell.run_storage {ops : List (Op K Sto)} {vs : List Nat}
    (h : c.run upgrades ops = some (c', vs)) (hw : ∀ op ∈ ops, op.writes S = false) :
    c'.storage S = c.storage S := by
  induction ops generalizing c vs with
  | nil =>
    cases h
    rfl
  | cons op ops ih =>
    obtain ⟨⟨c₁, v⟩, hstep, h⟩ := Option.bind_eq_some_iff.1 h
    obtain ⟨⟨c₂, vs'⟩, hrun, he⟩ := Option.map_eq_some_iff.1 h
    cases he
    rw [ih hrun fun op hop => hw op (List.mem_cons_of_mem _ hop)]
    exact Cell.step_storage hstep (hw op List.mem_cons_self)

theorem Cell.run_store {ops ops' : List (Op K Sto)} {vs : List Nat} {new : Nat}
    (h : c.run upgrades (ops ++ .store S new :: ops') = some (c', vs))
    (hw : ∀ op ∈ ops', op.writes S = false) : (c'.storage S).map Prod.snd = some new := by
  obtain ⟨c₁, _, _, _, hrun, _⟩ := Cell.run_append h
  obtain ⟨⟨c₂, v⟩, hstep, hrun⟩ := Option.bind_eq_some_iff.1 hrun
  obtain ⟨⟨c₃, vs'⟩, hrest, he⟩ := Option.map_eq_some_iff.1 hrun
  cases he
  rw [Cell.run_storage hrest hw]
  obtain ⟨old, hold, hstep⟩ := Option.bind_eq_some_iff.1 hstep
  obtain ⟨x, hx, he⟩ := Option.map_eq_some_iff.1 hstep
  cases he
  simp only [Cell.map, Heap.dec_storage, Heap.setStorage, Function.update_self, Option.map_some]

theorem Cell.step_cas {current new spurious : Nat}
    (h : c.step upgrades (.cas S current new spurious) = some (c', p)) :
    (c'.storage S).map Prod.snd = some (if p = current then new else p) := by
  obtain ⟨old, hold, h⟩ := Option.bind_eq_some_iff.1 h
  obtain ⟨x, hx, he⟩ := Option.map_eq_some_iff.1 h
  cases he
  split
  · simp only [Cell.addGuard, Cell.map, Heap.setStorage, Function.update_self, Option.map_some]
  · simp only [Cell.addGuard, Cell.map, Heap.dec_storage, Heap.inc_storage,
      (Cell.takeHandle_only hx).1, hold, Option.map_some]


end

variable {Thr Sto : Type} [DecidableEq Thr] [DecidableEq Sto] [Fintype Thr] [Fintype Sto]

instance : Fintype Count :=
  ⟨{.arc, .rc, .weak, .rcWeak}, by intro x; cases x <;> decide⟩

/-- Whatever a program does in between, and however its storages are protected: what an operation
returns from a storage is the value of the type that was stored there last, flattened, and
`compare_and_swap` replaces it if and only if it is equal to the current value that is given, both
flattened. -/
theorem stored_comes_back {cfg : Config Count Sto} {ops ops' : List (Thr × Op Count Sto)}
    {rounds : Nat} {t t' : Thr} {S : Sto} {ty : Smart} {v : Pointer ty} {op : Op Count Sto}
    {m : Mem Count Thr Sto} {vs : List Nat}
    (hloads : 4 * ((ops ++ (t, .store S (ty.intoPtr v)) :: ops' ++ [(t', op)]).map
      fun x => x.2.loads).sum < 2 ^ cfg.width)
    (hsep : ∀ c ∈ Cell.empty.states cfg.upgrades
      ((ops ++ (t, .store S (ty.intoPtr v)) :: ops' ++ [(t', op)]).map Prod.snd), c.Separate cfg)
    (hw : ∀ x ∈ ops', x.2.writes S = false) (hop : op.reads S = true)
    (hrun : Mem.empty.run cfg rounds (ops ++ (t, .store S (ty.intoPtr v)) :: ops' ++ [(t', op)]) =
      some (m, vs)) :
    (∃ p, vs.getLast? = some p ∧ ty.fromPtr p = some (ty.flatten v)) ∧
      ∀ (w : Pointer ty) (new spurious : Nat), op = .cas S (ty.asPtr w) new spurious →
        (ty.flatten w = ty.flatten v → (m.storage S).map Prod.snd = some new) ∧
        (ty.flatten w ≠ ty.flatten v → (m.storage S).map Prod.snd = some (ty.intoPtr v)) := by
  have hsim := (Sim.empty (n := _ + 0) hloads).run hsep rounds
  rw [hrun] at hsim
  cases hc : Cell.empty.run cfg.upgrades
      ((ops ++ (t, .store S (ty.intoPtr v)) :: ops' ++ [(t', op)]).map Prod.snd) with
  | none =>
    rw [hc] at hsim
    cases hsim
  | some x =>
    obtain ⟨c, vs'⟩ := x
    rw [hc] at hsim
    cases hsim with
    | some h =>
      obtain ⟨hsim, rfl⟩ := h
      rw [List.map_append] at hc
      obtain ⟨c₁, vs₁, vs₂, h₁, h₂, rfl⟩ := Cell.run_append hc
      obtain ⟨p, hstep, rfl⟩ := Cell.run_singleton h₂
      rw [List.map_append, List.map_cons] at h₁
      have hS : (c₁.storage S).map Prod.snd = some (ty.intoPtr v) := by
        apply Cell.run_store h₁
        intro op hop
        obtain ⟨x, hx, rfl⟩ := List.mem_map.1 hop
        exact hw x hx
      have hp := Cell.step_reads hstep hop
      rw [hS] at hp
      cases hp
      refine ⟨⟨_, List.getLast?_concat .., ty.fromPtr_intoPtr v⟩, ?_⟩
      rintro w new spurious rfl
      have hcas := Cell.step_cas hstep
      rw [ty.asPtr_eq, ← hsim.storage] at hcas
      constructor
      · intro he
        rw [if_pos ((ty.intoPtr_inj v w).2 he.symm)] at hcas
        exact hcas
      · intro hne
        rw [if_neg fun he => hne ((ty.intoPtr_inj v w).1 he).symm] at hcas
        exact hcas

def weakOption : Smart := .option .weak

def onlyHybrid : Config Count Unit where
  width := 64
  strategy _ := .hybrid true
  upgrades k := k = .arc || k = .rc

/-- The `Some` of a `Weak` without an object comes back as `None`, which is what it is equal to. -/
theorem stored_comes_back_flattened :
    ∃ m vs p, Mem.empty.run onlyHybrid 0 ([((0 : Fin 2), .alloc (.arc, 4)),
      (0, .derive (.arc, 4) .weak), (0, .create () (.weak, 0))] ++
      (0, .store () (weakOption.intoPtr (some none))) :: [(1, .load ())] ++
      [(1, .cas () (weakOption.asPtr none) 4 2)]) = some (m, vs) ∧ vs.getLast? = some p ∧
      weakOption.fromPtr p = some (none : Option (Option Address)) ∧
      (m.storage ()).map Prod.snd = some 4 := by
  have hsome : (Mem.empty.run onlyHybrid 0 ([((0 : Fin 2), .alloc (.arc, 4)),
      (0, .derive (.arc, 4) .weak), (0, .create () (.weak, 0))] ++
      (0, .store () (weakOption.intoPtr (some none))) :: [(1, .load ())] ++
      [(1, .cas () (weakOption.asPtr none) 4 2)])).isSome = true := by decide +kernel
  obtain ⟨⟨m, vs⟩, hrun⟩ := Option.isSome_iff_exists.1 hsome
  obtain ⟨⟨p, hlast, hp⟩, hcas⟩ := stored_comes_back (by decide) (by decide +kernel) (by decide)
    (by decide) hrun
  exact ⟨m, vs, p, hrun, hlast, hp, (hcas none 4 2 rfl).1 rfl⟩

end ArcSwap.Sequential
