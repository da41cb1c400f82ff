import ArcSwap.Memory
import ArcSwap.Concurrent.Machine
import ArcSwap.Concurrent.Stacks

namespace ArcSwap.Caching
set_option autoImplicit true

/-- `Cache::new`, and `Cache::load` with `revalidate`: `since` is when the call began, `full` when the
`load_full` in it began. The value is lent out until the caller is done with it. -/
inductive Pc
  | new (full : Nat)
  | idle
  | read (since : Nat)
  | loadFull (since full : Nat)
  | replace (since new : Nat)
  | assign (since new : Nat)
  | give (since : Nat)
  | lent
deriving DecidableEq

/-- A `Cache`, or with a projection a `MapCache`. -/
structure Cache (P : Type) where
  cached : Nat
  projection : Option P
  pc : Pc

/-- What a call of `load` has given to its caller, and what the projection has made of it. -/
structure Given (U : Type) where
  since : Nat
  till : Nat
  obj : Obj
  projected : Option U

/-- The storage, the counts, the references in the hands of everybody else, and the caches. The
fields from `epoch` on are history. -/
structure State (C P U : Type) where
  storage : Nat
  strong : Nat → Nat
  others : Nat → Nat
  cache : C → Option (Cache P)
  epoch : Nat → Nat
  log : List Update
  given : C → List (Given U)

/-- What the rest of the program does with objects and the storage, and the calls and steps of the
caches. `loaded` is the return of `load_full`. -/
inductive Action (C P : Type)
  | alloc (a : Nat)
  | share (a : Nat)
  | release (a : Nat)
  | exchange (new : Nat)
  | new (c : C)
  | load (c : C)
  | run (c : C)
  | loaded (c : C) (a : Nat)
  | done (c : C)
  | clone (c d : C)
  | map (c : C) (p : P)
  | drop (c : C)

variable {C P U : Type}

section
variable [DecidableEq C]

namespace State

def objAt (σ : State C P U) (a : Nat) : Obj := (a, σ.epoch a)

def inc (σ : State C P U) (a : Nat) : State C P U :=
  if a = 0 then σ else { σ with strong := Function.update σ.strong a (σ.strong a + 1) }

def dec (σ : State C P U) (a : Nat) : State C P U :=
  if a = 0 then σ else { σ with strong := Function.update σ.strong a (σ.strong a - 1) }

def addOther (σ : State C P U) (a : Nat) : State C P U :=
  if a = 0 then σ else { σ with others := Function.update σ.others a (σ.others a + 1) }

def takeOther (σ : State C P U) (a : Nat) : Option (State C P U) :=
  if a = 0 then some σ
  else if σ.others a = 0 then none
  else some { σ with others := Function.update σ.others a (σ.others a - 1) }

def setCache (σ : State C P U) (c : C) (k : Option (Cache P)) : State C P U :=
  { σ with cache := Function.update σ.cache c k }

def setStorage (σ : State C P U) (new : Nat) : State C P U :=
  { σ with
    storage := new
    log := ⟨σ.log.length, some (σ.objAt σ.storage), some (σ.objAt new)⟩ :: σ.log }

def record (σ : State C P U) (c : C) (g : Given U) : State C P U :=
  { σ with given := Function.update σ.given c (g :: σ.given c) }

def allocate (σ : State C P U) (a : Nat) : Option (State C P U) :=
  if a = 0 ∨ σ.strong a ≠ 0 then none
  else some { σ with
    strong := Function.update σ.strong a 1
    epoch := Function.update σ.epoch a (σ.epoch a + 1) }

/-- What `load_full` may return: an owned pointer to an object the storage has held since the call
began. -/
def Loadable (σ : State C P U) (full a : Nat) : Prop :=
  (a = 0 ∨ σ.strong a ≠ 0) ∧ Concurrent.HeldSince σ.log full (σ.objAt a)

instance (σ : State C P U) (full a : Nat) : Decidable (σ.Loadable full a) :=
  inferInstanceAs (Decidable (_ ∧ _))

end State

/-- The next step inside `revalidate` and `load`, or of `MapCache::load`. -/
def Cache.step (project : P → Obj → U × P) (σ : State C P U) (c : C) (k : Cache P) :
    Option (State C P U) :=
  match k.pc with
  | .read since =>
    let cachedPtr := k.cached
    let sharedPtr := σ.storage
    some (σ.setCache c (some { k with
      pc := if cachedPtr ≠ sharedPtr then .loadFull since σ.log.length else .give since }))
  | .replace since new =>
    some ((σ.dec k.cached).setCache c (some { k with pc := .assign since new }))
  | .assign since new => some (σ.setCache c (some { k with cached := new, pc := .give since }))
  | .give since =>
    let obj := σ.objAt k.cached
    match k.projection with
    | none =>
      some ((σ.record c ⟨since, σ.log.length, obj, none⟩).setCache c (some { k with pc := .lent }))
    | some p =>
      let r := project p obj
      some ((σ.record c ⟨since, σ.log.length, obj, some r.1⟩).setCache c
        (some { k with projection := some r.2, pc := .lent }))
  | _ => none

/-- A step of the program; `project` is what the closures of the `MapCache`s do, with their state. -/
def State.step (project : P → Obj → U × P) : Action C P → State C P U → Option (State C P U)
  | .alloc a, σ => (σ.allocate a).map fun σ' => σ'.addOther a
  | .share a, σ => if σ.strong a = 0 then none else some ((σ.inc a).addOther a)
  | .release a, σ => (σ.takeOther a).map fun σ' => σ'.dec a
  | .exchange new, σ => (σ.takeOther new).map fun σ' => (σ'.setStorage new).addOther σ.storage
  | .new c, σ =>
    if (σ.cache c).isNone then some (σ.setCache c (some ⟨0, none, .new σ.log.length⟩)) else none
  | .load c, σ =>
    (σ.cache c).bind fun k =>
      if k.pc = .idle then some (σ.setCache c (some { k with pc := .read σ.log.length })) else none
  | .run c, σ => (σ.cache c).bind (Cache.step project σ c)
  | .loaded c a, σ =>
    (σ.cache c).bind fun k =>
      match k.pc with
      | .new full =>
        if σ.Loadable full a then
          some ((σ.inc a).setCache c (some { k with cached := a, pc := .idle }))
        else none
      | .loadFull since full =>
        if σ.Loadable full a then
          some ((σ.inc a).setCache c (some { k with pc := .replace since a }))
        else none
      | _ => none
  | .done c, σ =>
    (σ.cache c).bind fun k =>
      if k.pc = .lent then some (σ.setCache c (some { k with pc := .idle })) else none
  | .clone c d, σ =>
    (σ.cache c).bind fun k =>
      if k.pc = .idle ∧ (σ.cache d).isNone then
        some { (σ.inc k.cached).setCache d (some k) with
          given := Function.update σ.given d (σ.given c) }
      else none
  | .map c p, σ =>
    (σ.cache c).bind fun k =>
      if k.pc = .idle ∧ k.projection.isNone then
        some (σ.setCache c (some { k with projection := some p }))
      else none
  | .drop c, σ =>
    (σ.cache c).bind fun k =>
      if k.pc = .idle then
        some { (σ.dec k.cached).setCache c none with given := Function.update σ.given c [] }
      else none

def State.initial (a : Nat) : State C P U where
  storage := a
  strong b := if b = a ∧ a ≠ 0 then 1 else 0
  others _ := 0
  cache _ := none
  epoch _ := 0
  log := [⟨0, none, some (a, 0)⟩]
  given _ := []

def machine (project : P → Obj → U × P) :
    Concurrent.Machine (State C P U) (Action C P) where
  init σ := ∃ a, σ = State.initial a
  step := State.step project

end

def Cache.owned (k : Cache P) : List Nat :=
  match k.pc with
  | .new _ => []
  | .replace _ new => [k.cached, new]
  | .assign _ new => [new]
  | .idle | .read _ | .loadFull _ _ | .give _ | .lent => [k.cached]

def State.owned (σ : State C P U) (c : C) : List Nat := (σ.cache c).elim [] Cache.owned

def single (a b : Nat) : Nat := if b = a then 1 else 0

/-- What a cache knows: since when it has held what it is about to keep or give, and that between
the calls it has what it gave last. -/
def Cache.Sound (log : List Update) (obj : Nat → Obj) (given : List (Given U)) (k : Cache P) : Prop :=
  match k.pc with
  | .new full => given = [] ∧ full ≤ log.length
  | .idle | .lent => ∀ g ∈ given.head?, g.obj = obj k.cached
  | .read since => (∀ g ∈ given, g.till ≤ since) ∧ since ≤ log.length
  | .loadFull since full => (∀ g ∈ given, g.till ≤ since) ∧ since ≤ full ∧ full ≤ log.length
  | .replace since new | .assign since new =>
    (∀ g ∈ given, g.till ≤ since) ∧ Concurrent.HeldSince log since (obj new)
  | .give since => (∀ g ∈ given, g.till ≤ since) ∧ Concurrent.HeldSince log since (obj k.cached)

theorem Cache.Sound.keep {log log' newer : List Update} {given : List (Given U)} {k : Cache P}
    {obj obj' : Nat → Obj} (h : k.Sound log obj given) (hlog : log' = newer ++ log)
    (hobj : ∀ a ∈ k.owned, obj' a = obj a) : k.Sound log' obj' given := by
  have hlen : log.length ≤ log'.length := by
    rw [hlog, List.length_append]
    exact Nat.le_add_left ..
  unfold Cache.owned at hobj
  unfold Cache.Sound at h ⊢
  split at h <;> rename_i hpc <;> simp only [hpc] at hobj ⊢
  · exact ⟨h.1, Nat.le_trans h.2 hlen⟩
  · rw [hobj _ (List.mem_singleton.2 rfl)]
    exact h
  · rw [hobj _ (List.mem_singleton.2 rfl)]
    exact h
  · exact ⟨h.1, Nat.le_trans h.2 hlen⟩
  · exact ⟨h.1, h.2.1, Nat.le_trans h.2.2 hlen⟩
  · rw [hobj _ (List.mem_cons_of_mem _ (List.mem_singleton.2 rfl)), hlog]
    exact ⟨h.1, h.2.append newer⟩
  · rw [hobj _ (List.mem_singleton.2 rfl), hlog]
    exact ⟨h.1, h.2.append newer⟩
  · rw [hobj _ (List.mem_singleton.2 rfl), hlog]
    exact ⟨h.1, h.2.append newer⟩

variable {σ σ' : State C P U} {k k' : Cache P} {project : P → Obj → U × P}

theorem exists_inc (σ : State C P U) (p : Nat) :
    ∃ f, σ.inc p = { σ with strong := f } ∧ ∀ a, a ≠ 0 → f a = σ.strong a + single a p := by
  rw [State.inc]
  split
  · rename_i hp
    refine ⟨σ.strong, rfl, fun a ha => ?_⟩
    simp [single, hp, Ne.symm ha]
  · refine ⟨_, rfl, fun a _ => ?_⟩
    rw [Function.update_apply, single]
    by_cases h : a = p
    · simp [h]
    · simp [h, Ne.symm h]

theorem exists_dec (σ : State C P U) (p : Nat) :
    ∃ f, σ.dec p = { σ with strong := f } ∧ ∀ a, a ≠ 0 → f a = σ.strong a - single a p := by
  rw [State.dec]
  split
  · rename_i hp
    refine ⟨σ.strong, rfl, fun a ha => ?_⟩
    simp [single, hp, Ne.symm ha]
  · refine ⟨_, rfl, fun a _ => ?_⟩
    rw [Function.update_apply, single]
    by_cases h : a = p
    · simp [h]
    · simp [h, Ne.symm h]

theorem exists_addOther (σ : State C P U) (p : Nat) :
    ∃ f, σ.addOther p = { σ with others := f } ∧ ∀ a, a ≠ 0 → f a = σ.others a + single a p := by
  rw [State.addOther]
  split
  · rename_i hp
    refine ⟨σ.others, rfl, fun a ha => ?_⟩
    simp [single, hp, Ne.symm ha]
  · refine ⟨_, rfl, fun a _ => ?_⟩
    rw [Function.update_apply, single]
    by_cases h : a = p
    · simp [h]
    · simp [h, Ne.symm h]

theorem exists_takeOther (h : σ.takeOther p = some σ') :
    ∃ f, σ' = { σ with others := f } ∧ ∀ a, a ≠ 0 → σ.others a = f a + single a p := by
  rw [State.takeOther] at h
  split at h
  · rename_i hp
    cases h
    refine ⟨σ.others, rfl, fun a ha => ?_⟩
    simp [single, hp, Ne.symm ha]
  · split at h <;> cases h
    refine ⟨_, rfl, fun a _ => ?_⟩
    rw [Function.update_apply, single]
    by_cases h : a = p
    · subst h
      simp only [if_true]
      omega
    · simp [h, Ne.symm h]

variable [Fintype C]

/-- The counts add up, and the caches and what they have given fit the history of the storage. -/
structure State.Sound (σ : State C P U) (project : P → Obj → U × P) : Prop where
  ledger : ∀ a, a ≠ 0 →
    σ.strong a = single a σ.storage + σ.others a + Concurrent.total (single a) σ.owned
  chained : Concurrent.Chained σ.log (some (σ.objAt σ.storage))
  given : ∀ c, ∀ g ∈ σ.given c,
    Concurrent.HeldDuring σ.log g.since g.till g.obj ∧ g.till ≤ σ.log.length
  projected : ∀ c, ∀ g ∈ σ.given c, ∀ u ∈ g.projected, ∃ p, u = (project p g.obj).1
  ordered : ∀ c, (σ.given c).Pairwise fun x y => y.till ≤ x.since
  caches : ∀ c k, σ.cache c = some k → k.Sound σ.log σ.objAt (σ.given c)
  absent : ∀ c, σ.cache c = none → σ.given c = []

theorem State.Sound.stored_pos (h : σ.Sound project) : σ.storage = 0 ∨ 0 < σ.strong σ.storage := by
  refine or_iff_not_imp_left.2 fun h0 => ?_
  rw [h.ledger _ h0]
  have hone : single σ.storage σ.storage = 1 := if_pos rfl
  omega

variable [DecidableEq C]

theorem State.Sound.strong_pos (h : σ.Sound project) (hc : σ.cache c = some k) (ha : a ∈ k.owned) :
    a = 0 ∨ 0 < σ.strong a := by
  refine or_iff_not_imp_left.2 fun h0 => ?_
  rw [h.ledger a h0]
  have hm : a ∈ σ.owned c := by
    rw [State.owned, hc]
    exact ha
  have hle := Concurrent.le_total (w := single a) hm
  have hone : single a a = 1 := if_pos rfl
  omega

theorem State.Sound.outside (h : σ.Sound project) (hcache : σ'.cache = σ.cache)
    (hgiven : σ'.given = σ.given) (hlog : σ'.log = n ++ σ.log)
    (hepoch : ∀ a, a = 0 ∨ 0 < σ.strong a → σ'.epoch a = σ.epoch a)
    (hledger : ∀ a, a ≠ 0 → σ'.strong a + (single a σ.storage + σ.others a) =
      σ.strong a + (single a σ'.storage + σ'.others a))
    (hchained : Concurrent.Chained σ'.log (some (σ'.objAt σ'.storage))) : σ'.Sound project where
  ledger a ha := by
    have ho : σ'.owned = σ.owned := by
      funext c
      rw [State.owned, State.owned, hcache]
    have h₁ := h.ledger a ha
    have h₂ := hledger a ha
    rw [ho]
    omega
  chained := hchained
  given c g hg := by
    rw [hgiven] at hg
    obtain ⟨hheld, htill⟩ := h.given c g hg
    rw [hlog, List.length_append]
    exact ⟨hheld.append n, Nat.le_trans htill (Nat.le_add_left ..)⟩
  projected c := by
    rw [hgiven]
    exact h.projected c
  ordered c := by
    rw [hgiven]
    exact h.ordered c
  caches c k hc := by
    rw [hcache] at hc
    rw [hgiven]
    refine (h.caches c k hc).keep hlog fun a ha => ?_
    rw [State.objAt, State.objAt, hepoch a (h.strong_pos hc ha)]
  absent c hc := by
    rw [hcache] at hc
    rw [hgiven]
    exact h.absent c hc

theorem State.Sound.set (h : σ.Sound project) {c : C} {k : Option (Cache P)} {l : List (Given U)}
    (hledger : ∀ a, a ≠ 0 → f a + ((σ.owned c).map (single a)).sum =
      σ.strong a + ((k.elim [] Cache.owned).map (single a)).sum)
    (hgiven : ∀ g ∈ l, Concurrent.HeldDuring σ.log g.since g.till g.obj ∧ g.till ≤ σ.log.length)
    (hprojected : ∀ g ∈ l, ∀ u ∈ g.projected, ∃ p, u = (project p g.obj).1)
    (hordered : l.Pairwise fun x y => y.till ≤ x.since)
    (hk : ∀ k' ∈ k, k'.Sound σ.log σ.objAt l) (hnone : k = none → l = []) :
    State.Sound { σ with
      strong := f
      cache := Function.update σ.cache c k
      given := Function.update σ.given c l } project where
  ledger a ha := by
    have ho : State.owned { σ with
        strong := f
        cache := Function.update σ.cache c k
        given := Function.update σ.given c l } =
          Function.update σ.owned c (k.elim [] Cache.owned) := by
      funext d
      by_cases hd : d = c
      · subst hd
        simp [State.owned]
      · simp [State.owned, Function.update_of_ne hd]
    have h₁ := h.ledger a ha
    have h₂ := hledger a ha
    rw [Concurrent.total_eq (single a) σ.owned c] at h₁
    rw [ho, Concurrent.total_update]
    simp only
    omega
  chained := h.chained
  given d g hg := by
    by_cases hd : d = c
    · subst hd
      simp only [Function.update_self] at hg
      exact hgiven g hg
    · simp only [Function.update_of_ne hd] at hg
      exact h.given d g hg
  projected d g hg := by
    by_cases hd : d = c
    · subst hd
      simp only [Function.update_self] at hg
      exact hprojected g hg
    · simp only [Function.update_of_ne hd] at hg
      exact h.projected d g hg
  ordered d := by
    by_cases hd : d = c
    · subst hd
      simpa using hordered
    · simpa [Function.update_of_ne hd] using h.ordered d
  caches d k' hc := by
    by_cases hd : d = c
    · subst hd
      simp only [Function.update_self] at hc ⊢
      exact hk k' hc
    · simp only [Function.update_of_ne hd] at hc ⊢
      exact h.caches d k' hc
  absent d hc := by
    by_cases hd : d = c
    · subst hd
      simp only [Function.update_self] at hc ⊢
      exact hnone hc
    · simp only [Function.update_of_ne hd] at hc ⊢
      exact h.absent d hc

theorem State.Sound.alloc (h : σ.Sound project) (hs : (σ.allocate a).map (·.addOther a) = some σ') :
    σ'.Sound project := by
  rw [Option.map_eq_some_iff] at hs
  obtain ⟨σ₁, h₁, rfl⟩ := hs
  rw [State.allocate] at h₁
  split at h₁
  · cases h₁
  · rename_i hfree
    cases h₁
    obtain ⟨f, he, hf⟩ := exists_addOther ({ σ with
      strong := Function.update σ.strong a 1
      epoch := Function.update σ.epoch a (σ.epoch a + 1) } : State C P U) a
    rw [he]
    have hzero : σ.strong a = 0 := by
      by_contra hne
      exact hfree (.inr hne)
    have hepoch : ∀ b, b = 0 ∨ 0 < σ.strong b →
        Function.update σ.epoch a (σ.epoch a + 1) b = σ.epoch b := by
      intro b hb
      apply Function.update_of_ne
      rintro rfl
      exact hfree (hb.imp id Nat.ne_of_gt)
    refine h.outside (n := []) rfl rfl rfl hepoch (fun b hb => ?_) ?_
    · simp only [hf b hb, Function.update_apply]
      by_cases hba : b = a
      · subst hba
        simp only [if_true, hzero, single]
        omega
      · rw [if_neg hba, show single b a = 0 from if_neg (Ne.symm hba)]
        omega
    · have hobj : State.objAt { σ with
          strong := Function.update σ.strong a 1
          others := f
          epoch := Function.update σ.epoch a (σ.epoch a + 1) } σ.storage =
            σ.objAt σ.storage := by
        rw [State.objAt, State.objAt]
        exact congrArg _ (hepoch σ.storage h.stored_pos)
      simp only
      rw [hobj]
      exact h.chained

theorem State.Sound.exchange (h : σ.Sound project)
    (hs : (σ.takeOther new).map (fun σ' => (σ'.setStorage new).addOther σ.storage) = some σ') :
    σ'.Sound project := by
  rw [Option.map_eq_some_iff] at hs
  obtain ⟨σ₁, h₁, rfl⟩ := hs
  obtain ⟨f, rfl, hf⟩ := exists_takeOther h₁
  obtain ⟨g, he, hg⟩ := exists_addOther (State.setStorage { σ with others := f } new) σ.storage
  rw [he]
  refine h.outside (n := [_]) rfl rfl rfl (fun _ _ => rfl) (fun b hb => ?_) ⟨rfl, h.chained⟩
  have h₁ := hf b hb
  have h₂ := hg b hb
  simp only [State.setStorage] at h₂ ⊢
  omega

theorem State.Sound.goto (h : σ.Sound project) {c : C} {k k' : Cache P} (hc : σ.cache c = some k)
    (hf : ∀ a, a ≠ 0 → f a + (k.owned.map (single a)).sum =
      σ.strong a + (k'.owned.map (single a)).sum)
    (hk : k'.Sound σ.log σ.objAt (σ.given c)) :
    State.Sound { σ with strong := f, cache := Function.update σ.cache c (some k') } project := by
  have hs := h.set (f := f) (c := c) (k := some k') (l := σ.given c) (fun a ha => ?_)
    (h.given c) (h.projected c) (h.ordered c) (by rintro _ ⟨⟩; exact hk) nofun
  · rwa [Function.update_eq_self] at hs
  · rw [State.owned, hc]
    exact hf a ha

/-- Unequal pointers lead to a `load_full`; equal ones mean that the storage holds the object at the
cached address, which is still the cached one. -/
theorem State.Sound.run (h : σ.Sound project) {c : C} (hc : σ.cache c = some k)
    (hs : Cache.step project σ c k = some σ') : σ'.Sound project := by
  have hk := h.caches c k hc
  cases hpc : k.pc with
  | read since =>
    simp only [Cache.step, hpc, Option.some.injEq] at hs
    subst hs
    simp only [Cache.Sound, hpc] at hk
    refine h.goto hc (fun a _ => ?_) ?_
    · split <;> simp only [Cache.owned, hpc]
    · split
      · exact ⟨hk.1, hk.2, Nat.le_refl _⟩
      · rename_i heq
        have heq : k.cached = σ.storage := not_not.1 heq
        refine ⟨hk.1, ?_⟩
        simp only [heq]
        exact h.chained.held hk.2
  | replace since new =>
    simp only [Cache.step, hpc, Option.some.injEq] at hs
    subst hs
    obtain ⟨f, he, hf⟩ := exists_dec σ k.cached
    rw [he]
    simp only [Cache.Sound, hpc] at hk
    refine h.goto hc (fun a ha => ?_) hk
    have hledger := h.ledger a ha
    have hmem : k.cached ∈ σ.owned c := by
      rw [State.owned, hc]
      simp [Cache.owned, hpc]
    have hle := Concurrent.le_total (w := single a) hmem
    simp only [Cache.owned, hpc, hf a ha, List.map_cons, List.map_nil, List.sum_cons, List.sum_nil]
    omega
  | assign since new =>
    simp only [Cache.step, hpc, Option.some.injEq] at hs
    subst hs
    simp only [Cache.Sound, hpc] at hk
    exact h.goto hc (fun a _ => by simp only [Cache.owned, hpc]) hk
  | give since =>
    simp only [Cache.Sound, hpc] at hk
    obtain ⟨htill, hheld⟩ := hk
    have give : ∀ pr u, (∀ v ∈ u, ∃ p, v = (project p (σ.objAt k.cached)).1) → State.Sound { σ with
        cache := Function.update σ.cache c (some ⟨k.cached, pr, .lent⟩)
        given := Function.update σ.given c
          (⟨since, σ.log.length, σ.objAt k.cached, u⟩ :: σ.given c) } project := by
      intro pr u hu
      refine h.set (f := σ.strong) (fun a _ => ?_) ?_ ?_ ?_ ?_ nofun
      · rw [State.owned, hc]
        simp only [Option.elim, Cache.owned, hpc]
      · rw [List.forall_mem_cons]
        exact ⟨⟨hheld, Nat.le_refl _⟩, h.given c⟩
      · rw [List.forall_mem_cons]
        exact ⟨hu, h.projected c⟩
      · rw [List.pairwise_cons]
        exact ⟨htill, h.ordered c⟩
      · rintro _ ⟨⟩ g ⟨⟩
        rfl
    simp only [Cache.step, hpc] at hs
    split at hs
    · rename_i hp
      cases hs
      have hg := give none none nofun
      rw [← hp] at hg
      exact hg
    · cases hs
      exact give _ _ (by rintro _ ⟨⟩; exact ⟨_, rfl⟩)
  | _ => simp [Cache.step, hpc] at hs

theorem State.Sound.loaded (h : σ.Sound project) {c : C} (hc : σ.cache c = some k)
    (hk' : k'.Sound σ.log σ.objAt (σ.given c))
    (ho : k'.owned.Perm (a :: k.owned)) :
    ((σ.inc a).setCache c (some k')).Sound project := by
  obtain ⟨f, he, hf⟩ := exists_inc σ a
  rw [he]
  refine h.goto (f := f) hc (fun b hb => ?_) hk'
  rw [hf b hb, (ho.map (single b)).sum_eq, List.map_cons, List.sum_cons]
  omega

theorem State.Sound.step (h : σ.Sound project) (hs : State.step project act σ = some σ') : σ'.Sound project := by
  cases act with
  | alloc a => exact h.alloc hs
  | share a =>
    simp only [State.step] at hs
    split at hs <;> cases hs
    obtain ⟨f, he, hf⟩ := exists_inc σ a
    obtain ⟨g, he', hg⟩ := exists_addOther (σ.inc a) a
    rw [he', he]
    refine h.outside (n := []) rfl rfl rfl (fun _ _ => rfl) (fun b hb => ?_) h.chained
    have h₁ := hf b hb
    have h₂ := hg b hb
    rw [he] at h₂
    simp only at h₂ ⊢
    omega
  | release a =>
    simp only [State.step, Option.map_eq_some_iff] at hs
    obtain ⟨σ₁, h₁, rfl⟩ := hs
    obtain ⟨g, rfl, hg⟩ := exists_takeOther h₁
    obtain ⟨f, he, hf⟩ := exists_dec ({ σ with others := g } : State C P U) a
    rw [he]
    refine h.outside (n := []) rfl rfl rfl (fun _ _ => rfl) (fun b hb => ?_) h.chained
    have h₁ := hf b hb
    have h₂ := hg b hb
    have h₃ := h.ledger b hb
    simp only at h₁ ⊢
    omega
  | exchange new => exact h.exchange hs
  | new c =>
    simp only [State.step] at hs
    split at hs
    · rename_i hnone
      cases hs
      have hnone := Option.isNone_iff_eq_none.1 hnone
      have hgiven := h.absent c hnone
      have hset := h.set (f := σ.strong) (c := c) (k := some ⟨0, none, .new σ.log.length⟩)
        (l := σ.given c) (fun a _ => ?_) (h.given c) (h.projected c) (h.ordered c)
        (by rintro _ ⟨⟩; exact ⟨hgiven, Nat.le_refl _⟩) nofun
      · rwa [Function.update_eq_self] at hset
      · rw [State.owned, hnone]
        rfl
    · cases hs
  | load c =>
    simp only [State.step, Option.bind_eq_some_iff] at hs
    obtain ⟨k, hc, hs⟩ := hs
    split at hs
    · rename_i hpc
      cases hs
      refine h.goto hc (fun a _ => by simp only [Cache.owned, hpc]) ?_
      exact ⟨fun g hg => (h.given c g hg).2, Nat.le_refl _⟩
    · cases hs
  | run c =>
    simp only [State.step, Option.bind_eq_some_iff] at hs
    obtain ⟨k, hc, hs⟩ := hs
    exact h.run hc hs
  | loaded c a =>
    simp only [State.step, Option.bind_eq_some_iff] at hs
    obtain ⟨k, hc, hs⟩ := hs
    have hk := h.caches c k hc
    split at hs
    · rename_i full hpc
      split at hs <;> cases hs
      simp only [Cache.Sound, hpc] at hk
      refine h.loaded hc ?_ ?_
      · rw [hk.1]
        exact nofun
      · simp only [Cache.owned, hpc]
        exact .refl _
    · rename_i since full hpc
      split at hs <;> cases hs
      rename_i hl
      simp only [Cache.Sound, hpc] at hk
      refine h.loaded hc ⟨hk.1, hl.2.mono hk.2.1⟩ ?_
      simp only [Cache.owned, hpc]
      exact .swap ..
    · cases hs
  | done c =>
    simp only [State.step, Option.bind_eq_some_iff] at hs
    obtain ⟨k, hc, hs⟩ := hs
    split at hs
    · rename_i hpc
      cases hs
      have hk := h.caches c k hc
      simp only [Cache.Sound, hpc] at hk
      exact h.goto hc (fun a _ => by simp only [Cache.owned, hpc]) hk
    · cases hs
  | clone c d =>
    simp only [State.step, Option.bind_eq_some_iff] at hs
    obtain ⟨k, hc, hs⟩ := hs
    split at hs
    · rename_i hcond
      cases hs
      obtain ⟨hpc, hnone⟩ := hcond
      have hnone := Option.isNone_iff_eq_none.1 hnone
      obtain ⟨f, he, hf⟩ := exists_inc σ k.cached
      rw [he]
      refine h.set (f := f) (c := d) (k := some k) (fun a ha => ?_) (h.given c) (h.projected c) (h.ordered c) ?_ nofun
      · rw [State.owned, hnone, hf a ha]
        simp only [Option.elim, Cache.owned, hpc, List.map_cons, List.map_nil, List.sum_cons,
          List.sum_nil]
        omega
      · rintro _ ⟨⟩
        exact h.caches c k hc
    · cases hs
  | map c p =>
    simp only [State.step, Option.bind_eq_some_iff] at hs
    obtain ⟨k, hc, hs⟩ := hs
    split at hs
    · cases hs
      exact h.goto hc (fun a _ => rfl) (h.caches c k hc)
    · cases hs
  | drop c =>
    simp only [State.step, Option.bind_eq_some_iff] at hs
    obtain ⟨k, hc, hs⟩ := hs
    split at hs
    · rename_i hpc
      cases hs
      obtain ⟨f, he, hf⟩ := exists_dec σ k.cached
      rw [he]
      refine h.set (f := f) (c := c) (k := none) (l := []) (fun a ha => ?_) nofun nofun .nil nofun
        fun _ => rfl
      have hledger := h.ledger a ha
      have hmem : k.cached ∈ σ.owned c := by
        rw [State.owned, hc]
        simp [Cache.owned, hpc]
      have hle := Concurrent.le_total (w := single a) hmem
      rw [State.owned, hc, hf a ha]
      simp only [Option.elim, Cache.owned, hpc, List.map_cons, List.map_nil, List.sum_cons,
        List.sum_nil]
      omega
    · cases hs

theorem State.Sound.reach (hr : (machine project).Reach ok σ) : σ.Sound project := by
  refine hr.invariant (P := fun σ => σ.Sound project) ?_ fun _ _ _ h _ hs => h.step hs
  rintro _ ⟨a, rfl⟩
  refine ⟨fun b hb => ?_, ⟨rfl, rfl⟩, nofun, nofun, fun _ => .nil, nofun, fun _ _ => rfl⟩
  have hzero : Concurrent.total (single b) (State.initial a : State C P U).owned = 0 := by
    simp [Concurrent.total, State.owned, State.initial]
  rw [hzero]
  simp only [State.initial, single]
  by_cases hba : b = a
  · subst hba
    simp [hb]
  · simp [hba, Ne.symm hba]

/-- What a cache gives, and what a projection is applied to, is an object the storage held during
the call; the objects one cache gives come one after the other in the history of the storage; and
between the calls the cache owns one reference, to the object it gave last. -/
theorem cache_loads (hr : (machine project).Reach ok σ) :
    (∀ c, ∀ g ∈ σ.given c, Concurrent.HeldDuring σ.log g.since g.till g.obj ∧
      ∀ u ∈ g.projected, ∃ p, u = (project p g.obj).1) ∧
    (∀ c, ∃ version : Given U → Nat, (∀ g ∈ σ.given c, g.since ≤ version g ∧ version g ≤ g.till ∧
        Concurrent.HeldDuring σ.log (version g) (version g) g.obj) ∧
      (σ.given c).Pairwise fun g earlier => version earlier ≤ version g) ∧
    (∀ a, a ≠ 0 →
      σ.strong a = single a σ.storage + σ.others a + Concurrent.total (single a) σ.owned) ∧
    ∀ c k, σ.cache c = some k → k.pc = .idle ∨ k.pc = .lent → k.owned = [k.cached] ∧
      (k.cached = 0 ∨ 0 < σ.strong k.cached) ∧
      ∀ g ∈ (σ.given c).head?, g.obj = σ.objAt k.cached := by
  have h := State.Sound.reach hr
  refine ⟨fun c g hg => ⟨(h.given c g hg).1, h.projected c g hg⟩,
    fun c => Concurrent.exists_points (fun g hg => (h.given c g hg).1) (h.ordered c),
    h.ledger, fun c k hc hpc => ?_⟩
  have ho : k.owned = [k.cached] := by
    rcases hpc with hpc | hpc <;> simp only [Cache.owned, hpc]
  have hk := h.caches c k hc
  refine ⟨ho, h.strong_pos hc (by rw [ho]; exact List.mem_singleton.2 rfl), ?_⟩
  rcases hpc with hpc | hpc <;> simpa only [Cache.Sound, hpc] using hk

def results (σ : State (Fin 2) Unit Nat) : List (Obj × Option Nat) :=
  (σ.given 1).map fun g => (g.obj, g.projected)

/-- The object at 8 is stored away and its address used again before the mapped clone loads. -/
theorem cache_loads_reused : ∃ σ : State (Fin 2) Unit Nat,
    (machine fun p o => (o.2, p)).Reach (fun _ _ => True) σ ∧
      results σ = [((8, 2), some 2), ((16, 1), some 1), ((8, 1), some 1)] ∧
      ∃ version : Given Nat → Nat, (∀ g ∈ σ.given 1, g.since ≤ version g ∧ version g ≤ g.till ∧
          Concurrent.HeldDuring σ.log (version g) (version g) g.obj) ∧
        (σ.given 1).Pairwise fun g earlier => version earlier ≤ version g := by
  have hinit : (machine fun p o => (o.2, p)).Reach (fun _ _ => True)
      (State.initial 0 : State (Fin 2) Unit Nat) := .init ⟨0, rfl⟩
  have h : ((machine fun p o => (o.2, p)).exec (fun _ _ => True)
      ([.alloc 8, .exchange 8, .new 0, .loaded 0 8, .clone 0 1, .map 1 (), .load 1, .run 1, .run 1,
        .done 1, .alloc 16, .exchange 16, .drop 0, .release 8, .load 1, .run 1, .loaded 1 16, .run 1,
        .alloc 8, .exchange 8, .run 1, .run 1, .done 1, .load 1, .run 1, .loaded 1 8, .run 1, .run 1,
        .run 1].map fun a _ => some a) (State.initial 0 : State (Fin 2) Unit Nat)).any (fun σ =>
      results σ = [((8, 2), some 2), ((16, 1), some 1), ((8, 1), some 1)]) = true := by
    decide +kernel
  rw [Option.any_eq_true] at h
  obtain ⟨σ, hσ, hp⟩ := h
  have hr := hinit.exec hσ
  exact ⟨σ, hr, of_decide_eq_true hp, (cache_loads hr).2.1 1⟩

end ArcSwap.Caching
