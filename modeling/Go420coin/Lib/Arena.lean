import Mathlib.Logic.Function.Basic

/-!
# Arenas: objects at addresses, allocated once and written in place

An arena holds objects of type `α` at natural-number addresses, as a heap holds the objects behind
pointers.  `alloc` places an object at the first free address `next`; `modify` changes the object at
an address in place, as an assignment to a field through a pointer does.  Whoever holds an address
sees the writes made through any other holder of it.

* `Bounded`: there is no object at or past `next`.  Allocation and writes keep it.
* `Grows a a'`: every object of `a` is still there in `a'`, unchanged and at the same address, and
  `next` has not moved back.  It is a preorder (`Grows.refl`, `Grows.trans`); an allocation grows the
  arena (`grows_alloc`), and so does a write to an address allocated after `a` (`Grows.modify`).  An
  operation made of allocations and of writes to what it allocated itself therefore grows the arena:
  it changes none of the objects that existed before it (`Grows.get_of_bounded`).
-/

/-- Objects of type `α` at the addresses below `next`. -/
structure Arena (α : Type*) where
  next : Nat
  get : Nat → Option α

namespace Arena

variable {α : Type*}

/-- The arena with no objects. -/
def empty : Arena α := ⟨0, fun _ => none⟩

/-- Place `x` at the first free address, and return that address. -/
def alloc (a : Arena α) (x : α) : Nat × Arena α :=
  (a.next, ⟨a.next + 1, Function.update a.get a.next (some x)⟩)

/-- Change the object at `p` by `f`; an address with no object is left as it is. -/
def modify (a : Arena α) (p : Nat) (f : α → α) : Arena α :=
  match a.get p with
  | some x => { a with get := Function.update a.get p (some (f x)) }
  | none => a

@[simp] theorem alloc_fst (a : Arena α) (x : α) : (a.alloc x).1 = a.next := rfl

@[simp] theorem next_alloc (a : Arena α) (x : α) : (a.alloc x).2.next = a.next + 1 := rfl

theorem get_alloc (a : Arena α) (x : α) (p : Nat) :
    (a.alloc x).2.get p = if p = a.next then some x else a.get p := by
  simp only [alloc, Function.update_apply]

@[simp] theorem get_alloc_self (a : Arena α) (x : α) : (a.alloc x).2.get a.next = some x := by
  simp [get_alloc]

@[simp] theorem next_modify (a : Arena α) (p : Nat) (f : α → α) : (a.modify p f).next = a.next := by
  unfold modify
  split <;> rfl

theorem get_modify (a : Arena α) (p q : Nat) (f : α → α) :
    (a.modify p f).get q = if q = p then (a.get q).map f else a.get q := by
  unfold modify
  split
  · rename_i x hx
    by_cases hq : q = p
    · subst hq
      simp [hx]
    · simp [hq]
  · rename_i hx
    by_cases hq : q = p
    · subst hq
      simp [hx]
    · simp [hq]

/-- The object at `p` after `modify` at `p`. -/
@[simp] theorem get_modify_self (a : Arena α) (p : Nat) (f : α → α) :
    (a.modify p f).get p = (a.get p).map f := by
  simp [get_modify]

/-! ### Bounded arenas -/

/-- No object at or past `next`. -/
def Bounded (a : Arena α) : Prop := ∀ p, a.next ≤ p → a.get p = none

theorem bounded_empty : (empty : Arena α).Bounded := fun _ _ => rfl

/-- In a bounded arena an object stands below `next`. -/
theorem Bounded.lt_next {a : Arena α} (h : a.Bounded) {p : Nat} {x : α} (hp : a.get p = some x) : p < a.next := by
  by_contra hge
  rw [h p (Nat.le_of_not_lt hge)] at hp
  cases hp

theorem Bounded.alloc {a : Arena α} (h : a.Bounded) (x : α) : (a.alloc x).2.Bounded := by
  intro p hp
  simp only [next_alloc] at hp
  rw [get_alloc, if_neg (by omega)]
  exact h p (by omega)

theorem Bounded.modify {a : Arena α} (h : a.Bounded) (p : Nat) (f : α → α) : (a.modify p f).Bounded := by
  intro q hq
  rw [next_modify] at hq
  rw [get_modify, h q hq]
  by_cases hqp : q = p <;> simp [hqp]

/-! ### Growing an arena -/

/-- `a'` has every object of `a` at its address, allocates no lower, and stays bounded if `a` is. -/
structure Grows (a a' : Arena α) : Prop where
  next_le : a.next ≤ a'.next
  get_eq : ∀ p, p < a.next → a'.get p = a.get p
  bounded : a.Bounded → a'.Bounded

@[refl] theorem Grows.refl (a : Arena α) : a.Grows a := ⟨Nat.le_refl _, fun _ _ => rfl, id⟩

@[trans] theorem Grows.trans {a b c : Arena α} (hab : a.Grows b) (hbc : b.Grows c) : a.Grows c :=
  ⟨Nat.le_trans hab.next_le hbc.next_le,
    fun p hp => (hbc.get_eq p (Nat.lt_of_lt_of_le hp hab.next_le)).trans (hab.get_eq p hp),
    fun h => hbc.bounded (hab.bounded h)⟩

theorem grows_alloc (a : Arena α) (x : α) : a.Grows (a.alloc x).2 :=
  ⟨by simp, fun p hp => by rw [get_alloc, if_neg (by omega)], fun h => h.alloc x⟩

/-- A write to an address allocated after `a` keeps every object of `a`. -/
theorem Grows.modify {a b : Arena α} (h : a.Grows b) {p : Nat} (hp : a.next ≤ p) (f : α → α) :
    a.Grows (b.modify p f) :=
  ⟨by rw [next_modify]; exact h.next_le,
    fun q hq => by rw [get_modify, if_neg (by omega), h.get_eq q hq],
    fun hb => (h.bounded hb).modify p f⟩

/-- The objects of a bounded arena are there, unchanged, in every arena it grows into. -/
theorem Grows.get_of_bounded {a b : Arena α} (h : a.Grows b) (ha : a.Bounded) {p : Nat} {x : α}
    (hp : a.get p = some x) : b.get p = some x := by
  rw [h.get_eq p (ha.lt_next hp), hp]

end Arena
