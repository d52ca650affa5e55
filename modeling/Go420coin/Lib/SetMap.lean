import Mathlib.Data.Finset.Card
import Mathlib.Logic.Function.Basic

/-!
# Maps of sets

A many-to-many relation kept as a map of sets, `map[K]map[V]struct{}` in Go: a key that is absent
reads as the empty set, adding to an absent key creates its set, deleting from an absent key does
nothing, and a set that has become empty stays in the map until it is pruned.  Here such a map is
`κ → Option (Finset α)`, `none` for an absent key.  `get` reads the set at a key; `add`, `erase` and
`prune` are the writes at one key, and `addWhere`, `eraseWhere` the loops that write every key of a
set the same way.  Each has the lemma that says what `get` reads after it and which keys it keeps.
-/

namespace SetMap

variable {κ α : Type*} [DecidableEq κ] [DecidableEq α]

/-- The set at a key, empty for an absent key. -/
def get (m : κ → Option (Finset α)) (k : κ) : Finset α := (m k).getD ∅

/-- `m[k][a] = struct{}{}`, creating the set at `k` if there is none. -/
def add (m : κ → Option (Finset α)) (k : κ) (a : α) : κ → Option (Finset α) :=
  Function.update m k (some (insert a (get m k)))

/-- `delete(m[k], a)`, which does nothing at an absent key. -/
def erase (m : κ → Option (Finset α)) (k : κ) (a : α) : κ → Option (Finset α) :=
  match m k with
  | some s => Function.update m k (some (s.erase a))
  | none => m

/-- `if len(m[k]) == 0 { delete(m, k) }`. -/
def prune (m : κ → Option (Finset α)) (k : κ) : κ → Option (Finset α) :=
  if (get m k).card = 0 then Function.update m k none else m

/-- `m[k][a] = struct{}{}` for every key `k` with `p k`: the rounds of such a loop write different
keys, so each key ends as its own round leaves it. -/
def addWhere (m : κ → Option (Finset α)) (p : κ → Prop) [DecidablePred p] (a : α) :
    κ → Option (Finset α) :=
  fun k => if p k then add m k a k else m k

/-- `delete(m[k], a); if len(m[k]) == 0 { delete(m, k) }` for every key `k` with `p k`. -/
def eraseWhere (m : κ → Option (Finset α)) (p : κ → Prop) [DecidablePred p] (a : α) :
    κ → Option (Finset α) :=
  fun k => if p k then prune (erase m k a) k k else m k

variable {m : κ → Option (Finset α)} {k j : κ} {a x : α}

omit [DecidableEq α] in
@[simp] theorem get_update_none : get (Function.update m k none) j = if j = k then ∅ else get m j := by
  by_cases h : j = k
  · subst h; simp [get]
  · simp [get, h]

omit [DecidableEq α] in
@[simp] theorem get_update_some {s : Finset α} :
    get (Function.update m k (some s)) j = if j = k then s else get m j := by
  by_cases h : j = k
  · subst h; simp [get]
  · simp [get, h]

@[simp] theorem get_add : get (add m k a) j = if j = k then insert a (get m k) else get m j := by
  simp [add]

@[simp] theorem get_erase : get (erase m k a) j = if j = k then (get m k).erase a else get m j := by
  by_cases h : j = k
  · subst h
    cases hs : m j with
    | some s => simp [erase, get, hs]
    | none => simp [erase, get, hs]
  · cases hs : m k with
    | some s => simp [erase, hs, h]
    | none => simp [erase, hs, h]

omit [DecidableEq α] in
/-- Pruning changes no set: it only deletes a key whose set is empty. -/
@[simp] theorem get_prune : get (prune m k) j = get m j := by
  unfold prune
  split
  · rename_i h
    by_cases hj : j = k
    · subst hj; simp [Finset.card_eq_zero.mp h]
    · simp [hj]
  · rfl

@[simp] theorem get_addWhere {p : κ → Prop} [DecidablePred p] :
    get (addWhere m p a) j = if p j then insert a (get m j) else get m j := by
  by_cases h : p j <;> simp [addWhere, get, h]
  simpa [get] using (get_add (m := m) (k := j) (j := j) (a := a))

@[simp] theorem get_eraseWhere {p : κ → Prop} [DecidablePred p] :
    get (eraseWhere m p a) j = if p j then (get m j).erase a else get m j := by
  by_cases h : p j
  · have : get (prune (erase m j a) j) j = (get m j).erase a := by simp
    simpa [eraseWhere, get, h] using this
  · simp [eraseWhere, get, h]

theorem mem_get_add : x ∈ get (add m k a) j ↔ j = k ∧ x = a ∨ x ∈ get m j := by
  by_cases h : j = k
  · subst h; simp
  · simp [h]

/-! ### Which keys are present -/

theorem add_isSome : (add m k a j).isSome ↔ j = k ∨ (m j).isSome := by
  by_cases h : j = k
  · subst h; simp [add]
  · simp [add, h]

theorem erase_isSome : (erase m k a j).isSome = (m j).isSome := by
  cases hs : m k with
  | none => simp [erase, hs]
  | some s =>
    by_cases h : j = k
    · subst h; simp [erase, hs]
    · simp [erase, hs, h]

omit [DecidableEq α] in
theorem prune_isSome : (prune m k j).isSome ↔ (m j).isSome ∧ (j = k → 0 < (get m k).card) := by
  unfold prune
  split
  · rename_i h
    by_cases hj : j = k
    · subst hj; simp [h]
    · simp [hj]
  · rename_i h
    simp only [iff_self_and]
    intro _ _
    omega

end SetMap
