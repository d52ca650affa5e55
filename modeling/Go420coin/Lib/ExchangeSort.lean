import Mathlib

/-!
# Exchange sort, and the removal of repeats

The in-place sort of two nested loops

    for i := 0; i < len(a); i++ {
        for j := i + 1; j < len(a); j++ {
            if a[i] > a[j] { a[i], a[j] = a[j], a[i] }
        }
    }

on lists.  For one `i` the inner loop carries the element found at `i` and exchanges it with every
smaller one it meets (`exchangeMin`): the minimum ends at `i`, and each displaced element takes the
place of the one it was exchanged with.  The outer loop then sorts what follows (`exchangeSort`, with
the length of the list as fuel).  The result is sorted and a permutation of the input
(`pairwise_exchangeSort`, `perm_exchangeSort`).

Deleting an element equal to the one before it and looking at the same position again keeps the
first of each run of equal elements: `List.destutter (· ≠ ·)`.  It keeps every element
(`mem_destutter_ne`), and on a sorted list it leaves a strictly increasing one
(`pairwise_lt_destutter`).  A strictly increasing list splits at every property closed downwards
(`exists_split`), in one way only (`split_unique`).
-/

namespace ExchangeSort

variable {α : Type*} [LinearOrder α]

/-- The inner loop, carrying the element `c` found at position `i`. -/
def exchangeMin (c : α) : List α → α × List α
  | [] => (c, [])
  | x :: xs =>
    if c > x then
      let r := exchangeMin x xs
      (r.1, c :: r.2)
    else
      let r := exchangeMin c xs
      (r.1, x :: r.2)

/-- The outer loop, with `fuel` positions left to fill. -/
def sortAux : Nat → List α → List α
  | 0, _ => []
  | _ + 1, [] => []
  | fuel + 1, x :: xs =>
    let r := exchangeMin x xs
    r.1 :: sortAux fuel r.2

/-- The exchange sort of a list. -/
def exchangeSort (l : List α) : List α := sortAux l.length l

example : exchangeSort [3, 1, 2, 1] = [1, 1, 2, 3] := by decide

/-- The inner loop moves the minimum to the front and keeps every other element. -/
theorem exchangeMin_perm (c : α) (xs : List α) :
    ((exchangeMin c xs).1 :: (exchangeMin c xs).2).Perm (c :: xs) := by
  induction xs generalizing c with
  | nil => simp [exchangeMin]
  | cons x xs ih =>
    by_cases h : c > x
    · simp only [exchangeMin, h, if_true]
      exact (List.Perm.swap c _ _).trans ((ih x).cons c)
    · simp only [exchangeMin, h, if_false]
      exact ((List.Perm.swap x _ _).trans ((ih c).cons x)).trans (List.Perm.swap c x xs)

theorem length_exchangeMin (c : α) (xs : List α) : (exchangeMin c xs).2.length = xs.length := by
  simpa using (exchangeMin_perm c xs).length_eq

/-- What the inner loop carries to the end is below the element it started with and below every
element it passed. -/
theorem exchangeMin_le (c : α) (xs : List α) :
    (exchangeMin c xs).1 ≤ c ∧ ∀ x ∈ xs, (exchangeMin c xs).1 ≤ x := by
  induction xs generalizing c with
  | nil => simp [exchangeMin]
  | cons x xs ih =>
    by_cases h : c > x
    · simp only [exchangeMin, h, if_true, List.forall_mem_cons]
      obtain ⟨hx, hxs⟩ := ih x
      exact ⟨hx.trans h.le, hx, hxs⟩
    · simp only [exchangeMin, h, if_false, List.forall_mem_cons]
      obtain ⟨hc, hxs⟩ := ih c
      exact ⟨hc, hc.trans (not_lt.mp h), hxs⟩

/-- The outer loop, by induction on the fuel: the minimum goes first, before the sorted rest. -/
theorem sortAux_spec : ∀ (fuel : Nat) (l : List α), l.length = fuel →
    (sortAux fuel l).Pairwise (· ≤ ·) ∧ (sortAux fuel l).Perm l
  | 0, l, h => by
    rw [List.length_eq_zero_iff.mp h]
    simp [sortAux]
  | fuel + 1, [], h => by simp at h
  | fuel + 1, x :: xs, h => by
    simp only [List.length_cons, Nat.add_right_cancel_iff] at h
    obtain ⟨hsorted, hperm⟩ := sortAux_spec fuel (exchangeMin x xs).2 (by rw [length_exchangeMin, h])
    have hmin : ∀ y ∈ (exchangeMin x xs).2, (exchangeMin x xs).1 ≤ y := by
      intro y hy
      have hy' : y ∈ x :: xs := (exchangeMin_perm x xs).subset (List.mem_cons_of_mem _ hy)
      rcases List.mem_cons.mp hy' with rfl | hy'
      · exact (exchangeMin_le y xs).1
      · exact (exchangeMin_le x xs).2 y hy'
    refine ⟨List.pairwise_cons.mpr ⟨fun y hy => hmin y (hperm.subset hy), hsorted⟩, ?_⟩
    exact (hperm.cons _).trans (exchangeMin_perm x xs)

theorem pairwise_exchangeSort (l : List α) : (exchangeSort l).Pairwise (· ≤ ·) :=
  (sortAux_spec l.length l rfl).1

theorem perm_exchangeSort (l : List α) : (exchangeSort l).Perm l :=
  (sortAux_spec l.length l rfl).2

/-! ### Repeats -/

section Destutter

variable {β : Type*} [DecidableEq β]

theorem mem_destutter'_ne {a x : β} : ∀ {l : List β}, x ∈ l.destutter' (· ≠ ·) a ↔ x = a ∨ x ∈ l
  | [] => by simp [List.destutter'_nil]
  | b :: l => by
    by_cases h : a = b
    · -- `b` repeats `a` and is dropped
      subst h
      rw [List.destutter'_cons_neg (h := not_not.mpr rfl), mem_destutter'_ne, List.mem_cons]
      tauto
    · rw [List.destutter'_cons_pos (h := h), List.mem_cons, mem_destutter'_ne, List.mem_cons]

/-- Dropping repeats keeps every element. -/
theorem mem_destutter_ne {x : β} : ∀ {l : List β}, x ∈ l.destutter (· ≠ ·) ↔ x ∈ l
  | [] => by simp
  | a :: l => by rw [List.destutter_cons', mem_destutter'_ne, List.mem_cons]

end Destutter

/-- A sorted list without repeats is strictly increasing. -/
theorem pairwise_lt_destutter {l : List α} (h : l.Pairwise (· ≤ ·)) : (l.destutter (· ≠ ·)).Pairwise (· < ·) := by
  have hle : (l.destutter (· ≠ ·)).IsChain (· ≤ ·) := (h.sublist (List.destutter_sublist _ l)).isChain
  have hne : (l.destutter (· ≠ ·)).IsChain (· ≠ ·) := List.isChain_destutter _ l
  -- neighbours are in order and different, so strictly in order, and `<` is transitive
  have hlt : (l.destutter (· ≠ ·)).IsChain (· < ·) := by
    generalize l.destutter (· ≠ ·) = m at hle hne
    induction hle with
    | nil => exact .nil
    | singleton a => exact .singleton a
    | cons_cons hab _ ih =>
      rw [List.isChain_cons_cons] at hne
      exact .cons_cons (lt_of_le_of_ne hab hne.1) (ih hne.2)
  exact List.isChain_iff_pairwise.mp hlt

/-! ### Splitting a sorted list -/

/-- A strictly increasing list splits into the elements with a property closed downwards and the
elements without it. -/
theorem exists_split {l : List α} (h : l.Pairwise (· < ·)) (p : α → Prop) (hp : ∀ x y, x ≤ y → p y → p x) :
    ∃ s t, l = s ++ t ∧ (∀ x ∈ s, p x) ∧ ∀ x ∈ t, ¬ p x := by
  induction l with
  | nil => exact ⟨[], [], rfl, by simp, by simp⟩
  | cons a l ih =>
    rw [List.pairwise_cons] at h
    by_cases ha : p a
    · obtain ⟨s, t, rfl, hs, ht⟩ := ih h.2
      refine ⟨a :: s, t, rfl, fun x hx => ?_, ht⟩
      rcases List.mem_cons.mp hx with rfl | hx
      · exact ha
      · exact hs x hx
    · -- every later element is larger than `a`, so it fails `p` too
      refine ⟨[], a :: l, rfl, by simp, fun x hx hpx => ?_⟩
      rcases List.mem_cons.mp hx with rfl | hx
      · exact ha hpx
      · exact ha (hp a x (h.1 x hx).le hpx)

/-- Two splits of one list at properties that agree on it are the same split. -/
theorem split_unique {β : Type*} {p q : β → Prop} {s t s' t' : List β} (h : s ++ t = s' ++ t')
    (hs : ∀ x ∈ s, p x) (ht : ∀ x ∈ t, ¬ p x) (hs' : ∀ x ∈ s', q x) (ht' : ∀ x ∈ t', ¬ q x)
    (hpq : ∀ x ∈ s ++ t, p x ↔ q x) : s = s' := by
  rcases List.append_eq_append_iff.mp h with ⟨a, rfl, ha⟩ | ⟨b, rfl, hb⟩
  · -- the first element `s'` has beyond `s` would be in `t`
    cases a with
    | nil => simp
    | cons x a =>
      subst ha
      exact absurd ((hpq x (by simp)).mpr (hs' x (by simp))) (ht x (by simp))
  · cases b with
    | nil => simp
    | cons x b =>
      subst hb
      exact absurd ((hpq x (by simp)).mp (hs x (by simp))) (ht' x (by simp))

end ExchangeSort
