import Mathlib

/-!
# Binary search over a sorted list

`search n f` is the binary search of Go's `sort.Search`: it halves an interval `[i, j)` of `[0, n)`
until the interval is empty, and returns the first index at which `f` holds, or `n`, provided `f` is
false and then true on `[0, n)` (`FalseThenTrue`).  The interval invariant `Bounds` carries the loop
(`loop_bounds`), and the answer is the one index that the invariant allows (`search_eq_of`).

Over a list sorted strictly by a key, searching for the first key not below `k` (`AtLeast`) splits
the list into the keys below `k` and the others (`lt_of_mem_take_search`,
`not_lt_of_mem_drop_search`).  At that index, overwriting an entry of the same key, inserting before
the first greater key, or appending after the last key keeps the list sorted (`pairwise_set`,
`pairwise_insertIdx`).  Over a list sorted by `≤`, inserting at the first entry not below the new
one keeps it sorted (`pairwise_insert_search`).
-/

namespace Search

/-- The loop of `sort.Search` on `[i, j)`: test the midpoint and keep the half that holds the answer.
`fuel` bounds the iterations. -/
def loop (f : Nat → Bool) : Nat → Nat → Nat → Nat
  | 0, i, _ => i
  | fuel + 1, i, j =>
    if i < j then
      let h := (i + j) / 2
      if !f h then loop f fuel (h + 1) j else loop f fuel i h
    else i

/-- `sort.Search`: every iteration shrinks the interval, so `n` of them suffice. -/
def search (n : Nat) (f : Nat → Bool) : Nat := loop f n 0 n

example : search 5 (fun i => decide (3 ≤ i)) = 3 := by decide

/-- `f` is false and then true on `[0, n)`. -/
def FalseThenTrue (n : Nat) (f : Nat → Bool) : Prop :=
  ∀ a b, a ≤ b → b < n → f a = true → f b = true

/-- The interval invariant of the loop: `[i, j)` lies in `[0, n)`, and `f` is false left of it and
true right of it. -/
structure Bounds (n : Nat) (f : Nat → Bool) (i j : Nat) : Prop where
  le : i ≤ j
  le_n : j ≤ n
  below : ∀ k < i, f k = false
  above : ∀ k, j ≤ k → k < n → f k = true

section Loop

variable {n : Nat} {f : Nat → Bool}

theorem bounds_init (n : Nat) (f : Nat → Bool) : Bounds n f 0 n :=
  ⟨Nat.zero_le n, Nat.le_refl n, fun _ hk => absurd hk (Nat.not_lt_zero _), fun _ h h' => absurd h' (Nat.not_lt.2 h)⟩

/-- A false midpoint moves the left end past it. -/
theorem Bounds.right (hf : FalseThenTrue n f) {i j : Nat} (hb : Bounds n f i j) (hij : i < j)
    (hh : f ((i + j) / 2) = false) : Bounds n f ((i + j) / 2 + 1) j := by
  refine ⟨by omega, hb.le_n, fun k hk => ?_, hb.above⟩
  by_cases hki : k < i
  · exact hb.below k hki
  · -- a true value between `i` and the midpoint would make the midpoint true
    cases hfk : f k with
    | false => rfl
    | true =>
      have := hf k ((i + j) / 2) (by omega) (by have := hb.le_n; omega) hfk
      rw [hh] at this
      exact absurd this Bool.false_ne_true

/-- A true midpoint becomes the right end. -/
theorem Bounds.left (hf : FalseThenTrue n f) {i j : Nat} (hb : Bounds n f i j) (hij : i < j)
    (hh : f ((i + j) / 2) = true) : Bounds n f i ((i + j) / 2) :=
  ⟨by omega, by have := hb.le_n; omega, hb.below, fun k hk hkn => hf _ k hk hkn hh⟩

/-- The loop keeps the invariant, and with fuel for the width of the interval it ends on an empty
one. -/
theorem loop_bounds (hf : FalseThenTrue n f) :
    ∀ fuel i j, Bounds n f i j → j - i ≤ fuel → Bounds n f (loop f fuel i j) (loop f fuel i j)
  | 0, i, j, hb, hfuel => by
    have hji : j = i := by have := hb.le; omega
    subst hji
    exact hb
  | fuel + 1, i, j, hb, hfuel => by
    unfold loop
    by_cases hij : i < j
    · rw [if_pos hij]
      dsimp only
      cases hh : f ((i + j) / 2) with
      | false => exact loop_bounds hf fuel _ j (hb.right hf hij hh) (by omega)
      | true => exact loop_bounds hf fuel i _ (hb.left hf hij hh) (by omega)
    · rw [if_neg hij]
      have hji : j = i := by have := hb.le; omega
      subst hji
      exact hb

theorem search_bounds (hf : FalseThenTrue n f) : Bounds n f (search n f) (search n f) :=
  loop_bounds hf n 0 n (bounds_init n f) (by omega)

/-- The loop stays within its interval, whatever `f` is. -/
theorem loop_le (f : Nat → Bool) : ∀ fuel i j, i ≤ j → loop f fuel i j ≤ j
  | 0, _, _, h => h
  | fuel + 1, i, j, h => by
    unfold loop
    by_cases hij : i < j
    · rw [if_pos hij]
      dsimp only
      cases f ((i + j) / 2) with
      | false => exact loop_le f fuel _ j (by omega)
      | true => exact Nat.le_trans (loop_le f fuel i _ (by omega)) (by omega)
    · rw [if_neg hij]
      exact h

theorem search_le (n : Nat) (f : Nat → Bool) : search n f ≤ n := loop_le f n 0 n (Nat.zero_le n)

/-- `sort.Search` returns the first index at which `f` holds, or `n`. -/
theorem search_eq_of (hf : FalseThenTrue n f) {r : Nat} (hr : r ≤ n) (hbelow : ∀ k < r, f k = false)
    (hat : r < n → f r = true) : search n f = r := by
  have hb := search_bounds hf
  rcases Nat.lt_trichotomy (search n f) r with hlt | heq | hgt
  · have h1 := hbelow _ hlt
    rw [hb.above _ (Nat.le_refl _) (by omega)] at h1
    exact absurd h1 (by decide)
  · exact heq
  · have h1 := hb.below r hgt
    rw [hat (by have := hb.le_n; omega)] at h1
    exact absurd h1 (by decide)

end Loop

/-! ### Searching a list sorted by key -/

section Sorted

variable {α κ : Type*} [LT κ] {key : α → κ} {l : List α} {k : κ} {f : Nat → Bool}

/-- `f` tests whether the key at an index of `l` is not below `k`. -/
def AtLeast (key : α → κ) (l : List α) (k : κ) (f : Nat → Bool) : Prop :=
  ∀ i (hi : i < l.length), f i = true ↔ ¬ key l[i] < k

theorem lt_of_sorted (hs : l.Pairwise (key · < key ·)) {i j : Nat} (hi : i < l.length) (hj : j < l.length)
    (hij : i < j) : key l[i] < key l[j] :=
  List.pairwise_iff_getElem.1 hs i j hi hj hij

/-- Past an entry of key `k`, every key is above `k`. -/
theorem lt_of_mem_drop_succ (hs : l.Pairwise (key · < key ·)) {i : Nat} (hi : i < l.length)
    (hk : key l[i] = k) : ∀ a ∈ l.drop (i + 1), k < key a := by
  intro a ha
  obtain ⟨j, hj, rfl⟩ := List.mem_drop_iff_getElem.1 ha
  rw [← hk]
  exact lt_of_sorted hs hi _ (by omega)

theorem insertIdx_eq_take_drop {i : Nat} (x : α) : ∀ {l : List α}, i ≤ l.length →
    l.insertIdx i x = l.take i ++ x :: l.drop i := by
  induction i with
  | zero => intro l _; simp [List.insertIdx_zero]
  | succ i ih =>
    intro l hi
    cases l with
    | nil => simp at hi
    | cons a l =>
      rw [List.insertIdx_succ_cons, ih (by simpa using hi)]
      rfl

/-- Overwriting an entry with one of the same key keeps the list sorted. -/
theorem pairwise_set (hs : l.Pairwise (key · < key ·)) {i : Nat} (hi : i < l.length) {x : α}
    (hx : key x = key l[i]) : (l.set i x).Pairwise (key · < key ·) := by
  have hmap : (l.set i x).map key = l.map key := by
    rw [List.map_set, hx, ← List.getElem_map (f := key), List.set_getElem_self]
    simpa using hi
  rw [← List.pairwise_map, hmap, List.pairwise_map]
  exact hs

/-- Inserting an entry between the keys below it and the keys above it keeps the list sorted. -/
theorem pairwise_insertIdx (hs : l.Pairwise (key · < key ·)) {i : Nat} (hi : i ≤ l.length) {x : α}
    (htake : ∀ a ∈ l.take i, key a < key x) (hdrop : ∀ a ∈ l.drop i, key x < key a) :
    (l.insertIdx i x).Pairwise (key · < key ·) := by
  rw [insertIdx_eq_take_drop x hi]
  have hsplit := List.take_append_drop i l
  rw [← hsplit, List.pairwise_append] at hs
  obtain ⟨htk, hdr, hcross⟩ := hs
  refine List.pairwise_append.2 ⟨htk, List.pairwise_cons.2 ⟨hdrop, hdr⟩, fun a ha b hb => ?_⟩
  rcases List.mem_cons.1 hb with rfl | hb
  · exact htake a ha
  · exact hcross a ha b hb

section Order

variable [Trans (α := κ) (β := κ) (γ := κ) (· < ·) (· < ·) (· < ·)]

theorem falseThenTrue (hs : l.Pairwise (key · < key ·)) (hf : AtLeast key l k f) : FalseThenTrue l.length f := by
  intro a b hab hb ha
  rw [hf b hb]
  rw [hf a (by omega)] at ha
  intro hbk
  rcases Nat.lt_or_eq_of_le hab with hlt | rfl
  · exact ha (Trans.trans (lt_of_sorted hs (by omega) hb hlt) hbk)
  · exact ha hbk

theorem lt_of_lt_search (hs : l.Pairwise (key · < key ·)) (hf : AtLeast key l k f) {i : Nat}
    (hi : i < search l.length f) (hil : i < l.length) : key l[i] < k := by
  have h := (search_bounds (falseThenTrue hs hf)).below i hi
  by_contra hk
  rw [(hf i hil).2 hk] at h
  exact absurd h (by decide)

theorem not_lt_of_search_le (hs : l.Pairwise (key · < key ·)) (hf : AtLeast key l k f) {i : Nat}
    (hi : search l.length f ≤ i) (hil : i < l.length) : ¬ key l[i] < k :=
  (hf i hil).1 ((search_bounds (falseThenTrue hs hf)).above i hi hil)

/-- The keys before the index found are below `k`. -/
theorem lt_of_mem_take_search (hs : l.Pairwise (key · < key ·)) (hf : AtLeast key l k f) :
    ∀ a ∈ l.take (search l.length f), key a < k := by
  intro a ha
  obtain ⟨j, hj, rfl⟩ := List.mem_take_iff_getElem.1 ha
  exact lt_of_lt_search hs hf (by omega) _

/-- The keys from the index found on are not below `k`. -/
theorem not_lt_of_mem_drop_search (hs : l.Pairwise (key · < key ·)) (hf : AtLeast key l k f) :
    ∀ a ∈ l.drop (search l.length f), ¬ key a < k := by
  intro a ha
  obtain ⟨j, hj, rfl⟩ := List.mem_drop_iff_getElem.1 ha
  exact not_lt_of_search_le hs hf (by omega) _

/-- Past an entry whose key is not below `k` and is not `k`, every key is above `k`. -/
theorem lt_of_mem_drop_of_ne [Std.Trichotomous (α := κ) (· < ·)] (hs : l.Pairwise (key · < key ·)) {i : Nat} (hi : i < l.length)
    (hnot : ¬ key l[i] < k) (hne : key l[i] ≠ k) : ∀ a ∈ l.drop i, k < key a := by
  have hk : k < key l[i] := by
    rcases Std.lt_trichotomy k (key l[i]) with h | h | h
    · exact h
    · exact absurd h.symm hne
    · exact absurd h hnot
  intro a ha
  obtain ⟨j, hj, rfl⟩ := List.mem_drop_iff_getElem.1 ha
  rcases Nat.eq_zero_or_pos j with rfl | hj0
  · simpa using hk
  · exact Trans.trans hk (lt_of_sorted hs hi _ (by omega))

end Order

end Sorted

/-! ### Searching a list sorted by `≤` -/

section Monotone

variable {α : Type*} [LinearOrder α] {l : List α}

/-- Over a list sorted by `≤`, "the entry is not below `x`" is false and then true. -/
theorem falseThenTrue_le (hs : l.Pairwise (· ≤ ·)) (x d : α) :
    FalseThenTrue l.length fun i => decide (x ≤ l.getD i d) := by
  intro a b hab hb ha
  dsimp only at ha ⊢
  rw [decide_eq_true_eq, List.getD_eq_getElem?_getD, List.getElem?_eq_getElem (by omega), Option.getD_some] at ha
  rw [decide_eq_true_eq, List.getD_eq_getElem?_getD, List.getElem?_eq_getElem hb, Option.getD_some]
  rcases Nat.lt_or_eq_of_le hab with hlt | rfl
  · exact le_trans ha (List.pairwise_iff_getElem.1 hs a b (by omega) hb hlt)
  · exact ha

/-- Inserting `x` at the first index whose entry is not below it keeps a list sorted by `≤`. -/
theorem pairwise_insert_search (hs : l.Pairwise (· ≤ ·)) (x d : α) :
    (l.take (search l.length fun i => decide (x ≤ l.getD i d)) ++
      x :: l.drop (search l.length fun i => decide (x ≤ l.getD i d))).Pairwise (· ≤ ·) := by
  have hb := search_bounds (falseThenTrue_le hs x d)
  -- the entries before the index are below `x`, those from it on are not
  have htake : ∀ a ∈ l.take (search l.length fun i => decide (x ≤ l.getD i d)), a ≤ x := by
    intro a ha
    obtain ⟨j, hj, rfl⟩ := List.mem_take_iff_getElem.1 ha
    have hbelow := hb.below j (by omega)
    rw [decide_eq_false_iff_not, List.getD_eq_getElem?_getD, List.getElem?_eq_getElem (by omega), Option.getD_some,
      not_le] at hbelow
    exact le_of_lt hbelow
  have hdrop : ∀ a ∈ l.drop (search l.length fun i => decide (x ≤ l.getD i d)), x ≤ a := by
    intro a ha
    obtain ⟨j, hj, rfl⟩ := List.mem_drop_iff_getElem.1 ha
    have habove := hb.above _ (Nat.le_add_right _ j) (by omega)
    rwa [decide_eq_true_eq, List.getD_eq_getElem?_getD, List.getElem?_eq_getElem (by omega), Option.getD_some]
      at habove
  have hsplit := List.take_append_drop (search l.length fun i => decide (x ≤ l.getD i d)) l
  rw [← hsplit, List.pairwise_append] at hs
  obtain ⟨htk, hdr, hcross⟩ := hs
  refine List.pairwise_append.2 ⟨htk, List.pairwise_cons.2 ⟨hdrop, hdr⟩, fun a ha b hb => ?_⟩
  rcases List.mem_cons.1 hb with rfl | hb
  · exact htake a ha
  · exact hcross a ha b hb

end Monotone

end Search
