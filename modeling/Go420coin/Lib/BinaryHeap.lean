import Mathlib.Order.Basic
import Mathlib.Tactic.Set

/-!
# Binary heaps on arrays, as `container/heap` keeps them

A heap is an array whose element at each position `c > 0` does not go before the element at
`parent c = (c - 1) / 2`, for an order given by `Less` on positions.  `up` moves an element towards
the root while it goes before its parent; `down` moves it towards the leaves while a child goes
before it, swapping with the child that goes first.  `Push`, `Pop`, `Remove`, `Fix` and `Init` are
built from the two, and each keeps the heap order and the elements.

The loops are written with fuel: `up` runs at most `j + 1` rounds from `j`, `down` at most `n`
rounds below `n`, which is as many as the loops can run, so the fuel never changes the result.
The order is any Boolean relation that is a strict weak order, as `Less` must be for `sort` and
`heap`.
-/

namespace BinaryHeap

variable {α : Type}

/-- A Boolean strict weak order: irreflexive and transitive, and so is its negation's failure to
hold (incomparability is transitive), which is what the heap order is transported along. -/
structure StrictWeakOrder (lt : α → α → Bool) : Prop where
  irrefl : ∀ a, lt a a = false
  trans : ∀ a b c, lt a b = true → lt b c = true → lt a c = true
  ntrans : ∀ a b c, lt a b = false → lt b c = false → lt a c = false

theorem StrictWeakOrder.asymm {lt : α → α → Bool} (h : StrictWeakOrder lt) {a b : α} (hab : lt a b = true) :
    lt b a = false := by
  cases hba : lt b a
  · rfl
  · have := h.irrefl a
    rw [h.trans a b a hab hba] at this
    exact absurd this (by decide)

variable (lt : α → α → Bool)

/-- `Less(i, j)` of `heap.Interface`: the element at `i` goes before the one at `j`. -/
def less (a : Array α) (i j : Nat) : Bool :=
  match a[i]?, a[j]? with
  | some x, some y => lt x y
  | _, _ => false

/-- The parent of a position, `(j - 1) / 2`. -/
def parent (j : Nat) : Nat := (j - 1) / 2

/-- The loop of `up`: at most `fuel` rounds from position `j`. -/
def upLoop : Nat → Array α → Nat → Array α
  | 0, a, _ => a
  | fuel + 1, a, j =>
    if parent j = j ∨ less lt a j (parent j) = false then a
    else upLoop fuel (a.swapIfInBounds (parent j) j) (parent j)

/-- `up`. -/
def up (a : Array α) (j : Nat) : Array α := upLoop lt (j + 1) a j

/-- The loop of `down` over the first `n` positions, at most `fuel` rounds from `i`; the position
the element ends at. -/
def downLoop : Nat → Array α → Nat → Nat → Array α × Nat
  | 0, a, i, _ => (a, i)
  | fuel + 1, a, i, n =>
    if n ≤ 2 * i + 1 then (a, i)
    else
      -- the child that goes first, the left one on a tie
      let j := if 2 * i + 2 < n ∧ less lt a (2 * i + 2) (2 * i + 1) = true then 2 * i + 2 else 2 * i + 1
      if less lt a j i then downLoop fuel (a.swapIfInBounds i j) j n else (a, i)

/-- `down`: the array, and whether the element moved. -/
def down (a : Array α) (i0 n : Nat) : Array α × Bool :=
  let r := downLoop lt n a i0 n
  (r.1, i0 < r.2)

/-- `Init`. -/
def init (a : Array α) : Array α :=
  let n := a.size
  (List.range (n / 2)).reverse.foldl (fun a i => (down lt a i n).1) a

/-- `Push`. -/
def push (a : Array α) (x : α) : Array α := up lt (a.push x) a.size

/-- `Pop`: the element taken out, and the heap without it. -/
def pop (a : Array α) : Option α × Array α :=
  let n := a.size - 1
  let a := (down lt (a.swapIfInBounds 0 n) 0 n).1
  (a.back?, a.pop)

/-- `down` at `i` over the first `n` positions, then `up` if the element did not move. -/
def fixOn (a : Array α) (i n : Nat) : Array α :=
  let r := down lt a i n
  if r.2 then r.1 else up lt r.1 i

/-- `Remove`: the last element is swapped in at `i` and put in place among the others. -/
def remove (a : Array α) (i : Nat) : Option α × Array α :=
  let n := a.size - 1
  let a := if n ≠ i then fixOn lt (a.swapIfInBounds i n) i n else a
  (a.back?, a.pop)

/-- `Fix`. -/
def fix (a : Array α) (i : Nat) : Array α := fixOn lt a i a.size

/-! ### Positions -/

theorem parent_lt {j : Nat} (h : 0 < j) : parent j < j := by
  unfold parent; omega

theorem parent_eq_self_iff {j : Nat} : parent j = j ↔ j = 0 := by
  unfold parent; omega

theorem parent_eq_iff {c i : Nat} (hc : 0 < c) : parent c = i ↔ c = 2 * i + 1 ∨ c = 2 * i + 2 := by
  unfold parent; omega

/-- The position a swap of `i` and `j` sends `x` to. -/
def swapIdx (i j x : Nat) : Nat := if x = i then j else if x = j then i else x

@[simp] theorem swapIdx_left (i j : Nat) : swapIdx i j i = j := by simp [swapIdx]

@[simp] theorem swapIdx_right (i j : Nat) : swapIdx i j j = i := by
  unfold swapIdx; split <;> simp_all

theorem swapIdx_of_ne {i j x : Nat} (hi : x ≠ i) (hj : x ≠ j) : swapIdx i j x = x := by
  simp [swapIdx, hi, hj]

theorem getElem?_swapIfInBounds (a : Array α) {i j : Nat} (hi : i < a.size) (hj : j < a.size) (x : Nat) :
    (a.swapIfInBounds i j)[x]? = a[swapIdx i j x]? := by
  simp only [Array.swapIfInBounds, hi, hj, dite_true, Array.getElem?_swap]
  by_cases hxi : x = i
  · subst hxi
    by_cases hxj : x = j
    · subst hxj; simp
    · simp [Ne.symm hxj, hj]
  · by_cases hxj : x = j
    · subst hxj; simp [hi]
    · simp [swapIdx_of_ne hxi hxj, Ne.symm hxi, Ne.symm hxj]

@[simp] theorem size_swapIfInBounds (a : Array α) (i j : Nat) : (a.swapIfInBounds i j).size = a.size :=
  Array.size_swapIfInBounds

theorem swapIfInBounds_perm (a : Array α) (i j : Nat) : (a.swapIfInBounds i j).Perm a := by
  unfold Array.swapIfInBounds
  split
  · split
    · exact Array.swap_perm _ _
    · exact Array.Perm.refl a
  · exact Array.Perm.refl a

theorem less_swapIfInBounds (a : Array α) {i j : Nat} (hi : i < a.size) (hj : j < a.size) (x y : Nat) :
    less lt (a.swapIfInBounds i j) x y = less lt a (swapIdx i j x) (swapIdx i j y) := by
  simp only [less, getElem?_swapIfInBounds a hi hj]

/-- A swap leaves every other position as it was. -/
theorem getElem?_swapIfInBounds_of_ne (a : Array α) {i j x : Nat} (hxi : x ≠ i) (hxj : x ≠ j) :
    (a.swapIfInBounds i j)[x]? = a[x]? := by
  unfold Array.swapIfInBounds
  split
  · split
    · simp [Array.getElem?_swap, Ne.symm hxi, Ne.symm hxj]
    · rfl
  · rfl

/-! ### The order on positions -/

section Order

variable {lt}

theorem less_irrefl (hlt : StrictWeakOrder lt) (a : Array α) (i : Nat) : less lt a i i = false := by
  unfold less
  split
  · rename_i x y hx hy
    rw [hx, Option.some_inj] at hy
    subst hy
    exact hlt.irrefl x
  · rfl

theorem less_asymm (hlt : StrictWeakOrder lt) {a : Array α} {i j : Nat} (h : less lt a i j = true) :
    less lt a j i = false := by
  unfold less at h ⊢
  split at h
  · rename_i x y hx hy
    simp only [hx, hy]
    exact hlt.asymm h
  · exact absurd h (by decide)

theorem less_trans (hlt : StrictWeakOrder lt) {a : Array α} {i j k : Nat} (hij : less lt a i j = true)
    (hjk : less lt a j k = true) : less lt a i k = true := by
  unfold less at hij hjk ⊢
  split at hij
  · rename_i x y hx hy
    split at hjk
    · rename_i y' z hy' hz
      rw [hy, Option.some_inj] at hy'
      subst hy'
      simp only [hx, hz]
      exact hlt.trans x y z hij hjk
    · exact absurd hjk (by decide)
  · exact absurd hij (by decide)

theorem less_ntrans (hlt : StrictWeakOrder lt) {a : Array α} {i j k : Nat} (hj : j < a.size)
    (hij : less lt a i j = false) (hjk : less lt a j k = false) : less lt a i k = false := by
  unfold less at hij hjk ⊢
  have ⟨y, hy⟩ : ∃ y, a[j]? = some y := ⟨a[j], Array.getElem?_eq_getElem hj⟩
  cases hx : a[i]? with
  | none => rfl
  | some x =>
    cases hz : a[k]? with
    | none => rfl
    | some z =>
      simp only [hx, hy] at hij
      simp only [hy, hz] at hjk
      exact hlt.ntrans x y z hij hjk

end Order

/-! ### The heap order -/

/-- The element at `c` does not go before its parent's. -/
def Ordered (a : Array α) (c : Nat) : Prop := less lt a c (parent c) = false

/-- The heap order below `n` for every pair whose parent is at `k` or later. -/
def HeapFrom (a : Array α) (k n : Nat) : Prop :=
  ∀ c, 0 < c → c < n → k ≤ parent c → Ordered lt a c

/-- A heap. -/
def IsHeap (a : Array α) : Prop := HeapFrom lt a 0 a.size

/-! ### `up` -/

/-- What `up` needs at position `j`: every pair but `j`'s own with its parent is in order, and
`j`'s children do not go before `j`'s parent. -/
structure UpInv (a : Array α) (j n : Nat) : Prop where
  lt_n : j < n
  le_size : n ≤ a.size
  except : ∀ c, 0 < c → c < n → c ≠ j → Ordered lt a c
  grand : 0 < j → ∀ c, 0 < c → c < n → parent c = j → less lt a c (parent j) = false

/-- When `up` stops, the heap order holds below `n`. -/
theorem UpInv.stop {a : Array α} {j n : Nat} (h : UpInv lt a j n)
    (hstop : parent j = j ∨ less lt a j (parent j) = false) : HeapFrom lt a 0 n := by
  intro c hc0 hcn _
  by_cases hcj : c = j
  · subst hcj
    rcases hstop with h0 | h0
    · exact absurd (parent_eq_self_iff.mp h0) (Nat.ne_of_gt hc0)
    · exact h0
  · exact h.except c hc0 hcn hcj

section Up

variable {lt} (hlt : StrictWeakOrder lt)
include hlt

/-- One round of `up`: the element and its parent swap, and the parent's position is the new one
to check. -/
theorem UpInv.swap {a : Array α} {j n : Nat} (h : UpInv lt a j n) (hj : 0 < j)
    (hless : less lt a j (parent j) = true) :
    UpInv lt (a.swapIfInBounds (parent j) j) (parent j) n := by
  have hp := parent_lt hj
  have hjn := h.lt_n
  have hjs : j < a.size := by have := h.le_size; omega
  have hps : parent j < a.size := by omega
  refine ⟨by omega, by simpa using h.le_size, ?_, ?_⟩
  · intro c hc0 hcn hcp
    unfold Ordered
    rw [less_swapIfInBounds lt a hps hjs]
    by_cases hcj : c = j
    · -- the pair of `j` and its parent, swapped
      subst hcj
      rw [swapIdx_right, swapIdx_left]
      exact less_asymm hlt hless
    · rw [swapIdx_of_ne hcp hcj]
      by_cases hpc : parent c = j
      · -- a child of `j`, under the old parent now
        rw [hpc, swapIdx_right]
        exact h.grand hj c hc0 hcn hpc
      · by_cases hpp : parent c = parent j
        · -- `j`'s sibling, under the element that moved up
          rw [hpp, swapIdx_left]
          have hs := h.except c hc0 hcn hcj
          unfold Ordered at hs
          rw [hpp] at hs
          cases hsj : less lt a c j
          · rfl
          · exact absurd (less_trans hlt hsj hless) (by rw [hs]; decide)
        · rw [swapIdx_of_ne hpp hpc]
          exact h.except c hc0 hcn hcj
  · intro hp0 c hc0 hcn hpc
    have hpp : parent (parent j) < parent j := parent_lt hp0
    rw [less_swapIfInBounds lt a hps hjs, swapIdx_of_ne (Nat.ne_of_lt hpp) (by omega)]
    have hgp := h.except (parent j) hp0 (by omega) (Nat.ne_of_lt hp)
    unfold Ordered at hgp
    by_cases hcj : c = j
    · subst hcj
      rw [swapIdx_right]
      exact hgp
    · -- the sibling stays at or after the old parent, which is at or after the grandparent
      have hcp : c ≠ parent j := by rw [← hpc]; exact Nat.ne_of_gt (parent_lt hc0)
      rw [swapIdx_of_ne hcp hcj]
      have hs := h.except c hc0 hcn hcj
      unfold Ordered at hs
      rw [hpc] at hs
      exact less_ntrans hlt hps hs hgp

theorem upLoop_heap : ∀ (fuel : Nat) {a : Array α} {j n : Nat}, UpInv lt a j n → j < fuel →
    HeapFrom lt (upLoop lt fuel a j) 0 n
  | 0, _, _, _, _, hf => absurd hf (Nat.not_lt_zero _)
  | fuel + 1, a, j, n, h, hf => by
    unfold upLoop
    split
    · exact UpInv.stop lt h ‹_›
    · rename_i hgo
      have hj : 0 < j := by
        rcases Nat.eq_zero_or_pos j with h0 | h0
        · exact absurd (Or.inl (parent_eq_self_iff.mpr h0)) hgo
        · exact h0
      have hless : less lt a j (parent j) = true := by
        cases hl : less lt a j (parent j)
        · exact absurd (Or.inr hl) hgo
        · rfl
      exact upLoop_heap fuel (h.swap hlt hj hless) (by have := parent_lt hj; omega)

theorem up_heap {a : Array α} {j n : Nat} (h : UpInv lt a j n) : HeapFrom lt (up lt a j) 0 n :=
  upLoop_heap hlt (j + 1) h (Nat.lt_succ_self j)

end Up

/-! ### `down` -/

/-- What `down` needs at position `i`, for the pairs whose parent is at `k` or later: every pair but
those of `i` with its children is in order, and `i`'s children do not go before `i`'s parent. -/
structure DownInv (a : Array α) (i k n : Nat) : Prop where
  le_i : k ≤ i
  le_size : n ≤ a.size
  except : ∀ c, 0 < c → c < n → k ≤ parent c → parent c ≠ i → Ordered lt a c
  grand : 0 < i → k ≤ parent i → ∀ c, 0 < c → c < n → parent c = i → less lt a c (parent i) = false

/-- The child `down` swaps with. -/
def firstChild (a : Array α) (i n : Nat) : Nat :=
  if 2 * i + 2 < n ∧ less lt a (2 * i + 2) (2 * i + 1) = true then 2 * i + 2 else 2 * i + 1

theorem parent_firstChild (a : Array α) (i n : Nat) : parent (firstChild lt a i n) = i := by
  unfold firstChild parent; split <;> omega

theorem firstChild_lt {a : Array α} {i n : Nat} (h : ¬ n ≤ 2 * i + 1) : firstChild lt a i n < n := by
  unfold firstChild; split <;> omega

theorem lt_firstChild (a : Array α) (i n : Nat) : i < firstChild lt a i n := by
  unfold firstChild; split <;> omega

/-- One round of `down`, with the child it picks named. -/
theorem downLoop_succ (fuel : Nat) (a : Array α) (i n : Nat) :
    downLoop lt (fuel + 1) a i n =
      if n ≤ 2 * i + 1 then (a, i)
      else if less lt a (firstChild lt a i n) i = true then
        downLoop lt fuel (a.swapIfInBounds i (firstChild lt a i n)) (firstChild lt a i n) n
      else (a, i) := rfl

section Down

variable {lt} (hlt : StrictWeakOrder lt)
include hlt

/-- No child of `i` goes before the child `down` picks. -/
theorem less_firstChild {a : Array α} {i n c : Nat} (hc0 : 0 < c) (hcn : c < n) (hpc : parent c = i) :
    less lt a c (firstChild lt a i n) = false := by
  rcases (parent_eq_iff hc0).mp hpc with rfl | rfl <;> unfold firstChild <;> split
  · rename_i h; exact less_asymm hlt h.2
  · exact less_irrefl hlt a _
  · exact less_irrefl hlt a _
  · rename_i h
    simp only [not_and] at h
    cases hl : less lt a (2 * i + 2) (2 * i + 1)
    · rfl
    · exact absurd hl (h hcn)

/-- One round of `down`: the element and the child that goes first swap, and the child's position
is the new one to check. -/
theorem DownInv.swap {a : Array α} {i k n : Nat} (h : DownInv lt a i k n) (hn : ¬ n ≤ 2 * i + 1)
    (hless : less lt a (firstChild lt a i n) i = true) :
    DownInv lt (a.swapIfInBounds i (firstChild lt a i n)) (firstChild lt a i n) k n := by
  set j := firstChild lt a i n with hjdef
  have hpj : parent j = i := parent_firstChild lt a i n
  have hjn : j < n := firstChild_lt lt hn
  have hij : i < j := by rw [hjdef]; unfold firstChild; split <;> omega
  have hjs : j < a.size := by have := h.le_size; omega
  have his : i < a.size := by omega
  have hki := h.le_i
  refine ⟨by omega, by simpa using h.le_size, ?_, ?_⟩
  · intro c hc0 hcn hkc hcj
    unfold Ordered
    rw [less_swapIfInBounds lt a his hjs]
    by_cases hcj' : c = j
    · -- the pair of the swapped element and the child that went up
      subst hcj'
      rw [swapIdx_right, hpj, swapIdx_left]
      exact less_asymm hlt hless
    · by_cases hci : c = i
      · -- `i` with its parent, which the child that went up does not go before
        subst hci
        have hp := parent_lt hc0
        rw [swapIdx_left, swapIdx_of_ne (Nat.ne_of_lt hp) (by omega)]
        exact h.grand hc0 hkc j (by omega) hjn hpj
      · rw [swapIdx_of_ne hci hcj']
        by_cases hpc : parent c = i
        · -- `j`'s sibling under the child that went up
          rw [hpc, swapIdx_left]
          exact less_firstChild hlt hc0 hcn hpc
        · rw [swapIdx_of_ne hpc hcj]
          exact h.except c hc0 hcn hkc hpc
  · intro _ _ c hc0 hcn hpc
    have hjc : j < c := by rw [← hpc]; exact parent_lt hc0
    rw [less_swapIfInBounds lt a his hjs, hpj, swapIdx_left, swapIdx_of_ne (by omega) (by omega)]
    -- `j`'s children did not go before `j`, which went up to `i`
    have hc := h.except c hc0 hcn (by omega) (by omega)
    unfold Ordered at hc
    rwa [hpc] at hc

/-- When `down` stops, the heap order holds for every pair whose parent is at `k` or later. -/
theorem DownInv.stop {a : Array α} {i k n : Nat} (h : DownInv lt a i k n)
    (hstop : n ≤ 2 * i + 1 ∨ less lt a (firstChild lt a i n) i = false) : HeapFrom lt a k n := by
  intro c hc0 hcn hkc
  by_cases hpc : parent c = i
  · -- a child of `i`: at or after the first child, which is at or after `i`
    rcases hstop with hno | hge
    · rcases (parent_eq_iff hc0).mp hpc with rfl | rfl <;> omega
    · unfold Ordered
      rw [hpc]
      have hn : ¬ n ≤ 2 * i + 1 := by rcases (parent_eq_iff hc0).mp hpc with rfl | rfl <;> omega
      exact less_ntrans hlt (by have := firstChild_lt lt (a := a) hn; have := h.le_size; omega)
        (less_firstChild hlt hc0 hcn hpc) hge
  · exact h.except c hc0 hcn hkc hpc

theorem downLoop_heap : ∀ (fuel : Nat) {a : Array α} {i k n : Nat}, DownInv lt a i k n → n - i ≤ fuel →
    HeapFrom lt (downLoop lt fuel a i n).1 k n
  | 0, a, i, k, n, h, hf => by
    unfold downLoop
    exact h.stop hlt (.inl (by omega))
  | fuel + 1, a, i, k, n, h, hf => by
    rw [downLoop_succ]
    split
    · exact h.stop hlt (.inl ‹_›)
    · rename_i hn
      have hij := lt_firstChild lt a i n
      split
      · rename_i hless
        exact downLoop_heap fuel (h.swap hlt hn hless) (by omega)
      · rename_i hless
        exact h.stop hlt (.inr (by simpa using hless))

end Down

/-! ### What the loops keep -/

section Frame

theorem upLoop_size : ∀ (fuel : Nat) (a : Array α) (j : Nat), (upLoop lt fuel a j).size = a.size
  | 0, _, _ => rfl
  | fuel + 1, a, j => by
    unfold upLoop
    split
    · rfl
    · rw [upLoop_size fuel, size_swapIfInBounds]

theorem upLoop_perm : ∀ (fuel : Nat) (a : Array α) (j : Nat), (upLoop lt fuel a j).Perm a
  | 0, a, _ => Array.Perm.refl a
  | fuel + 1, a, j => by
    unfold upLoop
    split
    · exact Array.Perm.refl a
    · exact (upLoop_perm fuel _ _).trans (swapIfInBounds_perm a _ _)

/-- `up` from `j` moves nothing after `j`. -/
theorem upLoop_getElem?_of_lt : ∀ (fuel : Nat) (a : Array α) {j x : Nat}, j < x →
    (upLoop lt fuel a j)[x]? = a[x]?
  | 0, _, _, _, _ => rfl
  | fuel + 1, a, j, x, hx => by
    unfold upLoop
    split
    · rfl
    · rename_i hgo
      have hj : 0 < j := by
        rcases Nat.eq_zero_or_pos j with h0 | h0
        · exact absurd (Or.inl (parent_eq_self_iff.mpr h0)) hgo
        · exact h0
      have hp := parent_lt hj
      rw [upLoop_getElem?_of_lt fuel _ (by omega), getElem?_swapIfInBounds_of_ne a (by omega) (by omega)]

theorem downLoop_size : ∀ (fuel : Nat) (a : Array α) (i n : Nat), (downLoop lt fuel a i n).1.size = a.size
  | 0, _, _, _ => rfl
  | fuel + 1, a, i, n => by
    rw [downLoop_succ]
    split
    · rfl
    · split
      · rw [downLoop_size fuel, size_swapIfInBounds]
      · rfl

theorem downLoop_perm : ∀ (fuel : Nat) (a : Array α) (i n : Nat), (downLoop lt fuel a i n).1.Perm a
  | 0, a, _, _ => Array.Perm.refl a
  | fuel + 1, a, i, n => by
    rw [downLoop_succ]
    split
    · exact Array.Perm.refl a
    · split
      · exact (downLoop_perm fuel _ _ _).trans (swapIfInBounds_perm a _ _)
      · exact Array.Perm.refl a

/-- `down` below `n` moves nothing at `n` or after. -/
theorem downLoop_getElem?_of_le : ∀ (fuel : Nat) (a : Array α) {i n x : Nat}, n ≤ x →
    (downLoop lt fuel a i n).1[x]? = a[x]?
  | 0, _, _, _, _, _ => rfl
  | fuel + 1, a, i, n, x, hx => by
    rw [downLoop_succ]
    split
    · rfl
    · rename_i hn
      have hj := firstChild_lt lt (a := a) hn
      split
      · rw [downLoop_getElem?_of_le fuel _ hx, getElem?_swapIfInBounds_of_ne a (by omega) (by omega)]
      · rfl

/-- `down` ends at or after where it started. -/
theorem le_downLoop : ∀ (fuel : Nat) (a : Array α) (i n : Nat), i ≤ (downLoop lt fuel a i n).2
  | 0, _, _, _ => Nat.le_refl _
  | fuel + 1, a, i, n => by
    rw [downLoop_succ]
    split
    · exact Nat.le_refl _
    · split
      · exact Nat.le_trans (Nat.le_of_lt (lt_firstChild lt a i n)) (le_downLoop fuel _ _ _)
      · exact Nat.le_refl _

/-- If `down` ends where it started, it changed nothing. -/
theorem downLoop_of_le : ∀ (fuel : Nat) (a : Array α) {i n : Nat}, (downLoop lt fuel a i n).2 ≤ i →
    downLoop lt fuel a i n = (a, i)
  | 0, _, _, _, _ => rfl
  | fuel + 1, a, i, n, h => by
    rw [downLoop_succ] at h ⊢
    split
    · rfl
    · rename_i hn
      rw [if_neg hn] at h
      split
      · rename_i hl
        rw [if_pos hl] at h
        have := Nat.lt_of_lt_of_le (lt_firstChild lt a i n)
          (le_downLoop lt fuel (a.swapIfInBounds i (firstChild lt a i n)) (firstChild lt a i n) n)
        omega
      · rfl

theorem fixOn_eq (a : Array α) (i n : Nat) :
    fixOn lt a i n = if i < (downLoop lt n a i n).2 then (downLoop lt n a i n).1 else up lt (downLoop lt n a i n).1 i := by
  simp [fixOn, down]

theorem fixOn_size (a : Array α) (i n : Nat) : (fixOn lt a i n).size = a.size := by
  rw [fixOn_eq]
  split
  · exact downLoop_size lt n a i n
  · rw [up, upLoop_size, downLoop_size]

theorem fixOn_perm (a : Array α) (i n : Nat) : (fixOn lt a i n).Perm a := by
  rw [fixOn_eq]
  split
  · exact downLoop_perm lt n a i n
  · exact (upLoop_perm lt _ _ _).trans (downLoop_perm lt n a i n)

/-- `fixOn` at `i < n` moves nothing at `n` or after. -/
theorem fixOn_getElem?_of_le (a : Array α) {i n x : Nat} (hi : i < n) (hx : n ≤ x) :
    (fixOn lt a i n)[x]? = a[x]? := by
  rw [fixOn_eq]
  split
  · exact downLoop_getElem?_of_le lt n a hx
  · rw [up, upLoop_getElem?_of_lt lt _ _ (by omega), downLoop_getElem?_of_le lt n a hx]

end Frame

theorem pop_push_of_back? {a : Array α} {x : α} (h : a.back? = some x) : a.pop.push x = a := by
  apply Array.ext_getElem?
  intro i
  have hs : 0 < a.size := by
    rcases Nat.eq_zero_or_pos a.size with h0 | h0
    · simp [Array.back?_eq_getElem?, Array.getElem?_eq_none (by omega : a.size ≤ a.size - 1)] at h
    · exact h0
  rw [Array.back?_eq_getElem?] at h
  simp only [Array.getElem?_push, Array.size_pop, Array.getElem?_pop]
  split
  · subst_vars; exact h.symm
  · split
    · rfl
    · rw [Array.getElem?_eq_none (by omega)]

theorem less_push (a : Array α) (x : α) {i j : Nat} (hi : i < a.size) (hj : j < a.size) :
    less lt (a.push x) i j = less lt a i j := by
  simp [less, Array.getElem?_push_lt hi, Array.getElem?_push_lt hj, Array.getElem?_eq_getElem hi,
    Array.getElem?_eq_getElem hj]

theorem less_pop (a : Array α) {i j : Nat} (hi : i < a.size - 1) (hj : j < a.size - 1) :
    less lt a.pop i j = less lt a i j := by
  have hi' : i < a.size := by omega
  have hj' : j < a.size := by omega
  simp [less, hi, hj, Array.getElem?_eq_getElem hi', Array.getElem?_eq_getElem hj']

theorem push_size (a : Array α) (x : α) : (push lt a x).size = a.size + 1 := by
  rw [push, up, upLoop_size, Array.size_push]

theorem push_perm (a : Array α) (x : α) : (push lt a x).Perm (a.push x) := upLoop_perm lt _ _ _

/-- The loop of `Init`, from position `m - 1` down to the root. -/
theorem initLoop_size (n : Nat) : ∀ (m : Nat) (a : Array α),
    ((List.range m).reverse.foldl (fun a i => (down lt a i n).1) a).size = a.size
  | 0, _ => rfl
  | m + 1, a => by
    rw [List.range_succ, List.reverse_append, List.reverse_singleton, List.singleton_append, List.foldl_cons,
      initLoop_size n m, down, downLoop_size]

theorem initLoop_perm (n : Nat) : ∀ (m : Nat) (a : Array α),
    ((List.range m).reverse.foldl (fun a i => (down lt a i n).1) a).Perm a
  | 0, a => Array.Perm.refl a
  | m + 1, a => by
    rw [List.range_succ, List.reverse_append, List.reverse_singleton, List.singleton_append, List.foldl_cons]
    exact (initLoop_perm n m _).trans (downLoop_perm lt _ _ _ _)

theorem init_size (a : Array α) : (init lt a).size = a.size := initLoop_size lt _ _ _

theorem init_perm (a : Array α) : (init lt a).Perm a := initLoop_perm lt _ _ _

/-! ### What `Pop` and `Remove` take out -/

/-- `Pop` takes out the root. -/
theorem pop_fst (a : Array α) : (pop lt a).1 = a[0]? := by
  unfold pop down
  rcases Nat.eq_zero_or_pos a.size with h0 | hs
  · rw [Array.eq_empty_of_size_eq_zero h0]
    rfl
  · simp only [Array.back?_eq_getElem?, downLoop_size, size_swapIfInBounds]
    rw [downLoop_getElem?_of_le lt _ _ (Nat.le_refl _), getElem?_swapIfInBounds a hs (by omega), swapIdx_right]

theorem pop_perm {a : Array α} {x : α} (hx : (pop lt a).1 = some x) : ((pop lt a).2.push x).Perm a := by
  unfold pop at hx ⊢
  rw [pop_push_of_back? hx]
  exact (downLoop_perm lt _ _ _ _).trans (swapIfInBounds_perm a _ _)

theorem remove_fst {a : Array α} {i : Nat} (hi : i < a.size) : (remove lt a i).1 = a[i]? := by
  unfold remove
  simp only [Array.back?_eq_getElem?]
  split
  · rename_i hne
    rw [fixOn_size, size_swapIfInBounds, fixOn_getElem?_of_le lt _ (by omega) (Nat.le_refl _),
      getElem?_swapIfInBounds a hi (by omega), swapIdx_right]
  · rename_i heq
    simp only [Decidable.not_not] at heq
    rw [heq]

theorem remove_perm {a : Array α} {i : Nat} {x : α} (hx : (remove lt a i).1 = some x) :
    ((remove lt a i).2.push x).Perm a := by
  unfold remove at hx ⊢
  rw [pop_push_of_back? hx]
  split
  · exact (fixOn_perm lt _ _ _).trans (swapIfInBounds_perm a _ _)
  · exact Array.Perm.refl a

/-! ### The operations keep the heap -/

/-- What `Fix` and `Remove` need at `i`: every pair that does not touch `i` is in order, and `i`'s
children do not go before `i`'s parent. -/
structure FixInv (a : Array α) (i n : Nat) : Prop where
  lt_n : i < n
  le_size : n ≤ a.size
  except : ∀ c, 0 < c → c < n → c ≠ i → parent c ≠ i → Ordered lt a c
  grand : 0 < i → ∀ c, 0 < c → c < n → parent c = i → less lt a c (parent i) = false

section Ops

variable {lt} (hlt : StrictWeakOrder lt)
include hlt

/-- A heap meets what `up` needs at any of its positions. -/
theorem UpInv.of_heap {a : Array α} {j n : Nat} (h : HeapFrom lt a 0 n) (hj : j < n) (hn : n ≤ a.size) :
    UpInv lt a j n where
  lt_n := hj
  le_size := hn
  except c hc0 hcn _ := h c hc0 hcn (Nat.zero_le _)
  grand hj0 c hc0 hcn hpc := by
    have hc := h c hc0 hcn (Nat.zero_le _)
    have hp := h j hj0 hj (Nat.zero_le _)
    unfold Ordered at hc hp
    rw [hpc] at hc
    exact less_ntrans hlt (by omega) hc hp

/-- The root of a heap: nothing goes before it. -/
theorem less_zero_of_heap {a : Array α} (h : IsHeap lt a) : ∀ c, c < a.size → less lt a c 0 = false := by
  intro c
  induction c using Nat.strongRecOn with
  | ind c ih =>
    intro hc
    rcases Nat.eq_zero_or_pos c with rfl | hc0
    · exact less_irrefl hlt a 0
    · have hp := parent_lt hc0
      exact less_ntrans hlt (by omega) (h c hc0 hc (Nat.zero_le _)) (ih (parent c) hp (by omega))

/-- The body of `Fix`: if the element goes before its parent, `down` leaves it and `up` takes it
up; otherwise `down` takes it down. -/
theorem fixOn_heap {a : Array α} {i n : Nat} (h : FixInv lt a i n) : HeapFrom lt (fixOn lt a i n) 0 n := by
  have hin := h.lt_n
  have hns := h.le_size
  rw [fixOn_eq]
  by_cases htop : 0 < i ∧ less lt a i (parent i) = true
  · -- no child goes before the element, so `down` stops at once
    have hkids : ∀ c, 0 < c → c < n → parent c = i → less lt a c i = false := by
      intro c hc0 hcn hpc
      have hn : ¬ n ≤ 2 * i + 1 := by rcases (parent_eq_iff hc0).mp hpc with rfl | rfl <;> omega
      have hfc : less lt a (firstChild lt a i n) i = false := by
        cases hl : less lt a (firstChild lt a i n) i
        · rfl
        · have := h.grand htop.1 _ (by have := lt_firstChild lt a i n; omega) (firstChild_lt lt hn)
            (parent_firstChild lt a i n)
          rw [less_trans hlt hl htop.2] at this
          exact absurd this (by decide)
      exact less_ntrans hlt (by have := firstChild_lt lt (a := a) hn; omega)
        (less_firstChild hlt hc0 hcn hpc) hfc
    have hstay : downLoop lt n a i n = (a, i) := by
      cases n with
      | zero => rfl
      | succ m =>
        rw [downLoop_succ]
        split
        · rfl
        · rename_i hn
          have := hkids _ (by have := lt_firstChild lt a i (m + 1); omega) (firstChild_lt lt hn)
            (parent_firstChild lt a i (m + 1))
          rw [if_neg (by simp [this])]
    rw [hstay, if_neg (Nat.lt_irrefl i)]
    exact up_heap hlt
      ⟨hin, hns, fun c hc0 hcn hci => if hpc : parent c = i then by unfold Ordered; rw [hpc]; exact hkids c hc0 hcn hpc
        else h.except c hc0 hcn hci hpc, h.grand⟩
  · -- the element does not go before its parent: `down` alone restores the order
    have hd : DownInv lt a i 0 n := by
      refine ⟨Nat.zero_le _, hns, ?_, fun hi _ => h.grand hi⟩
      intro c hc0 hcn _ hpc
      by_cases hci : c = i
      · subst hci
        unfold Ordered
        cases hl : less lt a c (parent c)
        · rfl
        · exact absurd ⟨hc0, hl⟩ htop
      · exact h.except c hc0 hcn hci hpc
    have hheap := downLoop_heap hlt n hd (Nat.sub_le n i)
    split
    · exact hheap
    · rename_i hmoved
      have heq := downLoop_of_le lt n a (Nat.le_of_not_lt hmoved)
      rw [heq] at hheap ⊢
      exact up_heap hlt (UpInv.of_heap hlt hheap hin hns)

theorem heap_push {a : Array α} (h : IsHeap lt a) (x : α) : IsHeap lt (push lt a x) := by
  unfold IsHeap push up
  rw [upLoop_size, Array.size_push]
  apply up_heap hlt
  refine ⟨Nat.lt_succ_self _, by simp, ?_, ?_⟩
  · intro c hc0 hcn hcs
    have hc : c < a.size := by omega
    unfold Ordered
    rw [less_push lt a x hc (by have := parent_lt hc0; omega)]
    exact h c hc0 hc (Nat.zero_le _)
  · intro _ c hc0 hcn hpc
    rcases (parent_eq_iff hc0).mp hpc with rfl | rfl <;> omega


/-- A heap with the element at `i` replaced meets what `Fix` needs at `i`. -/
theorem FixInv.of_set {a : Array α} (h : IsHeap lt a) {i : Nat} (hi : i < a.size) (x : α) :
    FixInv lt (a.setIfInBounds i x) i a.size := by
  have hless : ∀ c d, c ≠ i → d ≠ i → less lt (a.setIfInBounds i x) c d = less lt a c d := by
    intro c d hc hd
    simp only [less, Array.getElem?_setIfInBounds_ne (Ne.symm hc), Array.getElem?_setIfInBounds_ne (Ne.symm hd)]
  refine ⟨hi, by simp, ?_, ?_⟩
  · intro c hc0 hcn hci hpc
    unfold Ordered
    rw [hless c (parent c) hci hpc]
    exact h c hc0 hcn (Nat.zero_le _)
  · intro hi0 c hc0 hcn hpc
    have hp := parent_lt hi0
    have hc := h c hc0 hcn (Nat.zero_le _)
    have hip := h i hi0 hi (Nat.zero_le _)
    unfold Ordered at hc hip
    rw [hpc] at hc
    rw [hless c (parent i) (by rw [← hpc]; exact Nat.ne_of_gt (parent_lt hc0)) (Nat.ne_of_lt hp)]
    exact less_ntrans hlt hi hc hip

theorem heap_fix {a : Array α} {i : Nat} (h : FixInv lt a i a.size) : IsHeap lt (fix lt a i) := by
  unfold IsHeap fix
  rw [fixOn_size]
  exact fixOn_heap hlt h

theorem heap_pop {a : Array α} (h : IsHeap lt a) : IsHeap lt (pop lt a).2 := by
  unfold pop down
  dsimp only
  intro c hc0 hcn _
  simp only [Array.size_pop, downLoop_size, size_swapIfInBounds] at hcn
  have hp := parent_lt hc0
  have hn : 0 < a.size - 1 := by omega
  unfold Ordered
  rw [less_pop lt _ (by simp only [downLoop_size, size_swapIfInBounds]; omega)
    (by simp only [downLoop_size, size_swapIfInBounds]; omega)]
  -- the last element swapped in at the root and taken down restores the order below `n`
  refine downLoop_heap hlt (a.size - 1) ?_ (by omega) c hc0 hcn (Nat.zero_le _)
  refine ⟨Nat.le_refl _, by simp, ?_, fun h0 => absurd h0 (Nat.lt_irrefl 0)⟩
  intro d hd0 hdn _ hpd
  have hpd' := parent_lt hd0
  unfold Ordered
  rw [less_swapIfInBounds lt a (by omega) (by omega), swapIdx_of_ne (by omega) (by omega),
    swapIdx_of_ne hpd (by omega)]
  exact h d hd0 (by omega) (Nat.zero_le _)

/-- Nothing in a heap goes before what `Pop` takes out. -/
theorem pop_min {a : Array α} (h : IsHeap lt a) {x : α} (hx : (pop lt a).1 = some x) :
    ∀ y ∈ a, lt y x = false := by
  intro y hy
  obtain ⟨c, hc⟩ := Array.mem_iff_getElem?.mp hy
  rw [pop_fst] at hx
  have hcs : c < a.size := by
    rcases Nat.lt_or_ge c a.size with h' | h'
    · exact h'
    · rw [Array.getElem?_eq_none h'] at hc; cases hc
  have := less_zero_of_heap hlt h c hcs
  simpa [less, hc, hx] using this

theorem heap_remove {a : Array α} (h : IsHeap lt a) {i : Nat} (hi : i < a.size) : IsHeap lt (remove lt a i).2 := by
  unfold remove
  dsimp only
  split
  · rename_i hne
    have hin : i < a.size - 1 := by omega
    intro c hc0 hcn _
    simp only [Array.size_pop, fixOn_size, size_swapIfInBounds] at hcn
    have hp := parent_lt hc0
    unfold Ordered
    rw [less_pop lt _ (by simp only [fixOn_size, size_swapIfInBounds]; omega)
      (by simp only [fixOn_size, size_swapIfInBounds]; omega)]
    refine fixOn_heap hlt ?_ c hc0 hcn (Nat.zero_le _)
    -- the last element swapped in at `i`: every pair off `i` and off the end is as it was
    have hless : ∀ d e, d ≠ i → d ≠ a.size - 1 → e ≠ i → e ≠ a.size - 1 →
        less lt (a.swapIfInBounds i (a.size - 1)) d e = less lt a d e := by
      intro d e hdi hdn hei hen
      rw [less_swapIfInBounds lt a hi (by omega), swapIdx_of_ne hdi hdn, swapIdx_of_ne hei hen]
    refine ⟨hin, by simp, ?_, ?_⟩
    · intro d hd0 hdn hdi hpd
      unfold Ordered
      rw [hless d (parent d) hdi (by omega) hpd (by have := parent_lt hd0; omega)]
      exact h d hd0 (by omega) (Nat.zero_le _)
    · intro hi0 d hd0 hdn hpd
      have hpi := parent_lt hi0
      have hdi : i < d := by rw [← hpd]; exact parent_lt hd0
      rw [hless d (parent i) (by omega) (by omega) (by omega) (by omega)]
      have hd := h d hd0 (by omega) (Nat.zero_le _)
      have hip := h i hi0 hi (Nat.zero_le _)
      unfold Ordered at hd hip
      rw [hpd] at hd
      exact less_ntrans hlt hi hd hip
  · intro c hc0 hcn _
    simp only [Array.size_pop] at hcn
    have hp := parent_lt hc0
    unfold Ordered
    rw [less_pop lt _ (by omega) (by omega)]
    exact h c hc0 (by omega) (Nat.zero_le _)


/-- Each round of `Init` puts one more subtree in heap order, from the last parent to the root. -/
theorem initLoop_heap (n : Nat) : ∀ (m : Nat) (a : Array α), a.size = n → HeapFrom lt a m n →
    HeapFrom lt ((List.range m).reverse.foldl (fun a i => (down lt a i n).1) a) 0 n
  | 0, _, _, h => h
  | m + 1, a, hs, h => by
    rw [List.range_succ, List.reverse_append, List.reverse_singleton, List.singleton_append, List.foldl_cons]
    apply initLoop_heap n m _ (by rw [down, downLoop_size, hs])
    refine downLoop_heap hlt n ⟨Nat.le_refl m, by omega, ?_, ?_⟩ (Nat.sub_le n m)
    · intro c hc0 hcn hmc hpc
      exact h c hc0 hcn (by omega)
    · intro hm0 hmm
      exact absurd hmm (Nat.not_le.mpr (parent_lt hm0))

theorem heap_init (a : Array α) : IsHeap lt (init lt a) := by
  unfold IsHeap
  rw [init_size]
  apply initLoop_heap hlt a.size (a.size / 2) a rfl
  intro c hc0 hcn hkc
  unfold parent at hkc
  omega

end Ops

/-! ### The order is read on the elements only -/

theorem less_congr {lt' : α → α → Bool} {a : Array α} (h : ∀ x ∈ a, ∀ y ∈ a, lt x y = lt' x y) (i j : Nat) :
    less lt a i j = less lt' a i j := by
  unfold less
  cases hx : a[i]? with
  | none => rfl
  | some x =>
    cases hy : a[j]? with
    | none => rfl
    | some y => exact h x (Array.mem_of_getElem? hx) y (Array.mem_of_getElem? hy)

/-- Two orders that agree on the elements have the same heaps. -/
theorem IsHeap.congr {lt' : α → α → Bool} {a : Array α} (h : ∀ x ∈ a, ∀ y ∈ a, lt x y = lt' x y)
    (ha : IsHeap lt a) : IsHeap lt' a := by
  intro c hc0 hcn hk
  unfold Ordered
  rw [← less_congr lt h]
  exact ha c hc0 hcn hk

end BinaryHeap
