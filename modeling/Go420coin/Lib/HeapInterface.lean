import Go420coin.Lib.BinaryHeap

/-!
# `container/heap` over its interface

`container/heap` reaches its container only through `Len`, `Less`, `Swap`, `Push` and `Pop`.  The
functions here are its `up`, `down`, `Push`, `Pop` and `Remove` written against such an interface on
any state; `BinaryHeap` is the same algorithm on an array.

A container whose state is related to an array so that `Len` is its size, `Less` reads it and
`Swap` swaps it (`Simulates`) runs the interface heap as `BinaryHeap` runs on the array
(`upLoop_sim`, `downLoop_sim`, `fixOn_sim`, `push_sim`, `popDown_sim`, `removeFix_sim`), whatever
else its state records along the way: the relation may carry any invariant that `Swap` keeps.
-/

namespace HeapInterface

open BinaryHeap (parent)

/-- `heap.Interface` on a state `σ` holding elements of `α`; `pop` gives the element it takes off
the end, `none` where the container holds none there. -/
structure Interface (σ α : Type) where
  len : σ → Nat
  less : σ → Nat → Nat → Bool
  swap : σ → Nat → Nat → σ
  push : σ → α → σ
  pop : σ → Option α × σ

variable {σ α : Type} (H : Interface σ α)

/-- The loop of `up`: at most `fuel` rounds from position `j`. -/
def upLoop : Nat → σ → Nat → σ
  | 0, h, _ => h
  | fuel + 1, h, j =>
    if parent j = j ∨ H.less h j (parent j) = false then h
    else upLoop fuel (H.swap h (parent j) j) (parent j)

/-- `up`. -/
def up (h : σ) (j : Nat) : σ := upLoop H (j + 1) h j

/-- The loop of `down` over the first `n` positions, at most `fuel` rounds from `i`; the position
the element ends at. -/
def downLoop : Nat → σ → Nat → Nat → σ × Nat
  | 0, h, i, _ => (h, i)
  | fuel + 1, h, i, n =>
    if n ≤ 2 * i + 1 then (h, i)
    else
      let j := if 2 * i + 2 < n ∧ H.less h (2 * i + 2) (2 * i + 1) = true then 2 * i + 2 else 2 * i + 1
      if H.less h j i then downLoop fuel (H.swap h i j) j n else (h, i)

/-- `down`: the state, and whether the element moved. -/
def down (h : σ) (i0 n : Nat) : σ × Bool :=
  let r := downLoop H n h i0 n
  (r.1, i0 < r.2)

/-- `Push`: the container's `Push`, then `up` from its last position. -/
def push (h : σ) (x : α) : σ :=
  let h := H.push h x
  up H h (H.len h - 1)

/-- What `Pop` does before it calls the container's `Pop`: the last element swapped to the root
and taken down among the others. -/
def popDown (h : σ) : σ :=
  let n := H.len h - 1
  (down H (H.swap h 0 n) 0 n).1

/-- `Pop`. -/
def pop (h : σ) : Option α × σ := H.pop (popDown H h)

/-- `down` at `i` over the first `n` positions, then `up` if the element did not move. -/
def fixOn (h : σ) (i n : Nat) : σ :=
  let r := down H h i n
  if r.2 then r.1 else up H r.1 i

/-- What `Remove` does before it calls the container's `Pop`: the last element swapped in at `i` and
put in place among the others. -/
def removeFix (h : σ) (i : Nat) : σ :=
  let n := H.len h - 1
  if n ≠ i then fixOn H (H.swap h i n) i n else h

/-- `Remove`. -/
def remove (h : σ) (i : Nat) : Option α × σ := H.pop (removeFix H h i)

/-- The state `h` holds the array `a` whenever `R h a`: `Len` is its size, `Less` reads it, and
`Swap` swaps it and keeps the relation. -/
structure Simulates (lt : α → α → Bool) (R : σ → Array α → Prop) : Prop where
  len : ∀ {h a}, R h a → H.len h = a.size
  less : ∀ {h a i j}, R h a → i < a.size → j < a.size → H.less h i j = BinaryHeap.less lt a i j
  swap : ∀ {h a i j}, R h a → i < a.size → j < a.size → R (H.swap h i j) (a.swapIfInBounds i j)

section Sim

variable {H} {lt : α → α → Bool} {R : σ → Array α → Prop} (hs : Simulates H lt R)
include hs

theorem upLoop_sim : ∀ (fuel : Nat) {h : σ} {a : Array α} {j : Nat}, R h a → j < a.size →
    R (upLoop H fuel h j) (BinaryHeap.upLoop lt fuel a j)
  | 0, _, _, _, hr, _ => hr
  | fuel + 1, h, a, j, hr, hj => by
    have hp : parent j ≤ j := Nat.le_trans (Nat.div_le_self _ _) (Nat.sub_le _ _)
    have hl : H.less h j (parent j) = BinaryHeap.less lt a j (parent j) := hs.less hr hj (by omega)
    rw [upLoop, BinaryHeap.upLoop, hl]
    by_cases hstop : parent j = j ∨ BinaryHeap.less lt a j (parent j) = false
    · rw [if_pos hstop, if_pos hstop]
      exact hr
    · rw [if_neg hstop, if_neg hstop]
      -- one swap with the parent, related by `Swap`, then the loop from the parent
      refine upLoop_sim fuel (hs.swap hr (by omega) hj) ?_
      rw [BinaryHeap.size_swapIfInBounds]
      omega

/-- The child `down` compares with, on the state and on the array. -/
theorem child_sim {h : σ} {a : Array α} {i n : Nat} (hr : R h a) (hn : n ≤ a.size) :
    (if 2 * i + 2 < n ∧ H.less h (2 * i + 2) (2 * i + 1) = true then 2 * i + 2 else 2 * i + 1) =
      if 2 * i + 2 < n ∧ BinaryHeap.less lt a (2 * i + 2) (2 * i + 1) = true then 2 * i + 2 else 2 * i + 1 := by
  by_cases h2 : 2 * i + 2 < n
  · rw [hs.less hr (by omega) (by omega)]
  · simp only [h2, false_and, if_false]

theorem downLoop_sim : ∀ (fuel : Nat) {h : σ} {a : Array α} {i n : Nat}, R h a → n ≤ a.size →
    R (downLoop H fuel h i n).1 (BinaryHeap.downLoop lt fuel a i n).1 ∧
      (downLoop H fuel h i n).2 = (BinaryHeap.downLoop lt fuel a i n).2
  | 0, _, _, _, _, hr, _ => ⟨hr, rfl⟩
  | fuel + 1, h, a, i, n, hr, hn => by
    rw [downLoop, BinaryHeap.downLoop]
    by_cases hstop : n ≤ 2 * i + 1
    · rw [if_pos hstop, if_pos hstop]
      exact ⟨hr, rfl⟩
    rw [if_neg hstop, if_neg hstop]
    dsimp only
    rw [child_sim hs hr hn]
    -- the child compared with is below `n` either way
    set j := if 2 * i + 2 < n ∧ BinaryHeap.less lt a (2 * i + 2) (2 * i + 1) = true then 2 * i + 2
      else 2 * i + 1 with hj_def
    have hj : j < n := by
      rw [hj_def]
      split_ifs with h2
      · exact h2.1
      · omega
    rw [hs.less hr (by omega) (by omega)]
    by_cases hmove : BinaryHeap.less lt a j i = true
    · rw [if_pos hmove, if_pos hmove]
      exact downLoop_sim fuel (hs.swap hr (by omega) (by omega)) (by rw [BinaryHeap.size_swapIfInBounds]; exact hn)
    · rw [if_neg hmove, if_neg hmove]
      exact ⟨hr, rfl⟩

theorem fixOn_sim {h : σ} {a : Array α} {i n : Nat} (hr : R h a) (hi : i < n) (hn : n ≤ a.size) :
    R (fixOn H h i n) (BinaryHeap.fixOn lt a i n) := by
  obtain ⟨hr', he⟩ := downLoop_sim hs n (i := i) hr hn
  unfold fixOn BinaryHeap.fixOn down BinaryHeap.down
  dsimp only
  rw [he]
  by_cases hmoved : i < (BinaryHeap.downLoop lt n a i n).2
  · rw [if_pos (decide_eq_true hmoved), if_pos (decide_eq_true hmoved)]
    exact hr'
  · rw [if_neg (by simpa using hmoved), if_neg (by simpa using hmoved)]
    exact upLoop_sim hs _ hr' (by rw [BinaryHeap.downLoop_size]; omega)

theorem push_sim {h : σ} {a : Array α} {x : α} (hr : R (H.push h x) (a.push x)) :
    R (push H h x) (BinaryHeap.push lt a x) := by
  unfold push BinaryHeap.push up BinaryHeap.up
  dsimp only
  rw [hs.len hr, Array.size_push, Nat.add_sub_cancel]
  exact upLoop_sim hs _ hr (by rw [Array.size_push]; omega)

/-- The state `Pop` hands the container holds the array `BinaryHeap.pop` takes the last element of. -/
theorem popDown_sim {h : σ} {a : Array α} (hr : R h a) (ha : 0 < a.size) :
    R (popDown H h) (BinaryHeap.down lt (a.swapIfInBounds 0 (a.size - 1)) 0 (a.size - 1)).1 := by
  unfold popDown down BinaryHeap.down
  dsimp only
  rw [hs.len hr]
  exact (downLoop_sim hs _ (hs.swap hr ha (by omega)) (by rw [BinaryHeap.size_swapIfInBounds]; omega)).1

/-- The state `Remove` hands the container holds the array `BinaryHeap.remove` takes the last element
of. -/
theorem removeFix_sim {h : σ} {a : Array α} {i : Nat} (hr : R h a) (hi : i < a.size) :
    R (removeFix H h i)
      (if a.size - 1 ≠ i then BinaryHeap.fixOn lt (a.swapIfInBounds i (a.size - 1)) i (a.size - 1) else a) := by
  unfold removeFix
  dsimp only
  rw [hs.len hr]
  split
  · rename_i hne
    exact fixOn_sim hs (hs.swap hr hi (by omega)) (by omega) (by rw [BinaryHeap.size_swapIfInBounds]; omega)
  · exact hr

end Sim

end HeapInterface
