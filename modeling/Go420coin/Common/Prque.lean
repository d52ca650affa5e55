import Mathlib
import Go420coin.Lib.HeapInterface

set_option linter.dupNamespace false

/-!
# The priority queue (`common/prque`)

`Prque` runs `container/heap` on an `sstack`, a stack kept in blocks of `blockSize` cells: `active`
is the block being filled and `offset` the next cell in it, a new block is added once the capacity
is reached, and a `Pop` past the start of a block steps back to the end of the block before.
`Less` compares priorities by the sign of their wrapping `int64` difference, and `Swap`, `Push` and
`Pop` tell a `SetIndexCallback`, if there is one, the new index of each item they move.

The stack holds a flat array (`Holds`): its first `size` cells, read block by block, are the array,
and the rest are nil.  Each of `Push`, `Pop` and `Swap` keeps that, and moves the array as
`heap.Interface` says, so the heap of `container/heap` on the stack is `BinaryHeap` on the array
(`HeapInterface.Simulates`).  With the priorities within a window of `2 ^ 63`, as the documentation
asks, the wrapping order is the order of the distances above the window's base, a strict weak
order, and the queue is a heap for it after every run (`reachable_inv`): `Pop` returns an item no
other goes before, and the items are those pushed and not taken out.  With a callback and values
that are never in the queue twice, the last index reported for each stored value is its position
(`Tracks`), and a value that leaves by `Pop` or `Remove` is last reported at `-1` until it is pushed
again.  `Reset` reports nothing.
-/

namespace Go420coin.Prque

open BinaryHeap (StrictWeakOrder IsHeap)

/-- `blockSize`. -/
def blockSize : Nat := 4096

theorem blockSize_pos : 0 < blockSize := by decide

/-- `item`. -/
structure Item (α : Type) where
  value : α
  priority : Int64

/-- `sstack`.  The slice `active` is one of `blocks`, kept here as its index; `reported` is what the
`SetIndexCallback` has been told: the last index given for each value. -/
structure Sstack (α : Type) where
  setIndex : Bool
  reported : α → Option Int
  size : Nat
  capacity : Nat
  offset : Nat
  blocks : Array (Array (Option (Item α)))
  active : Nat

/-- `a` comes before `b`: `(a - b) > 0` on `int64`, the difference wrapping. -/
def before (a b : Int64) : Bool := decide (0 < a - b)

variable {α : Type}

namespace Sstack

/-- `s.blocks[i/blockSize][i%blockSize]`; `none` for nil, and out of range, where Go panics. -/
def get (s : Sstack α) (i : Nat) : Option (Item α) :=
  ((s.blocks[i / blockSize]?).bind fun b => b[i % blockSize]?).join

/-- `s.blocks[i/blockSize][i%blockSize] = x`. -/
def set (s : Sstack α) (i : Nat) (x : Option (Item α)) : Sstack α :=
  { s with blocks := s.blocks.modify (i / blockSize) fun b => b.setIfInBounds (i % blockSize) x }

end Sstack

/-- `newSstack`; the callback keeps what it was told before. -/
def newSstack (setIndex : Bool) (reported : α → Option Int) : Sstack α where
  setIndex := setIndex
  reported := reported
  size := 0
  capacity := blockSize
  offset := 0
  blocks := #[Array.replicate blockSize none]
  active := 0

namespace Sstack

/-- `Less`. -/
def less (s : Sstack α) (i j : Nat) : Bool :=
  match s.get i, s.get j with
  | some x, some y => before x.priority y.priority
  | _, _ => false

section Report

variable [DecidableEq α]

/-- `setIndex(v, i)`, if there is a callback; `none` stands for a nil item, on which Go panics. -/
def report (s : Sstack α) (v : Option α) (i : Int) : Sstack α :=
  { s with reported := fun w => if s.setIndex = true ∧ v = some w then some i else s.reported w }

/-- `Push`. -/
def push (s : Sstack α) (data : Item α) : Sstack α :=
  let s :=
    if s.size = s.capacity then
      { s with blocks := s.blocks.push (Array.replicate blockSize none), active := s.blocks.size,
               capacity := s.capacity + blockSize, offset := 0 }
    else if s.offset = blockSize then { s with active := s.size / blockSize, offset := 0 }
    else s
  let s := s.report (some data.value) s.size
  { s with blocks := s.blocks.modify s.active (fun b => b.setIfInBounds s.offset (some data)),
           offset := s.offset + 1, size := s.size + 1 }

/-- `Pop`; `offset` is never negative between calls, so its `offset--` going below zero is
`offset = 0`. -/
def pop (s : Sstack α) : Option (Item α) × Sstack α :=
  let s := { s with size := s.size - 1 }
  let s := if s.offset = 0 then { s with offset := blockSize - 1, active := s.size / blockSize }
    else { s with offset := s.offset - 1 }
  let res := ((s.blocks[s.active]?).bind fun b => b[s.offset]?).join
  let s := { s with blocks := s.blocks.modify s.active fun b => b.setIfInBounds s.offset none }
  (res, s.report (res.map Item.value) (-1))

/-- `Swap`: the item from `j` is reported at `i`, the one from `i` at `j`, then both are stored. -/
def swap (s : Sstack α) (i j : Nat) : Sstack α :=
  let a := s.get j
  let b := s.get i
  let s := (s.report (a.map Item.value) i).report (b.map Item.value) j
  (s.set i a).set j b

/-- The `heap.Interface` of the stack. -/
def heap : HeapInterface.Interface (Sstack α) (Item α) where
  len s := s.size
  less := less
  swap := swap
  push := push
  pop := pop

end Report

end Sstack

/-- `Prque`. -/
structure Prque (α : Type) where
  cont : Sstack α

section Ops

variable [DecidableEq α]

/-- `New`. -/
def new (setIndex : Bool) (reported : α → Option Int) : Prque α := ⟨newSstack setIndex reported⟩

namespace Prque

/-- `Push`. -/
def push (p : Prque α) (data : α) (priority : Int64) : Prque α :=
  ⟨HeapInterface.push Sstack.heap p.cont ⟨data, priority⟩⟩

/-- `Peek`: `blocks[0][0]`. -/
def peek (p : Prque α) : Option (Item α) := p.cont.get 0

/-- `Pop`: the item, whose value and priority Go returns. -/
def pop (p : Prque α) : Option (Item α) × Prque α :=
  let r := HeapInterface.pop Sstack.heap p.cont
  (r.1, ⟨r.2⟩)

/-- `Remove`: nothing for a negative index. -/
def remove (p : Prque α) (i : Int) : Option (Item α) × Prque α :=
  if i < 0 then (none, p)
  else
    let r := HeapInterface.remove Sstack.heap p.cont i.toNat
    (r.1, ⟨r.2⟩)

/-- `Size`. -/
def size (p : Prque α) : Nat := p.cont.size

/-- `Reset`. -/
def reset (p : Prque α) : Prque α := new p.cont.setIndex p.cont.reported

end Prque

end Ops

/-! ### The fields the operations touch -/

namespace Sstack

section Report

variable [DecidableEq α] (s : Sstack α)

@[simp] theorem report_blocks (v : Option α) (i : Int) : (s.report v i).blocks = s.blocks := rfl
@[simp] theorem report_size (v : Option α) (i : Int) : (s.report v i).size = s.size := rfl
@[simp] theorem report_capacity (v : Option α) (i : Int) : (s.report v i).capacity = s.capacity := rfl
@[simp] theorem report_offset (v : Option α) (i : Int) : (s.report v i).offset = s.offset := rfl
@[simp] theorem report_active (v : Option α) (i : Int) : (s.report v i).active = s.active := rfl
@[simp] theorem report_setIndex (v : Option α) (i : Int) : (s.report v i).setIndex = s.setIndex := rfl
@[simp] theorem get_report (v : Option α) (i : Int) (k : Nat) : (s.report v i).get k = s.get k := rfl

theorem reported_report (v : Option α) (i : Int) (w : α) :
    (s.report v i).reported w = if s.setIndex = true ∧ v = some w then some i else s.reported w := rfl

/-- A report about another value leaves a value's record. -/
theorem reported_report_of_ne {v : Option α} {w : α} (h : v ≠ some w) (i : Int) :
    (s.report v i).reported w = s.reported w := by
  rw [reported_report, if_neg (fun hc => h hc.2)]

end Report

variable (s : Sstack α)

@[simp] theorem set_size (i : Nat) (x : Option (Item α)) : (s.set i x).size = s.size := rfl
@[simp] theorem set_capacity (i : Nat) (x : Option (Item α)) : (s.set i x).capacity = s.capacity := rfl
@[simp] theorem set_offset (i : Nat) (x : Option (Item α)) : (s.set i x).offset = s.offset := rfl
@[simp] theorem set_active (i : Nat) (x : Option (Item α)) : (s.set i x).active = s.active := rfl
@[simp] theorem set_setIndex (i : Nat) (x : Option (Item α)) : (s.set i x).setIndex = s.setIndex := rfl
@[simp] theorem set_reported (i : Nat) (x : Option (Item α)) : (s.set i x).reported = s.reported := rfl
@[simp] theorem size_set_blocks (i : Nat) (x : Option (Item α)) : (s.set i x).blocks.size = s.blocks.size :=
  Array.size_modify

/-! ### The block layout -/

theorem cell_div {c o : Nat} (ho : o < blockSize) : (c * blockSize + o) / blockSize = c := by
  unfold blockSize at *
  omega

theorem cell_mod {c o : Nat} (ho : o < blockSize) : (c * blockSize + o) % blockSize = o := by
  unfold blockSize at *
  omega

/-- The cell `o` of the block `c` is the cell `c * blockSize + o`. -/
theorem get_cell (c : Nat) {o : Nat} (ho : o < blockSize) :
    ((s.blocks[c]?).bind fun b => b[o]?).join = s.get (c * blockSize + o) := by
  rw [get, cell_div ho, cell_mod ho]

theorem set_cell (c : Nat) {o : Nat} (ho : o < blockSize) (x : Option (Item α)) :
    { s with blocks := s.blocks.modify c fun b => b.setIfInBounds o x } = s.set (c * blockSize + o) x := by
  rw [set, cell_div ho, cell_mod ho]

/-- Blocks of `blockSize` cells, as many as the capacity, and `active` and `offset` just past the
`size` cells in use. -/
structure Layout (s : Sstack α) : Prop where
  block_size : ∀ (k : Nat) (b : Array (Option (Item α))), s.blocks[k]? = some b → b.size = blockSize
  capacity_eq : s.capacity = s.blocks.size * blockSize
  active_lt : s.active < s.blocks.size
  size_eq : s.size = s.active * blockSize + s.offset
  offset_le : s.offset ≤ blockSize

variable {s}

theorem Layout.size_le (h : s.Layout) : s.size ≤ s.capacity := by
  have hact := h.active_lt
  have hoff := h.offset_le
  rw [h.size_eq, h.capacity_eq]
  calc s.active * blockSize + s.offset ≤ s.active * blockSize + blockSize := Nat.add_le_add_left hoff _
    _ = (s.active + 1) * blockSize := (Nat.succ_mul _ _).symm
    _ ≤ s.blocks.size * blockSize := Nat.mul_le_mul_right _ hact

theorem Layout.div_lt (h : s.Layout) {i : Nat} (hi : i < s.capacity) : i / blockSize < s.blocks.size := by
  rw [h.capacity_eq] at hi
  exact Nat.div_lt_of_lt_mul (by rwa [Nat.mul_comm] at hi)

theorem Layout.report [DecidableEq α] (h : s.Layout) (v : Option α) (i : Int) : (s.report v i).Layout :=
  ⟨h.block_size, h.capacity_eq, h.active_lt, h.size_eq, h.offset_le⟩

theorem Layout.set (h : s.Layout) (i : Nat) (x : Option (Item α)) : (s.set i x).Layout where
  block_size k b hb := by
    simp only [Sstack.set, Array.getElem?_modify] at hb
    split at hb
    · obtain ⟨b', hb', rfl⟩ := Option.map_eq_some_iff.1 hb
      rw [Array.size_setIfInBounds]
      exact h.block_size k b' hb'
    · exact h.block_size k b hb
  capacity_eq := by rw [set_capacity, size_set_blocks]; exact h.capacity_eq
  active_lt := by rw [set_active, size_set_blocks]; exact h.active_lt
  size_eq := h.size_eq
  offset_le := h.offset_le

/-- A store reads back at its cell and leaves the others. -/
theorem get_set (h : s.Layout) {i : Nat} (hi : i < s.capacity) (x : Option (Item α)) (k : Nat) :
    (s.set i x).get k = if k = i then x else s.get k := by
  unfold get set
  dsimp only
  rw [Array.getElem?_modify]
  by_cases hk : k = i
  · subst hk
    obtain ⟨b, hb⟩ : ∃ b, s.blocks[k / blockSize]? = some b :=
      ⟨_, Array.getElem?_eq_getElem (h.div_lt hi)⟩
    have hbs := h.block_size _ b hb
    rw [if_pos rfl, if_pos rfl, hb, Option.map_some, Option.bind_some, Array.getElem?_setIfInBounds,
      if_pos rfl, if_pos (by rw [hbs]; exact Nat.mod_lt _ blockSize_pos)]
    rfl
  · rw [if_neg hk]
    split
    · -- the same block: another cell of it
      rename_i hq
      have hr : i % blockSize ≠ k % blockSize := fun hr =>
        hk (by rw [← Nat.div_add_mod k blockSize, ← Nat.div_add_mod i blockSize, hq, hr])
      cases s.blocks[k / blockSize]? with
      | none => rfl
      | some b => simp only [Option.map_some, Option.bind_some, Array.getElem?_setIfInBounds, if_neg hr]
    · rfl

/-- A new block of nil cells reads as nil. -/
theorem get_push_block {t : Sstack α} (ht : t.blocks = s.blocks.push (Array.replicate blockSize none)) (k : Nat) :
    t.get k = s.get k := by
  unfold get
  rw [ht, Array.getElem?_push]
  split
  · rename_i hk
    rw [Array.getElem?_eq_none (by omega), Option.bind_some]
    simp only [Array.getElem?_replicate, Nat.mod_lt _ blockSize_pos, if_true]
    rfl
  · rfl

/-- Past the `size` cells in use there is a free cell in the blocks. -/
theorem Layout.size_lt (h : s.Layout) (ho : s.offset < blockSize) : s.size < s.capacity := by
  have hact := h.active_lt
  rw [h.size_eq, h.capacity_eq]
  calc s.active * blockSize + s.offset < s.active * blockSize + blockSize := Nat.add_lt_add_left ho _
    _ = (s.active + 1) * blockSize := (Nat.succ_mul _ _).symm
    _ ≤ s.blocks.size * blockSize := Nat.mul_le_mul_right _ hact

/-! ### The steps of `Push` and `Pop` -/

/-- The block `Push` writes to: a new one once the capacity is reached, the next one once the
active one is full. -/
def pushBlock (s : Sstack α) : Sstack α :=
  if s.size = s.capacity then
    { s with blocks := s.blocks.push (Array.replicate blockSize none), active := s.blocks.size,
             capacity := s.capacity + blockSize, offset := 0 }
  else if s.offset = blockSize then { s with active := s.size / blockSize, offset := 0 }
  else s

/-- The store at the end of `Push`. -/
def pushWrite (s : Sstack α) (data : Item α) : Sstack α :=
  { s with blocks := s.blocks.modify s.active (fun b => b.setIfInBounds s.offset (some data)),
           offset := s.offset + 1, size := s.size + 1 }

/-- The step back at the start of `Pop`. -/
def popBack (s : Sstack α) : Sstack α :=
  let s := { s with size := s.size - 1 }
  if s.offset = 0 then { s with offset := blockSize - 1, active := s.size / blockSize }
  else { s with offset := s.offset - 1 }

/-- The cell `Pop` reads. -/
def popCell (s : Sstack α) : Option (Item α) := ((s.blocks[s.active]?).bind fun b => b[s.offset]?).join

/-- `Pop` clearing the cell it read. -/
def popClear (s : Sstack α) : Sstack α :=
  { s with blocks := s.blocks.modify s.active fun b => b.setIfInBounds s.offset none }

theorem push_eq [DecidableEq α] (s : Sstack α) (data : Item α) :
    s.push data = (s.pushBlock.report (some data.value) s.pushBlock.size).pushWrite data := rfl

theorem pop_eq [DecidableEq α] (s : Sstack α) :
    s.pop = (s.popBack.popCell, s.popBack.popClear.report (s.popBack.popCell.map Item.value) (-1)) := rfl

end Sstack

/-! ### The stack holds an array -/

namespace Sstack

/-- The stack holds the array `a`: its cells, block by block, are `a` and then nil. -/
structure Holds (s : Sstack α) (a : Array (Item α)) : Prop where
  layout : s.Layout
  size_eq : s.size = a.size
  get_eq : ∀ i, s.get i = a[i]?

variable {s : Sstack α} {a : Array (Item α)}

theorem Holds.report [DecidableEq α] (h : s.Holds a) (v : Option α) (i : Int) : (s.report v i).Holds a :=
  ⟨h.layout.report v i, h.size_eq, h.get_eq⟩

theorem Holds.lt_capacity (h : s.Holds a) {i : Nat} (hi : i < a.size) : i < s.capacity := by
  have := h.layout.size_le
  rw [h.size_eq] at this
  omega

theorem Holds.swap [DecidableEq α] (h : s.Holds a) {i j : Nat} (hi : i < a.size) (hj : j < a.size) :
    (s.swap i j).Holds (a.swapIfInBounds i j) := by
  unfold Sstack.swap
  dsimp only
  have hl : ((s.report ((s.get j).map Item.value) i).report ((s.get i).map Item.value) j).Layout :=
    (h.layout.report _ _).report _ _
  have hl1 := hl.set i (s.get j)
  refine ⟨hl1.set _ _, ?_, fun k => ?_⟩
  · rw [set_size, set_size, report_size, report_size, BinaryHeap.size_swapIfInBounds]
    exact h.size_eq
  rw [get_set hl1 (h.lt_capacity hj), get_set hl (h.lt_capacity hi), get_report, get_report,
    BinaryHeap.getElem?_swapIfInBounds a hi hj, h.get_eq, h.get_eq, h.get_eq]
  unfold BinaryHeap.swapIdx
  -- the cell `j` now holds what was at `i`, the cell `i` what was at `j`
  by_cases hki : k = i
  · subst hki
    by_cases hkj : k = j
    · subst hkj
      simp
    · simp [hkj]
  · by_cases hkj : k = j
    · subst hkj
      simp [hki]
    · simp [hki, hkj]

theorem Holds.pushBlock (h : s.Holds a) : s.pushBlock.Holds a ∧ s.pushBlock.offset < blockSize := by
  have hl := h.layout
  unfold Sstack.pushBlock
  split_ifs with hfull hend
  · -- a new block of nil cells, once the capacity is reached
    refine ⟨⟨⟨?_, ?_, ?_, ?_, Nat.zero_le _⟩, h.size_eq, fun k => ?_⟩, blockSize_pos⟩
    · intro k b hb
      rw [Array.getElem?_push] at hb
      split at hb
      · cases hb
        exact Array.size_replicate
      · exact hl.block_size k b hb
    · simp only [Array.size_push, hl.capacity_eq, Nat.succ_mul]
    · simp
    · simp only [Nat.add_zero]
      rw [hfull, hl.capacity_eq]
    · rw [get_push_block rfl, h.get_eq]
  · -- the next block, once the active one is full
    have hsz := hl.size_eq
    have hlt : s.size < s.capacity := Nat.lt_of_le_of_ne hl.size_le hfull
    rw [hsz, hend, hl.capacity_eq] at hlt
    rw [hend] at hsz
    have hnext : s.active + 1 < s.blocks.size := by
      have : (s.active + 1) * blockSize < s.blocks.size * blockSize := by rw [Nat.succ_mul]; exact hlt
      exact Nat.lt_of_mul_lt_mul_right this
    have hdiv : s.size / blockSize = s.active + 1 := by
      rw [hsz, ← Nat.succ_mul, Nat.mul_div_cancel _ blockSize_pos]
    refine ⟨⟨⟨hl.block_size, hl.capacity_eq, ?_, ?_, Nat.zero_le _⟩, h.size_eq, h.get_eq⟩, blockSize_pos⟩
    · show s.size / blockSize < s.blocks.size
      rw [hdiv]
      exact hnext
    · show s.size = s.size / blockSize * blockSize + 0
      rw [hdiv, Nat.add_zero, Nat.succ_mul]
      exact hsz
  · exact ⟨h, Nat.lt_of_le_of_ne hl.offset_le hend⟩

/-- The store at the end of `Push`: with `active` and `offset` at a free cell, storing the item
there and counting it holds the array with the item added. -/
theorem Holds.pushWrite (h : s.Holds a) (ho : s.offset < blockSize) (x : Item α) :
    (s.pushWrite x).Holds (a.push x) := by
  have hl := h.layout
  have hset := s.set_cell s.active ho (some x)
  rw [← hl.size_eq] at hset
  have hcell : s.pushWrite x = { s.set s.size (some x) with offset := s.offset + 1, size := s.size + 1 } := by
    rw [← hset]
    rfl
  have hlset := hl.set s.size (some x)
  rw [hcell]
  refine ⟨⟨hlset.block_size, hlset.capacity_eq, hlset.active_lt, ?_, ?_⟩, ?_, fun k => ?_⟩
  · show s.size + 1 = s.active * blockSize + (s.offset + 1)
    rw [hl.size_eq]
    omega
  · exact ho
  · show s.size + 1 = (a.push x).size
    rw [Array.size_push, h.size_eq]
  · -- the new cell is the one at `size`
    show (s.set s.size (some x)).get k = (a.push x)[k]?
    rw [get_set hl (hl.size_lt ho), Array.getElem?_push, h.get_eq, h.size_eq]

theorem Holds.push [DecidableEq α] (h : s.Holds a) (x : Item α) : (s.push x).Holds (a.push x) := by
  obtain ⟨h1, ho⟩ := h.pushBlock
  rw [push_eq]
  exact (h1.report _ _).pushWrite ho x

theorem Holds.popBack (h : s.Holds a) (ha : 0 < a.size) :
    s.popBack.Layout ∧ s.popBack.offset < blockSize ∧ s.popBack.size + 1 = a.size ∧ ∀ k, s.popBack.get k = a[k]? := by
  have hl := h.layout
  have hsz := h.size_eq
  have hsa := hl.size_eq
  have hact := hl.active_lt
  unfold Sstack.popBack
  dsimp only
  split_ifs with ho
  · -- back to the end of the block before
    rw [ho, Nat.add_zero] at hsa
    have hpos : 0 < s.active := by
      rcases Nat.eq_zero_or_pos s.active with h0 | h0
      · rw [h0, Nat.zero_mul] at hsa
        omega
      · exact h0
    have hprev : (s.size - 1) / blockSize = s.active - 1 ∧ s.size - 1 = (s.active - 1) * blockSize + (blockSize - 1) := by
      rw [hsa]
      unfold blockSize
      constructor <;> omega
    refine ⟨⟨hl.block_size, hl.capacity_eq, ?_, ?_, Nat.sub_le _ _⟩, Nat.sub_lt blockSize_pos Nat.one_pos, ?_, h.get_eq⟩
    · show (s.size - 1) / blockSize < s.blocks.size
      rw [hprev.1]
      omega
    · show s.size - 1 = (s.size - 1) / blockSize * blockSize + (blockSize - 1)
      rw [hprev.1]
      exact hprev.2
    · show s.size - 1 + 1 = a.size
      omega
  · -- one cell down in the active block
    refine ⟨⟨hl.block_size, hl.capacity_eq, hact, ?_, ?_⟩, ?_, ?_, h.get_eq⟩
    · show s.size - 1 = s.active * blockSize + (s.offset - 1)
      omega
    · show s.offset - 1 ≤ blockSize
      exact Nat.le_trans (Nat.sub_le _ _) hl.offset_le
    · show s.offset - 1 < blockSize
      have := hl.offset_le
      omega
    · show s.size - 1 + 1 = a.size
      omega

/-- The end of `Pop`, once `active` and `offset` point at the last item: it reads that item and
clears its cell. -/
theorem popClear_holds {s : Sstack α} (hl : s.Layout) (ho : s.offset < blockSize) (hs : s.size + 1 = a.size)
    (hg : ∀ k, s.get k = a[k]?) : s.popCell = a.back? ∧ s.popClear.Holds a.pop := by
  have hcell : s.popCell = s.get s.size := by
    rw [popCell, s.get_cell s.active ho, hl.size_eq]
  have hclear : s.popClear = s.set s.size none := by
    rw [popClear, s.set_cell s.active ho, hl.size_eq]
  rw [hcell, hclear]
  refine ⟨?_, ⟨hl.set _ _, by rw [set_size, Array.size_pop]; omega, fun k => ?_⟩⟩
  · rw [hg, Array.back?_eq_getElem?, ← hs, Nat.add_sub_cancel]
  · rw [get_set hl (hl.size_lt ho), hg, Array.getElem?_pop]
    split_ifs with hk hk'
    · omega
    · rfl
    · rfl
    · have hk2 : a.size ≤ k := by omega
      exact Array.getElem?_eq_none hk2

theorem Holds.pop [DecidableEq α] (h : s.Holds a) (ha : 0 < a.size) :
    s.pop.1 = a.back? ∧ s.pop.2.Holds a.pop ∧
      s.pop.2 = s.popBack.popClear.report (a.back?.map Item.value) (-1) := by
  obtain ⟨hl, ho, hs, hg⟩ := h.popBack ha
  obtain ⟨hcell, hclear⟩ := popClear_holds hl ho hs hg
  rw [pop_eq, hcell]
  exact ⟨rfl, hclear.report _ _, rfl⟩

end Sstack

/-! ### The order within a window of priorities -/

/-- How far `p` lies above `b`, the difference wrapping: `p - b` read as unsigned. -/
def dist (b p : Int64) : Nat := ((p.toInt - b.toInt) % 2 ^ 64).toNat

/-- `p` lies in the window of `2 ^ 63` priorities from `b`. -/
def InWindow (b p : Int64) : Prop := dist b p < 2 ^ 63

instance (b p : Int64) : Decidable (InWindow b p) := inferInstanceAs (Decidable (dist b p < 2 ^ 63))

/-- The order of the window from `b`: the farther above `b`, the earlier. -/
def windowLess (b : Int64) (x y : Item α) : Bool := decide (dist b y.priority < dist b x.priority)

/-- Within a window the wrapping difference has the sign of the difference of the distances. -/
theorem before_eq {b p q : Int64} (hp : InWindow b p) (hq : InWindow b q) :
    before p q = decide (dist b q < dist b p) := by
  unfold before
  apply decide_eq_decide.2
  unfold InWindow dist at *
  rw [Int64.lt_iff_toInt_lt, Int64.toInt_sub]
  simp only [Int64.toInt_zero, Int.bmod, Int.natCast_pow, Int.cast_ofNat_Int]
  split <;> omega

theorem windowLess_strictWeakOrder (b : Int64) : StrictWeakOrder (windowLess b : Item α → Item α → Bool) where
  irrefl x := by simp [windowLess]
  trans x y z hxy hyz := by
    simp only [windowLess, decide_eq_true_eq] at *
    omega
  ntrans x y z hxy hyz := by
    simp only [windowLess, decide_eq_false_iff_not] at *
    omega

/-- On items in one window, `Less` is the window's order. -/
theorem before_eq_windowLess {b : Int64} {x y : Item α} (hx : InWindow b x.priority) (hy : InWindow b y.priority) :
    before x.priority y.priority = windowLess b x y :=
  before_eq hx hy

/-- Priorities whose spread, highest minus lowest, is below `2 ^ 63` lie in the window from the
lowest. -/
theorem inWindow_of_spread {b p : Int64} (hb : b.toInt ≤ p.toInt) (hp : p.toInt - b.toInt < 2 ^ 63) :
    InWindow b p := by
  unfold InWindow dist
  omega

/-! ### What the heap operations keep -/

/-- No value is stored twice. -/
def Distinct (a : Array (Item α)) : Prop := (a.toList.map Item.value).Nodup

/-- With a callback, the last index reported for each stored value is its position. -/
def Tracks [DecidableEq α] (s : Sstack α) (a : Array (Item α)) : Prop :=
  s.setIndex = true → ∀ (i : Nat) (x : Item α), a[i]? = some x → s.reported x.value = some (i : Int)

theorem Distinct.eq_of_value {a : Array (Item α)} (hd : Distinct a) {i j : Nat} {x y : Item α}
    (hi : a[i]? = some x) (hj : a[j]? = some y) (hv : x.value = y.value) : i = j := by
  -- the list of values reads `x.value` at `i` and `y.value` at `j`
  have hl : ∀ k : Nat, (a.toList.map Item.value)[k]? = a[k]?.map Item.value := by
    intro k
    simp
  have hi' : i < (a.toList.map Item.value).length := by
    rw [List.length_map, Array.length_toList]
    exact (Array.getElem?_eq_some_iff.1 hi).1
  exact (List.getElem?_inj hi' hd).1 (by rw [hl, hl, hi, hj, Option.map_some, Option.map_some, hv])

theorem Distinct.perm {a a' : Array (Item α)} (hd : Distinct a) (hp : a'.Perm a) : Distinct a' :=
  (hp.toList.map Item.value).nodup_iff.2 hd

/-- What the heap operations keep while they run on the stack, from the stack `s₀` they started on
and for the window from `b`: the stack holds the array, the priorities lie in the window, a value
not stored keeps its record in `s₀`, and, in a queue that never holds a value twice, each stored
value was last reported at its position. -/
structure Rel [DecidableEq α] (b : Int64) (s₀ : Sstack α) (fresh : Bool) (s : Sstack α)
    (a : Array (Item α)) : Prop where
  holds : s.Holds a
  window : ∀ x ∈ a, InWindow b x.priority
  setIndex_eq : s.setIndex = s₀.setIndex
  frame : ∀ v, (∀ x ∈ a, x.value ≠ v) → s.reported v = s₀.reported v
  distinct : fresh = true → Distinct a
  tracks : fresh = true → Tracks s a

section Sim

variable [DecidableEq α] {b : Int64} {s₀ : Sstack α} {fresh : Bool}

/-- The records after a swap: the value from `j` at `i`, then the value from `i` at `j`. -/
theorem reported_swap (s : Sstack α) (i j : Nat) (w : α) :
    (s.swap i j).reported w =
      if s.setIndex = true ∧ (s.get i).map Item.value = some w then some (j : Int)
      else if s.setIndex = true ∧ (s.get j).map Item.value = some w then some (i : Int)
      else s.reported w := rfl

/-- A swap of two stored values keeps each stored value's record its position, as long as no value
is stored twice. -/
theorem tracks_swap {s : Sstack α} {a : Array (Item α)} (h : s.Holds a) (hd : Distinct a) (ht : Tracks s a)
    {i j : Nat} (hi : i < a.size) (hj : j < a.size) : Tracks (s.swap i j) (a.swapIfInBounds i j) := by
  unfold Tracks at ht ⊢
  intro hset k x hk
  have hset' : s.setIndex = true := hset
  obtain ⟨xi, hxi⟩ : ∃ xi, a[i]? = some xi := ⟨_, Array.getElem?_eq_getElem hi⟩
  obtain ⟨xj, hxj⟩ : ∃ xj, a[j]? = some xj := ⟨_, Array.getElem?_eq_getElem hj⟩
  rw [BinaryHeap.getElem?_swapIfInBounds a hi hj] at hk
  rw [reported_swap, h.get_eq, h.get_eq, hxi, hxj, Option.map_some, Option.map_some]
  unfold BinaryHeap.swapIdx at hk
  by_cases hki : k = i
  · -- the cell `i` holds what was at `j`
    rw [if_pos hki] at hk
    have hx : x = xj := Option.some.inj (hk.symm.trans hxj)
    rw [hx]
    subst hki
    by_cases hv : xi.value = xj.value
    · have hij := hd.eq_of_value hxi hxj hv
      subst hij
      rw [if_pos ⟨hset', by rw [hv]⟩]
    · rw [if_neg (fun hc => hv (Option.some.inj hc.2)), if_pos ⟨hset', rfl⟩]
  · rw [if_neg hki] at hk
    by_cases hkj : k = j
    · -- the cell `j` holds what was at `i`
      rw [if_pos hkj] at hk
      have hx : x = xi := Option.some.inj (hk.symm.trans hxi)
      rw [hx, if_pos ⟨hset', rfl⟩, hkj]
    · -- any other cell keeps its item and its record
      rw [if_neg hkj] at hk
      have hvi : xi.value ≠ x.value := fun hv => hki (hd.eq_of_value hk hxi hv.symm)
      have hvj : xj.value ≠ x.value := fun hv => hkj (hd.eq_of_value hk hxj hv.symm)
      rw [if_neg (fun hc => hvi (Option.some.inj hc.2)), if_neg (fun hc => hvj (Option.some.inj hc.2))]
      exact ht hset' k x hk

/-- The stack runs `container/heap` as `BinaryHeap` runs on the array it holds, in the order of the
window. -/
theorem rel_simulates : HeapInterface.Simulates Sstack.heap (windowLess b) (Rel b s₀ fresh) where
  len h := h.holds.size_eq
  less {s a i j} h hi hj := by
    show Sstack.less s i j = _
    unfold Sstack.less BinaryHeap.less
    rw [h.holds.get_eq, h.holds.get_eq, Array.getElem?_eq_getElem hi, Array.getElem?_eq_getElem hj]
    exact before_eq_windowLess (h.window _ (Array.getElem_mem hi)) (h.window _ (Array.getElem_mem hj))
  swap {s a i j} h hi hj := by
    have hp := BinaryHeap.swapIfInBounds_perm a i j
    refine ⟨h.holds.swap hi hj, fun x hx => h.window x (hp.mem_iff.1 hx), h.setIndex_eq, fun v hv => ?_,
      fun hf => (h.distinct hf).perm hp, fun hf => tracks_swap h.holds (h.distinct hf) (h.tracks hf) hi hj⟩
    -- the swap reports only stored values
    have hv' : ∀ x ∈ a, x.value ≠ v := fun x hx => hv x (hp.mem_iff.2 hx)
    have hgi : (s.get i).map Item.value ≠ some v := by
      rw [h.holds.get_eq, Array.getElem?_eq_getElem hi, Option.map_some]
      exact fun hc => hv' _ (Array.getElem_mem hi) (Option.some.inj hc)
    have hgj : (s.get j).map Item.value ≠ some v := by
      rw [h.holds.get_eq, Array.getElem?_eq_getElem hj, Option.map_some]
      exact fun hc => hv' _ (Array.getElem_mem hj) (Option.some.inj hc)
    show (s.swap i j).reported v = s₀.reported v
    rw [reported_swap, if_neg (fun hc => hgi hc.2), if_neg (fun hc => hgj hc.2)]
    exact h.frame v hv'

end Sim

/-! ### The records `Push` and `Pop` leave -/

namespace Sstack

variable (s : Sstack α)

@[simp] theorem pushBlock_size : s.pushBlock.size = s.size := by
  unfold pushBlock
  split_ifs <;> rfl

@[simp] theorem pushBlock_setIndex : s.pushBlock.setIndex = s.setIndex := by
  unfold pushBlock
  split_ifs <;> rfl

@[simp] theorem pushBlock_reported : s.pushBlock.reported = s.reported := by
  unfold pushBlock
  split_ifs <;> rfl

@[simp] theorem popBack_setIndex : s.popBack.setIndex = s.setIndex := by
  unfold popBack
  dsimp only
  split_ifs <;> rfl

@[simp] theorem popBack_reported : s.popBack.reported = s.reported := by
  unfold popBack
  dsimp only
  split_ifs <;> rfl

@[simp] theorem popClear_setIndex : s.popClear.setIndex = s.setIndex := rfl

@[simp] theorem popClear_reported : s.popClear.reported = s.reported := rfl

section Report

variable [DecidableEq α]

theorem push_setIndex (x : Item α) : (s.push x).setIndex = s.setIndex := by
  rw [push_eq]
  exact s.pushBlock_setIndex

/-- `Push` reports the new value at the old size. -/
theorem reported_push (x : Item α) (w : α) :
    (s.push x).reported w = if s.setIndex = true ∧ x.value = w then some (s.size : Int) else s.reported w := by
  rw [push_eq]
  show (s.pushBlock.report (some x.value) s.pushBlock.size).reported w = _
  rw [reported_report, pushBlock_setIndex, pushBlock_size, pushBlock_reported]
  simp only [Option.some_inj]

theorem pop_setIndex : s.pop.2.setIndex = s.setIndex := by
  rw [pop_eq]
  exact s.popBack_setIndex

/-- `Pop` reports the value it takes at `-1`. -/
theorem reported_pop (w : α) :
    s.pop.2.reported w =
      if s.setIndex = true ∧ s.pop.1.map Item.value = some w then some (-1) else s.reported w := by
  rw [pop_eq]
  show (s.popBack.popClear.report _ _).reported w = _
  rw [reported_report, popClear_setIndex, popBack_setIndex, popClear_reported, popBack_reported]

end Report

end Sstack

theorem distinct_push_iff {a : Array (Item α)} {x : Item α} :
    Distinct (a.push x) ↔ Distinct a ∧ ∀ y ∈ a, y.value ≠ x.value := by
  unfold Distinct
  rw [Array.toList_push, List.map_append, List.nodup_append]
  constructor
  · rintro ⟨hd, -, hdisj⟩
    refine ⟨hd, fun y hy hv => ?_⟩
    exact hdisj _ (List.mem_map_of_mem (Array.mem_toList_iff.2 hy)) _ (List.mem_singleton_self _) hv
  · rintro ⟨hd, hx⟩
    refine ⟨hd, List.nodup_singleton _, ?_⟩
    intro v hv w hw
    obtain ⟨y, hy, rfl⟩ := List.mem_map.1 hv
    rw [List.map_cons, List.map_nil, List.mem_singleton] at hw
    rw [hw]
    exact hx y (Array.mem_toList_iff.1 hy)

/-! ### The queue between calls -/

/-- The order `Less` puts on the items. -/
def itemBefore (x y : Item α) : Bool := before x.priority y.priority

/-- Within a window, a heap for `Less` is a heap for the window's order. -/
theorem heap_windowLess {b : Int64} {a : Array (Item α)} (hb : ∀ x ∈ a, InWindow b x.priority) :
    IsHeap itemBefore a ↔ IsHeap (windowLess b) a :=
  ⟨IsHeap.congr _ fun x hx y hy => before_eq_windowLess (hb x hx) (hb y hy),
    IsHeap.congr _ fun x hx y hy => (before_eq_windowLess (hb x hx) (hb y hy)).symm⟩

theorem holds_newSstack (setIndex : Bool) (reported : α → Option Int) :
    (newSstack setIndex reported).Holds #[] := by
  refine ⟨⟨fun k c hc => ?_, ?_, ?_, ?_, Nat.zero_le _⟩, rfl, fun i => ?_⟩
  · -- the one block of nil cells
    have hk : k = 0 := by
      rcases Nat.eq_zero_or_pos k with h0 | h0
      · exact h0
      · have hn : (newSstack setIndex reported).blocks[k]? = none :=
          Array.getElem?_eq_none (show 1 ≤ k by omega)
        rw [hn] at hc
        cases hc
    subst hk
    cases hc
    exact Array.size_replicate
  · show blockSize = 1 * blockSize
    rw [Nat.one_mul]
  · show 0 < 1
    exact Nat.one_pos
  · show 0 = 0 * blockSize + 0
    rw [Nat.zero_mul]
  · unfold Sstack.get newSstack
    rcases Nat.eq_zero_or_pos (i / blockSize) with h0 | h0
    · simp [h0, Nat.mod_lt _ blockSize_pos]
    · have hn : (#[Array.replicate blockSize (none : Option (Item α))])[i / blockSize]? = none :=
        Array.getElem?_eq_none (show 1 ≤ i / blockSize by omega)
      rw [hn]
      rfl

/-- `Reset` keeps the callback and its records. -/
theorem reset_cont (p : Prque α) :
    p.reset.cont.setIndex = p.cont.setIndex ∧ p.reset.cont.reported = p.cont.reported := ⟨rfl, rfl⟩

section Queue

variable [DecidableEq α] {fresh : Bool}

/-- The queue `p` holds the items `a` between calls: a heap for `Less`, its priorities within a
window of `2 ^ 63`, and, in a queue that never holds a value twice, each stored value last reported
at its position. -/
structure Inv (fresh : Bool) (p : Prque α) (a : Array (Item α)) : Prop where
  holds : p.cont.Holds a
  window : ∃ b, ∀ x ∈ a, InWindow b x.priority
  heap : IsHeap itemBefore a
  distinct : fresh = true → Distinct a
  tracks : fresh = true → Tracks p.cont a

/-- `Push` put `x` into the queue `p`, which held `a`, leaving `p'` holding `a'`; the records of
values not stored are left alone. -/
structure PutsIn (fresh : Bool) (p p' : Prque α) (a : Array (Item α)) (x : Item α) (a' : Array (Item α)) :
    Prop where
  inv : Inv fresh p' a'
  perm : a'.Perm (a.push x)
  setIndex_eq : p'.cont.setIndex = p.cont.setIndex
  frame : ∀ v, (∀ y ∈ a', y.value ≠ v) → p'.cont.reported v = p.cont.reported v

/-- `Pop` or `Remove` took `x` out of the queue `p`, which held `a`, leaving `p'` holding `a'`: with
a callback, `x`'s value is reported at `-1`, and the records of other values not stored are left
alone. -/
structure TakesOut (fresh : Bool) (p p' : Prque α) (a : Array (Item α)) (x : Item α) (a' : Array (Item α)) :
    Prop where
  inv : Inv fresh p' a'
  perm : (a'.push x).Perm a
  setIndex_eq : p'.cont.setIndex = p.cont.setIndex
  reported_taken : p.cont.setIndex = true → p'.cont.reported x.value = some (-1)
  frame : ∀ v, v ≠ x.value → (∀ y ∈ a', y.value ≠ v) → p'.cont.reported v = p.cont.reported v

variable {p : Prque α} {a : Array (Item α)} {b : Int64}

theorem Inv.rel (h : Inv fresh p a) (hb : ∀ x ∈ a, InWindow b x.priority) : Rel b p.cont fresh p.cont a :=
  ⟨h.holds, hb, rfl, fun _ _ => rfl, h.distinct, h.tracks⟩

/-- The container's `Push` of an item whose value is not stored, in the window. -/
theorem Rel.push {s₀ s : Sstack α} (h : Rel b s₀ fresh s a) {x : Item α} (hx : InWindow b x.priority)
    (hf : fresh = true → ∀ y ∈ a, y.value ≠ x.value) : Rel b s₀ fresh (s.push x) (a.push x) where
  holds := h.holds.push x
  window y hy := by
    rcases Array.mem_push.1 hy with hy | rfl
    · exact h.window y hy
    · exact hx
  setIndex_eq := (s.push_setIndex x).trans h.setIndex_eq
  frame v hv := by
    rw [Sstack.reported_push, if_neg (fun hc => hv x (Array.mem_push_self ..) hc.2)]
    exact h.frame v (fun y hy => hv y (Array.mem_push_of_mem _ hy))
  distinct hfr := distinct_push_iff.2 ⟨h.distinct hfr, hf hfr⟩
  tracks hfr := by
    have ht := h.tracks hfr
    unfold Tracks at ht ⊢
    intro hset k y hk
    have hset' : s.setIndex = true := (s.push_setIndex x) ▸ hset
    rw [Sstack.reported_push]
    rw [Array.getElem?_push] at hk
    split at hk
    · -- the new item, at the old size
      rename_i hka
      cases hk
      rw [if_pos ⟨hset', rfl⟩, h.holds.size_eq, hka]
    · rw [if_neg (fun hc => hf hfr y (Array.mem_of_getElem? hk) hc.2.symm)]
      exact ht hset' k y hk

/-- `Push`, with the items after it within a window and, where values are never stored twice, a
value not stored. -/
theorem Inv.push (h : Inv fresh p a) {x : Item α} (hw : ∃ b, ∀ y ∈ a.push x, InWindow b y.priority)
    (hf : fresh = true → ∀ y ∈ a, y.value ≠ x.value) :
    ∃ a', PutsIn fresh p (p.push x.value x.priority) a x a' := by
  obtain ⟨b, hb⟩ := hw
  have hba : ∀ y ∈ a, InWindow b y.priority := fun y hy => hb y (Array.mem_push_of_mem _ hy)
  -- `container/heap` runs `up` on the stack as `BinaryHeap.push` does on the array
  have hR := HeapInterface.push_sim rel_simulates ((h.rel hba).push (hb x (Array.mem_push_self ..)) hf)
  have hheap := BinaryHeap.heap_push (windowLess_strictWeakOrder b) ((heap_windowLess hba).1 h.heap) x
  refine ⟨_, ⟨⟨hR.holds, ⟨b, hR.window⟩, (heap_windowLess hR.window).2 hheap, hR.distinct, hR.tracks⟩,
    BinaryHeap.push_perm _ a x, hR.setIndex_eq, hR.frame⟩⟩

/-- The container's `Pop` at the end of `Pop` and `Remove`: from a stack holding `e`, whose last item
is `x`, it takes `x` and leaves a queue holding the rest. -/
theorem take_last {t : Sstack α} {e : Array (Item α)} {x : Item α} (hR : Rel b p.cont fresh t e)
    (hp : (e.pop.push x).Perm a) (hheap : IsHeap (windowLess b) e.pop) (hx : e.back? = some x) :
    t.pop.1 = some x ∧ TakesOut fresh p ⟨t.pop.2⟩ a x e.pop := by
  have he : 0 < e.size := by
    rcases Nat.eq_zero_or_pos e.size with h0 | h0
    · rw [Array.eq_empty_of_size_eq_zero h0] at hx
      cases hx
    · exact h0
  obtain ⟨hout, hholds, -⟩ := hR.holds.pop he
  have hpush : e.pop.push x = e := BinaryHeap.pop_push_of_back? hx
  have hmem : ∀ y ∈ e.pop, y ∈ e := fun y hy => hpush ▸ Array.mem_push_of_mem x hy
  have hwin : ∀ y ∈ e.pop, InWindow b y.priority := fun y hy => hR.window y (hmem y hy)
  -- the value taken out is stored nowhere else
  have hd : fresh = true → Distinct e.pop ∧ ∀ y ∈ e.pop, y.value ≠ x.value := by
    intro hf
    rw [← distinct_push_iff, hpush]
    exact hR.distinct hf
  have hrep : ∀ w, t.pop.2.reported w = if t.setIndex = true ∧ x.value = w then some (-1) else t.reported w := by
    intro w
    rw [Sstack.reported_pop, hout, hx, Option.map_some]
    simp only [Option.some_inj]
  refine ⟨hout.trans hx, ⟨hholds, ⟨b, hwin⟩, (heap_windowLess hwin).2 hheap, fun hf => (hd hf).1, fun hf => ?_⟩,
    hp, (t.pop_setIndex).trans hR.setIndex_eq, fun hs => ?_, fun v hv hva => ?_⟩
  · have ht := hR.tracks hf
    unfold Tracks at ht ⊢
    intro hset k y hk
    have hset' : t.setIndex = true := (t.pop_setIndex) ▸ hset
    have hy : y.value ≠ x.value := (hd hf).2 y (Array.mem_of_getElem? hk)
    rw [Array.getElem?_pop] at hk
    split at hk
    · show t.pop.2.reported y.value = _
      rw [hrep, if_neg (fun hc => hy hc.2.symm)]
      exact ht hset' k y hk
    · cases hk
  · show t.pop.2.reported x.value = _
    rw [hrep, if_pos ⟨hR.setIndex_eq ▸ hs, rfl⟩]
  · show t.pop.2.reported v = _
    rw [hrep, if_neg (fun hc => hv hc.2.symm)]
    refine hR.frame v fun y hy => ?_
    rw [← hpush] at hy
    rcases Array.mem_push.1 hy with hy | rfl
    · exact hva y hy
    · exact fun hc => hv hc.symm

/-- `Pop` on a queue that holds items takes out one that no other goes before. -/
theorem Inv.pop (h : Inv fresh p a) (ha : 0 < a.size) :
    ∃ x a', p.pop.1 = some x ∧ TakesOut fresh p p.pop.2 a x a' ∧ ∀ y ∈ a, itemBefore y x = false := by
  obtain ⟨b, hb⟩ := h.window
  have hheap := (heap_windowLess hb).1 h.heap
  have hfst : (BinaryHeap.pop (windowLess b) a).1 = some a[0] :=
    (BinaryHeap.pop_fst _ a).trans (Array.getElem?_eq_getElem ha)
  -- the stack `Pop` hands the container holds the array whose last item `BinaryHeap.pop` takes
  have hR := HeapInterface.popDown_sim rel_simulates (h.rel hb) ha
  obtain ⟨hout, htake⟩ := take_last hR (BinaryHeap.pop_perm _ hfst)
    (BinaryHeap.heap_pop (windowLess_strictWeakOrder b) hheap) hfst
  refine ⟨a[0], _, hout, htake, fun y hy => ?_⟩
  rw [itemBefore, before_eq_windowLess (hb y hy) (hb _ (Array.getElem_mem ha))]
  exact BinaryHeap.pop_min (windowLess_strictWeakOrder b) hheap hfst y hy

theorem Prque.remove_natCast (p : Prque α) (i : Nat) :
    p.remove i = ((HeapInterface.remove Sstack.heap p.cont i).1, ⟨(HeapInterface.remove Sstack.heap p.cont i).2⟩) := by
  unfold Prque.remove
  rw [if_neg (by omega), Int.toNat_natCast]

/-- `Remove(i)` on a queue that holds an item at `i` takes out that item. -/
theorem Inv.remove (h : Inv fresh p a) {i : Nat} (hi : i < a.size) :
    ∃ x a', (p.remove i).1 = some x ∧ a[i]? = some x ∧ TakesOut fresh p (p.remove i).2 a x a' := by
  obtain ⟨b, hb⟩ := h.window
  have hheap := (heap_windowLess hb).1 h.heap
  have hfst : (BinaryHeap.remove (windowLess b) a i).1 = some a[i] :=
    (BinaryHeap.remove_fst _ hi).trans (Array.getElem?_eq_getElem hi)
  have hR := HeapInterface.removeFix_sim rel_simulates (h.rel hb) hi
  obtain ⟨hout, htake⟩ := take_last hR (BinaryHeap.remove_perm _ hfst)
    (BinaryHeap.heap_remove (windowLess_strictWeakOrder b) hheap hi) hfst
  rw [Prque.remove_natCast]
  exact ⟨a[i], _, hout, Array.getElem?_eq_getElem hi, htake⟩

/-- `New` and `Reset` give an empty queue. -/
theorem inv_new (setIndex : Bool) (reported : α → Option Int) : Inv fresh (new setIndex reported) #[] where
  holds := holds_newSstack setIndex reported
  window := ⟨0, fun x hx => absurd hx (Array.not_mem_empty x)⟩
  heap c _ hc := absurd hc (Nat.not_lt_zero c)
  distinct _ := List.nodup_nil
  tracks _ _ i x hx := absurd hx (by simp)

end Queue

/-! ### Runs -/

/-- The calls a run is made of. -/
inductive Op (α : Type) where
  | push (x : Item α)
  | pop
  | remove (i : Nat)
  | reset

/-- What a call does to the queue. -/
def Op.run [DecidableEq α] (p : Prque α) : Op α → Prque α
  | .push x => p.push x.value x.priority
  | .pop => p.pop.2
  | .remove i => (p.remove i).2
  | .reset => p.reset

/-- A call as the documentation allows it on a queue holding `a`: after a `Push` the priorities
lie within a window and, where values are never stored twice, its value was not stored; `Pop` and
`Remove` take an item that is there. -/
def Op.Allowed (fresh : Bool) (a : Array (Item α)) : Op α → Prop
  | .push x => (∃ b, ∀ y ∈ a.push x, InWindow b y.priority) ∧ (fresh = true → ∀ y ∈ a, y.value ≠ x.value)
  | .pop => 0 < a.size
  | .remove i => i < a.size
  | .reset => True

/-- The queues that allowed calls reach from `New`, with nothing reported yet. -/
inductive Reachable [DecidableEq α] (fresh : Bool) : Prque α → Prop
  | init (setIndex : Bool) : Reachable fresh (new setIndex fun _ => none)
  | step {p : Prque α} {a : Array (Item α)} (op : Op α) :
      Reachable fresh p → p.cont.Holds a → op.Allowed fresh a → Reachable fresh (op.run p)

/-- The items a stack holds are determined by its cells. -/
theorem Sstack.Holds.unique {s : Sstack α} {a a' : Array (Item α)} (h : s.Holds a) (h' : s.Holds a') : a = a' :=
  Array.ext_getElem? fun i => (h.get_eq i).symm.trans (h'.get_eq i)

section Run

variable [DecidableEq α] {fresh : Bool} {p : Prque α} {a : Array (Item α)}

/-- One allowed call keeps the invariant. -/
theorem Inv.run (h : Inv fresh p a) {op : Op α} (hop : op.Allowed fresh a) : ∃ a', Inv fresh (op.run p) a' := by
  cases op with
  | push x =>
    obtain ⟨hw, hf⟩ := hop
    obtain ⟨a', hput⟩ := h.push hw hf
    exact ⟨a', hput.inv⟩
  | pop =>
    obtain ⟨x, a', -, htake, -⟩ := h.pop hop
    exact ⟨a', htake.inv⟩
  | remove i =>
    obtain ⟨x, a', -, -, htake⟩ := h.remove hop
    exact ⟨a', htake.inv⟩
  | reset => exact ⟨#[], inv_new _ _⟩

/-- Every queue a run reaches keeps the invariant. -/
theorem reachable_inv (h : Reachable fresh p) : ∃ a, Inv fresh p a := by
  induction h with
  | init setIndex => exact ⟨#[], inv_new _ _⟩
  | step op _ hholds hop ih =>
    obtain ⟨a', ha'⟩ := ih
    rw [hholds.unique ha'.holds] at hop
    exact ha'.run hop

end Run

end Go420coin.Prque
