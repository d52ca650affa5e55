import Go420coin.Core.Types
import Go420coin.State.StateObject

/-!
# The downloader's result store (`420/downloader/resultstore.go`, `queue.go`)

The result store keeps the fetch results of the blocks `resultOffset`, `resultOffset + 1`, ... in a
window of fixed size (`items`).  `AddFetch` reserves the slot of a header, counted from
`resultOffset`; the fetchers mark the body and the receipts of a slot done; `GetCompleted` hands out
the completed results at the front of the window and shifts the rest down.  `indexIncomplete`
caches how far the completed front reaches, and `countCompleted` goes on from there.

Along every run from `Prepare(o)` on a new store the store keeps its invariant (`Inv`): the slot `i`
holds nothing or the result of block `resultOffset + i`, and every slot below `indexIncomplete`
holds a completed result; every call keeps it (`Inv.step`).  So `countCompleted` finds exactly
the longest completed prefix (`countFrom_eq_donePrefix`), and the results handed out along a run are
complete and numbered `o, o + 1, ...` (`Inv.run`).  A header at or past the throttle threshold is
reported throttled, and one past the window is refused with an error and nothing written
(`Inv.addFetch_throttle`, `Inv.addFetch_beyond`).

A pointer to a fetch result is its value here: the delivery's `SetBodyDone` on the result that
`GetDeliverySlot` hands out is `setDoneAt`, which changes the result in its slot.  The results handed
out are complete, and `SetBodyDone` and `SetReceiptsDone` leave a complete result as it is, so what
was handed out never differs from what the pointers hold.  The uncles, transactions and receipts a
result collects, the lock and the error's text are left out; `indexIncomplete`, an `int32` that the
code keeps between `0` and `len(items)`, is a `Nat`.
-/

namespace Go420coin.Downloader

/-- `types.EmptyRootHash`, the root hash of the empty trie. -/
def emptyRootHash : Hash := State.emptyRoot

/-- `types.Header`, the fields that the result store and `newFetchResult` read. -/
structure Header where
  number : Nat
  txHash : Hash
  uncleHash : Hash
  receiptHash : Hash
  deriving DecidableEq

/-- `Header.EmptyBody`. -/
def Header.emptyBody (h : Header) : Bool := h.txHash == emptyRootHash && h.uncleHash == emptyUncleHash

/-- `Header.EmptyReceipts`. -/
def Header.emptyReceipts (h : Header) : Bool := h.receiptHash == emptyRootHash

/-- `bodyType`. -/
def bodyType : Nat := 0

/-- `receiptType`. -/
def receiptType : Nat := 1

/-- `fetchResult`: the deliveries still outstanding, as bits of `pending`, and the header. -/
structure FetchResult where
  pending : Nat
  header : Header
  deriving DecidableEq

/-- `newFetchResult`. -/
def newFetchResult (header : Header) (fastSync : Bool) : FetchResult :=
  let pending := if !header.emptyBody then 0 ||| 1 <<< bodyType else 0
  let pending := if fastSync && !header.emptyReceipts then pending ||| 1 <<< receiptType else pending
  ⟨pending, header⟩

namespace FetchResult

/-- `SetBodyDone`: the body bit is taken off if it is still set. -/
def setBodyDone (f : FetchResult) : FetchResult :=
  if f.pending &&& 1 <<< bodyType ≠ 0 then { f with pending := f.pending - 1 } else f

/-- `SetReceiptsDone`: the receipts bit is taken off if it is still set. -/
def setReceiptsDone (f : FetchResult) : FetchResult :=
  if f.pending &&& 1 <<< receiptType ≠ 0 then { f with pending := f.pending - 2 } else f

/-- `AllDone`. -/
def allDone (f : FetchResult) : Bool := f.pending == 0

end FetchResult

/-- `resultStore`. -/
structure ResultStore where
  items : Array (Option FetchResult)
  resultOffset : UInt64
  indexIncomplete : Nat
  throttleThreshold : UInt64

/-- What `getFetchResult` returns: the item, its index, `stale`, `throttle`, and whether it fails with
`errInvalidChain`.  `AddFetch` returns the same, but the index. -/
structure Slot where
  item : Option FetchResult
  index : Int
  stale : Bool
  throttle : Bool
  err : Bool

namespace ResultStore

/-- `SetThrottleThreshold`: the threshold, capped at the size of the window. -/
def setThrottleThreshold (r : ResultStore) (threshold : UInt64) : UInt64 × ResultStore :=
  let limit := r.items.size.toUInt64
  let threshold := if threshold ≥ limit then limit else threshold
  (threshold, { r with throttleThreshold := threshold })

/-- `getFetchResult`: the index is the `int64` difference of the block numbers. -/
def getFetchResult (r : ResultStore) (headerNumber : UInt64) : Slot :=
  let index := (headerNumber.toInt64 - r.resultOffset.toInt64).toInt
  let throttle := decide (index ≥ r.throttleThreshold.toInt64.toInt)
  let stale := decide (index < 0)
  if index ≥ r.items.size then { item := none, index, stale, throttle, err := true }
  else if stale then { item := none, index, stale, throttle, err := false }
  else { item := (r.items[index.toNat]?).join, index, stale, throttle, err := false }

/-- `AddFetch`: a new result in an empty slot that is neither stale nor throttled. -/
def addFetch (r : ResultStore) (header : Header) (fastSync : Bool) : Slot × ResultStore :=
  let s := r.getFetchResult header.number.toUInt64
  if s.err || s.stale || s.throttle then (s, r)
  else
    match s.item with
    | some _ => (s, r)
    | none =>
      let item := newFetchResult header fastSync
      ({ s with item := some item }, { r with items := r.items.setIfInBounds s.index.toNat (some item) })

/-- `GetDeliverySlot`: the item, `stale`, and whether it fails. -/
def getDeliverySlot (r : ResultStore) (headerNumber : UInt64) : Option FetchResult × Bool × Bool :=
  let s := r.getFetchResult headerNumber
  (s.item, s.stale, s.err)

/-- A delivery's `SetBodyDone` or `SetReceiptsDone` (`done`) on the result `GetDeliverySlot` hands
out, which the slot points to. -/
def setDoneAt (r : ResultStore) (headerNumber : UInt64) (done : FetchResult → FetchResult) : ResultStore :=
  let s := r.getFetchResult headerNumber
  match s.item with
  | some item => { r with items := r.items.setIfInBounds s.index.toNat (some (done item)) }
  | none => r

/-- The loop of `countCompleted` from `index`: the first index from there whose item is nil or not
done, or the size of the window. -/
def countFrom (items : Array (Option FetchResult)) (index : Nat) : Nat :=
  if h : index < items.size then
    match items[index] with
    | some result => if result.allDone then countFrom items (index + 1) else index
    | none => index
  else index
termination_by items.size - index

/-- `countCompleted`. -/
def countCompleted (r : ResultStore) : Nat × ResultStore :=
  let index := countFrom r.items r.indexIncomplete
  (index, { r with indexIncomplete := index })

/-- `GetCompleted`: at most `limit` of the completed results at the front, which it takes out of the
window, shifting the rest down and clearing the tail. -/
def getCompleted (r : ResultStore) (limit : Nat) : Array (Option FetchResult) × ResultStore :=
  let c := r.countCompleted
  let r := c.2
  let limit := if limit > c.1 then c.1 else limit
  let results := r.items.extract 0 limit
  let items := r.items.extract limit r.items.size ++ Array.replicate limit none
  (results, { r with items := items, resultOffset := r.resultOffset + limit.toUInt64,
                     indexIncomplete := r.indexIncomplete - limit })

end ResultStore

/-- The calls on a prepared store. -/
inductive Op where
  | addFetch (header : Header) (fastSync : Bool)
  | setBodyDone (number : UInt64)
  | setReceiptsDone (number : UInt64)
  | setThrottleThreshold (threshold : UInt64)
  | getCompleted (limit : Nat)

/-- One call: the store after it, and the results it hands out. -/
def Op.step (r : ResultStore) : Op → ResultStore × Array (Option FetchResult)
  | .addFetch header fastSync => ((r.addFetch header fastSync).2, #[])
  | .setBodyDone n => (r.setDoneAt n FetchResult.setBodyDone, #[])
  | .setReceiptsDone n => (r.setDoneAt n FetchResult.setReceiptsDone, #[])
  | .setThrottleThreshold t => ((r.setThrottleThreshold t).2, #[])
  | .getCompleted limit => ((r.getCompleted limit).2, (r.getCompleted limit).1)

/-- A run of calls: the store after them, and all the results handed out, in order. -/
def run (r : ResultStore) : List Op → ResultStore × Array (Option FetchResult)
  | [] => (r, #[])
  | op :: ops => ((run (op.step r).1 ops).1, (op.step r).2 ++ (run (op.step r).1 ops).2)

/-! ### Where a block's result is kept -/

namespace ResultStore

/-- The `int64` reading of a `uint64`: the number itself below `2 ^ 63`, else wrapped. -/
theorem toInt_toInt64 (x : UInt64) :
    x.toInt64.toInt = if x.toNat < 2 ^ 63 then (x.toNat : Int) else x.toNat - 2 ^ 64 := by
  have hx := x.toNat_lt
  have same : x.toBitVec.toNat = x.toNat := rfl
  have he : x.toInt64.toInt = x.toBitVec.toInt := rfl
  rw [he, BitVec.toInt_eq_toNat_cond, same]
  split_ifs <;> omega

/-- The block at a non-negative index lies that many blocks past the offset. -/
theorem number_eq_of_index {n off : UInt64} (h : 0 ≤ (n.toInt64 - off.toInt64).toInt) :
    n = off + (n.toInt64 - off.toInt64).toInt.toNat.toUInt64 := by
  rw [← UInt64.toInt64_sub] at h ⊢
  have hx := (n - off).toNat_lt
  have hi : (n - off).toInt64.toInt = (n - off).toNat := by
    rw [toInt_toInt64] at h ⊢
    split_ifs at h ⊢ <;> omega
  rw [hi, Int.toNat_natCast, Nat.toUInt64_eq, UInt64.ofNat_toNat, UInt64.add_comm, UInt64.sub_add_cancel]

/-- `getFetchResult` at the index it computes. -/
def slotAt (r : ResultStore) (index : Int) : Slot :=
  if index ≥ r.items.size then
    { item := none, index, stale := decide (index < 0),
      throttle := decide (index ≥ r.throttleThreshold.toInt64.toInt), err := true }
  else if decide (index < 0) then
    { item := none, index, stale := decide (index < 0),
      throttle := decide (index ≥ r.throttleThreshold.toInt64.toInt), err := false }
  else
    { item := (r.items[index.toNat]?).join, index, stale := decide (index < 0),
      throttle := decide (index ≥ r.throttleThreshold.toInt64.toInt), err := false }

theorem getFetchResult_eq (r : ResultStore) (n : UInt64) :
    r.getFetchResult n = r.slotAt (n.toInt64 - r.resultOffset.toInt64).toInt := rfl

section Slot

variable (r : ResultStore) (index : Int)

@[simp] theorem slotAt_index : (r.slotAt index).index = index := by
  unfold slotAt
  split_ifs <;> rfl

@[simp] theorem slotAt_stale : (r.slotAt index).stale = decide (index < 0) := by
  unfold slotAt
  split_ifs <;> rfl

@[simp] theorem slotAt_err : (r.slotAt index).err = decide (index ≥ r.items.size) := by
  unfold slotAt
  split_ifs with h1 <;> simp [h1]

/-- A result comes from the slot of its index, inside the window. -/
theorem slotAt_item_some {f : FetchResult} (h : (r.slotAt index).item = some f) :
    0 ≤ index ∧ index < r.items.size ∧ r.items[index.toNat]? = some (some f) := by
  unfold slotAt at h
  -- the first two branches hand out no result
  by_cases h1 : index ≥ r.items.size
  · rw [if_pos h1] at h
    cases h
  by_cases h2 : index < 0
  · rw [if_neg h1, if_pos (decide_eq_true h2)] at h
    cases h
  rw [if_neg h1, if_neg (by simpa using h2)] at h
  exact ⟨by omega, by omega, Option.join_eq_some_iff.1 h⟩

/-- No result, from an index neither stale nor past the window: its slot is empty. -/
theorem slotAt_item_none (h : (r.slotAt index).item = none) (h0 : 0 ≤ index) (hlt : index < r.items.size) :
    r.items[index.toNat]? = some none := by
  unfold slotAt at h
  rw [if_neg (by omega), if_neg (by simpa using h0)] at h
  rcases Option.join_eq_none_iff.1 h with hn | hn
  · rw [Array.getElem?_eq_none_iff] at hn
    omega
  · exact hn

end Slot

/-! ### What each call writes -/

section Writes

variable (r : ResultStore)

/-- `AddFetch` writes at most a new result into an empty slot, the slot of its block. -/
theorem addFetch_store (header : Header) (fastSync : Bool) :
    (r.addFetch header fastSync).2 = r ∨
      ∃ i, i < r.items.size ∧ r.items[i]? = some none ∧ header.number.toUInt64 = r.resultOffset + i.toUInt64 ∧
        (r.addFetch header fastSync).2 =
          { r with items := r.items.setIfInBounds i (some (newFetchResult header fastSync)) } := by
  have hn := @number_eq_of_index header.number.toUInt64 r.resultOffset
  unfold addFetch
  rw [getFetchResult_eq]
  generalize (header.number.toUInt64.toInt64 - r.resultOffset.toInt64).toInt = index at hn ⊢
  dsimp only
  split_ifs with hc
  · exact .inl rfl
  · split
    · exact .inl rfl
    · rename_i hnone
      -- neither stale nor past the window: the slot of the block, which is empty
      simp only [Bool.or_eq_true, not_or, Bool.not_eq_true, slotAt_err, slotAt_stale,
        decide_eq_false_iff_not] at hc
      have h0 : 0 ≤ index := by omega
      refine .inr ⟨index.toNat, by omega, r.slotAt_item_none index hnone h0 (by omega), hn h0, ?_⟩
      rw [slotAt_index]

/-- A delivery changes at most the result in the slot of its block. -/
theorem setDoneAt_store (n : UInt64) (done : FetchResult → FetchResult) :
    r.setDoneAt n done = r ∨
      ∃ i f, r.items[i]? = some (some f) ∧ r.setDoneAt n done = { r with items := r.items.setIfInBounds i (some (done f)) } := by
  unfold setDoneAt
  rw [getFetchResult_eq]
  dsimp only
  split
  · rename_i f hf
    refine .inr ⟨_, f, (r.slotAt_item_some _ hf).2.2, ?_⟩
    rw [slotAt_index]
  · exact .inl rfl

theorem addFetch_resultOffset (header : Header) (fastSync : Bool) :
    (r.addFetch header fastSync).2.resultOffset = r.resultOffset := by
  rcases r.addFetch_store header fastSync with heq | ⟨i, -, -, -, heq⟩ <;> rw [heq]

theorem setDoneAt_resultOffset (n : UInt64) (done : FetchResult → FetchResult) :
    (r.setDoneAt n done).resultOffset = r.resultOffset := by
  rcases r.setDoneAt_store n done with heq | ⟨i, f, -, heq⟩ <;> rw [heq]

end Writes

end ResultStore

namespace FetchResult

@[simp] theorem setBodyDone_header (f : FetchResult) : f.setBodyDone.header = f.header := by
  unfold setBodyDone
  split_ifs <;> rfl

@[simp] theorem setReceiptsDone_header (f : FetchResult) : f.setReceiptsDone.header = f.header := by
  unfold setReceiptsDone
  split_ifs <;> rfl

/-- A completed result has no bit left to take off. -/
theorem setBodyDone_of_allDone {f : FetchResult} (h : f.allDone = true) : f.setBodyDone = f := by
  have hp : f.pending = 0 := by simpa [allDone] using h
  unfold setBodyDone
  rw [if_neg (by simp [hp])]

theorem setReceiptsDone_of_allDone {f : FetchResult} (h : f.allDone = true) : f.setReceiptsDone = f := by
  have hp : f.pending = 0 := by simpa [allDone] using h
  unfold setReceiptsDone
  rw [if_neg (by simp [hp])]

end FetchResult

/-! ### The completed front -/

/-- A slot that `countCompleted` counts past: non-nil and `AllDone`. -/
def isDone (o : Option FetchResult) : Bool := o.any FetchResult.allDone

/-- The length of the longest prefix of `items` that are non-nil and `AllDone`. -/
def donePrefix (items : Array (Option FetchResult)) : Nat := (items.toList.takeWhile isDone).length

/-- Slot `j` holds a completed result. -/
def Completed (items : Array (Option FetchResult)) (j : Nat) : Prop :=
  ∃ f, items[j]? = some (some f) ∧ f.allDone = true

/-- A `takeWhile` is `k` long when the first `k` elements pass and the next, if any, fails. -/
private theorem length_takeWhile_eq {α : Type} (p : α → Bool) (l : List α) :
    ∀ k, k ≤ l.length → (∀ j < k, ∃ x, l[j]? = some x ∧ p x = true) →
      (∀ x, l[k]? = some x → p x = false) → (l.takeWhile p).length = k := by
  induction l with
  | nil =>
    intro k hk _ _
    simp only [List.length_nil, Nat.le_zero] at hk
    simp [hk]
  | cons a l ih =>
    intro k hk hpass hnext
    cases k with
    | zero => simp [hnext a rfl]
    | succ k =>
      obtain ⟨x, hx, hpx⟩ := hpass 0 (by omega)
      cases hx
      have hrest : (l.takeWhile p).length = k :=
        ih k (by simpa using hk) (fun j hj => by simpa using hpass (j + 1) (by omega))
          (fun y hy => hnext y (by simpa using hy))
      simp [hpx, hrest]

namespace ResultStore

/-- `countFrom` from inside the completed front stops where the front ends. -/
theorem countFrom_spec (items : Array (Option FetchResult)) (index : Nat) (hle : index ≤ items.size)
    (hdone : ∀ j < index, Completed items j) :
    countFrom items index ≤ items.size ∧ (∀ j < countFrom items index, Completed items j) ∧
      ∀ o, items[countFrom items index]? = some o → isDone o = false := by
  fun_induction countFrom items index with
  | case1 index h f hget hall ih =>
    -- a completed slot: the front reaches one further
    apply ih (by omega)
    intro j hj
    rcases Nat.lt_succ_iff_lt_or_eq.1 hj with hj | rfl
    · exact hdone j hj
    · exact ⟨f, by rw [Array.getElem?_eq_getElem h, hget], hall⟩
  | case2 index h f hget hnot =>
    refine ⟨hle, hdone, fun o ho => ?_⟩
    rw [Array.getElem?_eq_getElem h, hget] at ho
    cases ho
    simpa [isDone] using hnot
  | case3 index h hget =>
    refine ⟨hle, hdone, fun o ho => ?_⟩
    rw [Array.getElem?_eq_getElem h, hget] at ho
    cases ho
    rfl
  | case4 index h =>
    refine ⟨hle, hdone, fun o ho => ?_⟩
    rw [Array.getElem?_eq_none (by omega)] at ho
    cases ho

/-- From inside the completed front, `countFrom` counts the longest completed prefix. -/
theorem countFrom_eq_donePrefix (items : Array (Option FetchResult)) (index : Nat) (hle : index ≤ items.size)
    (hdone : ∀ j < index, Completed items j) :
    countFrom items index = donePrefix items := by
  obtain ⟨hsize, hfront, hnext⟩ := countFrom_spec items index hle hdone
  symm
  apply length_takeWhile_eq
  · simpa using hsize
  · intro j hj
    obtain ⟨f, hf, hall⟩ := hfront j hj
    exact ⟨some f, by rw [Array.getElem?_toList, hf], hall⟩
  · intro o ho
    exact hnext o (by rwa [Array.getElem?_toList] at ho)

/-! ### The invariant of a run -/

/-- What the store keeps along every run from `Prepare` on a new store of `size` slots: slot `i`
holds nothing or the result of block `resultOffset + i`, the slots below `indexIncomplete` hold
completed results, and the threshold stays within the window. -/
structure Inv (size : Nat) (r : ResultStore) : Prop where
  size_eq : r.items.size = size
  numbered : ∀ {i : Nat} {f : FetchResult}, r.items[i]? = some (some f) → f.header.number.toUInt64 = r.resultOffset + i.toUInt64
  incomplete_le : r.indexIncomplete ≤ size
  completed_below : ∀ j < r.indexIncomplete, Completed r.items j
  throttle_le : r.throttleThreshold.toNat ≤ size

section Inv

variable {size : Nat} {r : ResultStore}

theorem Inv.incomplete_le_size (h : Inv size r) : r.indexIncomplete ≤ r.items.size :=
  h.size_eq ▸ h.incomplete_le

/-- Writing a result into slot `i` keeps the invariant when it is the result of block
`resultOffset + i`, and a completed one where the slot held a completed one. -/
theorem Inv.set (h : Inv size r) {i : Nat} {g : FetchResult}
    (hnum : g.header.number.toUInt64 = r.resultOffset + i.toUInt64)
    (hkeep : Completed r.items i → g.allDone = true) :
    Inv size { r with items := r.items.setIfInBounds i (some g) } where
  size_eq := by rw [Array.size_setIfInBounds, h.size_eq]
  numbered := by
    intro j f hf
    rw [Array.getElem?_setIfInBounds] at hf
    split_ifs at hf with hij
    · cases hf
      subst hij
      exact hnum
    · exact h.numbered hf
  incomplete_le := h.incomplete_le
  completed_below := by
    intro j (hj : j < r.indexIncomplete)
    have hjs : j < r.items.size := Nat.lt_of_lt_of_le hj h.incomplete_le_size
    by_cases hij : i = j
    · subst hij
      exact ⟨g, by rw [Array.getElem?_setIfInBounds_self_of_lt hjs], hkeep (h.completed_below i hj)⟩
    · obtain ⟨f, hf, hall⟩ := h.completed_below j hj
      exact ⟨f, by rw [Array.getElem?_setIfInBounds_ne hij, hf], hall⟩
  throttle_le := h.throttle_le

end Inv

/-! ### Each call keeps the invariant -/

section Calls

variable {size : Nat} {r : ResultStore}

theorem Inv.addFetch (h : Inv size r) (header : Header) (fastSync : Bool) :
    Inv size (r.addFetch header fastSync).2 := by
  rcases r.addFetch_store header fastSync with heq | ⟨i, -, hempty, hnum, heq⟩
  · rw [heq]
    exact h
  · rw [heq]
    -- the slot was empty, so it held no completed result to keep
    refine h.set hnum (fun ⟨f, hf, _⟩ => ?_)
    rw [hempty] at hf
    cases hf

/-- A delivery that keeps the header and leaves a completed result as it is keeps the invariant. -/
theorem Inv.setDoneAt (h : Inv size r) (n : UInt64) {done : FetchResult → FetchResult}
    (hheader : ∀ f, (done f).header = f.header) (hdone : ∀ f, f.allDone = true → done f = f) :
    Inv size (r.setDoneAt n done) := by
  rcases r.setDoneAt_store n done with heq | ⟨i, f, hf, heq⟩
  · rw [heq]
    exact h
  · rw [heq]
    refine h.set (by rw [hheader]; exact h.numbered hf) (fun ⟨f', hf', hall⟩ => ?_)
    rw [hf] at hf'
    cases hf'
    rw [hdone f hall]
    exact hall

theorem Inv.setThrottleThreshold (h : Inv size r) (threshold : UInt64) :
    Inv size (r.setThrottleThreshold threshold).2 where
  size_eq := h.size_eq
  numbered := h.numbered
  incomplete_le := h.incomplete_le
  completed_below := h.completed_below
  throttle_le := by
    -- the threshold is capped at `uint64(len(r.items))`, which is at most `len(r.items)`
    have hlimit : r.items.size.toUInt64.toNat ≤ size := by
      rw [Nat.toUInt64_eq, UInt64.toNat_ofNat', ← h.size_eq]
      exact Nat.mod_le _ _
    show (if threshold ≥ r.items.size.toUInt64 then r.items.size.toUInt64 else threshold).toNat ≤ size
    split_ifs with hge
    · exact hlimit
    · have hlt : threshold.toNat < r.items.size.toUInt64.toNat := UInt64.lt_iff_toNat_lt.1 (by simpa using hge)
      omega

/-- `countCompleted` moves `indexIncomplete` to the end of the completed front. -/
theorem Inv.countCompleted (h : Inv size r) :
    Inv size r.countCompleted.2 ∧ r.countCompleted.2.indexIncomplete = donePrefix r.items := by
  have hle := h.incomplete_le_size
  obtain ⟨hsize, hfront, -⟩ := countFrom_spec r.items r.indexIncomplete hle h.completed_below
  refine ⟨⟨h.size_eq, h.numbered, h.size_eq ▸ hsize, hfront, h.throttle_le⟩, ?_⟩
  exact countFrom_eq_donePrefix r.items r.indexIncomplete hle h.completed_below

end Calls

end ResultStore

/-! ### What `GetCompleted` hands out -/

/-- `out` holds, in order, completed results of the blocks `o`, `o + 1`, ... -/
def Delivered (o : UInt64) (out : Array (Option FetchResult)) : Prop :=
  ∀ k < out.size, ∃ f, out[k]? = some (some f) ∧ f.allDone = true ∧ f.header.number.toUInt64 = o + k.toUInt64

/-- Counting `a + b` blocks past `o` is counting `a`, then `b`. -/
theorem add_toUInt64_add (o : UInt64) (a b : Nat) : o + (a + b).toUInt64 = o + a.toUInt64 + b.toUInt64 := by
  rw [UInt64.add_assoc, Nat.toUInt64_eq, Nat.toUInt64_eq, Nat.toUInt64_eq, UInt64.ofNat_add]

/-- Two deliveries one after the other, the second starting where the first ends. -/
theorem Delivered.append {o : UInt64} {a b : Array (Option FetchResult)} (ha : Delivered o a)
    (hb : Delivered (o + a.size.toUInt64) b) : Delivered o (a ++ b) := by
  intro k hk
  rw [Array.size_append] at hk
  by_cases hka : k < a.size
  · rw [Array.getElem?_append_left hka]
    exact ha k hka
  · obtain ⟨f, hf, hall, hnum⟩ := hb (k - a.size) (by omega)
    refine ⟨f, by rw [Array.getElem?_append_right (by omega), hf], hall, ?_⟩
    -- block `o + |a| + (k - |a|)` is block `o + k`
    rw [hnum, ← add_toUInt64_add, Nat.add_sub_cancel' (by omega)]

theorem delivered_empty (o : UInt64) : Delivered o #[] := fun _ hk => absurd hk (Nat.not_lt_zero _)

namespace ResultStore

/-- What `GetCompleted` does once it has its count: hands out the first `limit` slots and shifts the
rest down. -/
def shiftOut (r : ResultStore) (limit : Nat) : Array (Option FetchResult) × ResultStore :=
  (r.items.extract 0 limit,
    { r with items := r.items.extract limit r.items.size ++ Array.replicate limit none,
             resultOffset := r.resultOffset + limit.toUInt64, indexIncomplete := r.indexIncomplete - limit })

theorem getCompleted_eq (r : ResultStore) (limit : Nat) :
    r.getCompleted limit =
      r.countCompleted.2.shiftOut (if limit > r.countCompleted.1 then r.countCompleted.1 else limit) := rfl

/-- The shifted window: slot `j` holds what slot `limit + j` held, and the tail is cleared. -/
theorem getElem?_shifted (items : Array (Option FetchResult)) {limit : Nat} (hlimit : limit ≤ items.size)
    (j : Nat) :
    (items.extract limit items.size ++ Array.replicate limit none)[j]? =
      if j < items.size - limit then items[limit + j]? else if j < items.size then some none else none := by
  rw [Array.getElem?_append, Array.size_extract, Array.getElem?_extract, Array.getElem?_replicate,
    Nat.min_self]
  split_ifs <;> first | rfl | omega

section Shift

variable {size : Nat} {r : ResultStore}

/-- Shifting out part of the completed front keeps the invariant, hands out the results of the
blocks from `resultOffset` on, and moves `resultOffset` past them. -/
theorem Inv.shiftOut (h : Inv size r) {limit : Nat} (hlimit : limit ≤ r.indexIncomplete) :
    Inv size (r.shiftOut limit).2 ∧ Delivered r.resultOffset (r.shiftOut limit).1 ∧
      (r.shiftOut limit).1.size = limit := by
  have hsize : limit ≤ r.items.size := Nat.le_trans hlimit h.incomplete_le_size
  have hout : (r.shiftOut limit).1.size = limit := by
    simp only [ResultStore.shiftOut, Array.size_extract]
    omega
  refine ⟨⟨?size_eq, ?numbered, ?incomplete_le, ?completed_below, h.throttle_le⟩, ?delivered, hout⟩
  case size_eq =>
    simp only [ResultStore.shiftOut, Array.size_append, Array.size_extract, Array.size_replicate, Nat.min_self]
    have := h.size_eq
    omega
  case numbered =>
    intro j f (hf : (r.items.extract limit r.items.size ++ Array.replicate limit none)[j]? = _)
    rw [getElem?_shifted r.items hsize] at hf
    split_ifs at hf with hj hj'
    · -- slot `j` now holds what slot `limit + j` held, one block number for each
      show f.header.number.toUInt64 = r.resultOffset + limit.toUInt64 + j.toUInt64
      rw [h.numbered hf, add_toUInt64_add]
    · cases hf
  case incomplete_le =>
    show r.indexIncomplete - limit ≤ size
    have := h.incomplete_le
    omega
  case completed_below =>
    intro j (hj : j < r.indexIncomplete - limit)
    obtain ⟨f, hf, hall⟩ := h.completed_below (limit + j) (by omega)
    refine ⟨f, ?_, hall⟩
    show (r.items.extract limit r.items.size ++ Array.replicate limit none)[j]? = _
    rw [getElem?_shifted r.items hsize, if_pos (by have := h.incomplete_le_size; omega), hf]
  case delivered =>
    intro k hk
    rw [hout] at hk
    obtain ⟨f, hf, hall⟩ := h.completed_below k (by omega)
    refine ⟨f, ?_, hall, h.numbered hf⟩
    show (r.items.extract 0 limit)[k]? = _
    rw [Array.getElem?_extract, if_pos (by omega), Nat.zero_add, hf]

/-- `GetCompleted` keeps the invariant, hands out the results of the blocks from `resultOffset` on,
and moves `resultOffset` past them. -/
theorem Inv.getCompleted (h : Inv size r) (limit : Nat) :
    Inv size (r.getCompleted limit).2 ∧ Delivered r.resultOffset (r.getCompleted limit).1 ∧
      (r.getCompleted limit).2.resultOffset = r.resultOffset + (r.getCompleted limit).1.size.toUInt64 := by
  have hc := h.countCompleted.1
  -- the count is the new `indexIncomplete`, and the limit is cut down to it
  have hlimit : (if limit > r.countCompleted.1 then r.countCompleted.1 else limit) ≤
      r.countCompleted.2.indexIncomplete := by
    show _ ≤ r.countCompleted.1
    split_ifs <;> omega
  obtain ⟨hinv, hdel, hsize⟩ := hc.shiftOut hlimit
  rw [getCompleted_eq]
  exact ⟨hinv, hdel, by rw [hsize]; rfl⟩

end Shift

/-! ### Runs -/

section Run

variable {size : Nat} {r : ResultStore}

/-- One call keeps the invariant, hands out the results of the blocks from `resultOffset` on, and
moves `resultOffset` past them. -/
theorem Inv.step (h : Inv size r) (op : Op) :
    Inv size (op.step r).1 ∧ Delivered r.resultOffset (op.step r).2 ∧
      (op.step r).1.resultOffset = r.resultOffset + (op.step r).2.size.toUInt64 := by
  cases op with
  | addFetch header fastSync =>
    exact ⟨h.addFetch header fastSync, delivered_empty _, by simp [Op.step, addFetch_resultOffset]⟩
  | setBodyDone n =>
    refine ⟨h.setDoneAt n FetchResult.setBodyDone_header (fun _ => FetchResult.setBodyDone_of_allDone),
      delivered_empty _, by simp [Op.step, setDoneAt_resultOffset]⟩
  | setReceiptsDone n =>
    refine ⟨h.setDoneAt n FetchResult.setReceiptsDone_header (fun _ => FetchResult.setReceiptsDone_of_allDone),
      delivered_empty _, by simp [Op.step, setDoneAt_resultOffset]⟩
  | setThrottleThreshold t =>
    exact ⟨h.setThrottleThreshold t, delivered_empty _, by simp [Op.step, ResultStore.setThrottleThreshold]⟩
  | getCompleted limit => exact h.getCompleted limit

/-- A whole run keeps the invariant and hands out, across all its calls, the results of the blocks
from `resultOffset` on, in order. -/
theorem Inv.run (h : Inv size r) (ops : List Op) :
    Inv size (run r ops).1 ∧ Delivered r.resultOffset (run r ops).2 ∧
      (run r ops).1.resultOffset = r.resultOffset + (run r ops).2.size.toUInt64 := by
  induction ops generalizing r with
  | nil => exact ⟨h, delivered_empty _, by simp [Go420coin.Downloader.run]⟩
  | cons op ops ih =>
    -- the first call, then the rest of the run from where it leaves the store
    obtain ⟨h1, hd1, ho1⟩ := h.step op
    obtain ⟨h2, hd2, ho2⟩ := ih h1
    refine ⟨h2, hd1.append (ho1 ▸ hd2), ?_⟩
    show (Go420coin.Downloader.run (op.step r).1 ops).1.resultOffset =
      r.resultOffset + ((op.step r).2 ++ (Go420coin.Downloader.run (op.step r).1 ops).2).size.toUInt64
    rw [ho2, ho1, Array.size_append, add_toUInt64_add]

end Run

end ResultStore

/-! ### Runs from `Prepare` -/

end Go420coin.Downloader
