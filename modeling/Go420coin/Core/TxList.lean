import Go420coin.Core.TxPool
import Go420coin.Core.TxSortedMap

/-!
# An account's transaction list with its caps (`core/tx_list.go`)

`txList` keeps an account's transactions in a `txSortedMap`, with two caps: `costcap`, raised by
`Add` to the highest `Cost()` it accepts, and `smokecap`, likewise for `Smoke()`.  No removal lowers
them; `Filter(costLimit, smokeLimit)` lowers them to the limits.  `Filter` returns at once when both
caps are within the limits, trusting them to bound every transaction.  Otherwise it removes the
transactions over a limit, and in a strict list also those above the lowest nonce it removed,
returned as invalidated.

The caps stay upper bounds through every operation (`Inv.caps`, kept by `Op.apply_keeps_inv`), so the
early return skips nothing: `Filter` removes exactly the transactions over a limit, and a strict list
exactly those above the lowest removed nonce (`filter_spec`).

The pool's model (`Core.TxPool`) reads a list as `TxList`, its transactions by nonce; `toTxList`
forgets the index, the cache and the caps, and `Add`, `Remove` and the map's `Filter` act on what it
keeps as the pool's model says (`add_refines`, `remove_refines`).
-/

namespace Go420coin.Core

/-- `txList`, with its `txSortedMap` and its caps. -/
structure SortedTxList where
  strict : Bool
  txs : TxSortedMap PoolTx
  costcap : Int
  smokecap : UInt64

/-- `newTxList`. -/
def newSortedTxList (strict : Bool) : SortedTxList := ⟨strict, newTxSortedMap, 0, 0⟩

namespace SortedTxList

variable (l : SortedTxList)

/-! ### The operations -/

/-- `Overlaps`. -/
def overlaps (tx : PoolTx) : Bool := (l.txs.get tx.nonce).isSome

/-- The end of `Add`: `Put`, and each cap raised to the transaction's if it is below. -/
def putCapped (tx : PoolTx) : SortedTxList :=
  { l with
    txs := l.txs.put PoolTx.nonce tx
    costcap := if l.costcap < tx.cost then tx.cost else l.costcap
    smokecap := if l.smokecap < tx.smoke then tx.smoke else l.smokecap }

/-- `Add`: whether `tx` went in and the transaction it replaced.  A transaction of the same nonce
is replaced only by a strictly higher price that is also at least `priceBump` percent higher. -/
def add (tx : PoolTx) (priceBump : UInt64) : Bool × Option PoolTx × SortedTxList :=
  match l.txs.get tx.nonce with
  | some old =>
    -- `big.NewInt(100 + int64(priceBump))`, times the old price, over 100
    let threshold : Int := (100 + priceBump.toInt64).toInt * old.smokePrice / 100
    if tx.smokePrice ≤ old.smokePrice ∨ (tx.smokePrice : Int) < threshold then (false, none, l)
    else (true, some old, l.putCapped tx)
  | none => (true, none, l.putCapped tx)

/-- `Forward`. -/
def forward (threshold : UInt64) : List PoolTx × SortedTxList :=
  ((l.txs.forward threshold).1, { l with txs := (l.txs.forward threshold).2 })

/-- `Cap`. -/
def cap (threshold : Nat) : List PoolTx × SortedTxList :=
  ((l.txs.cap threshold).1, { l with txs := (l.txs.cap threshold).2 })

/-- `Ready`. -/
def ready (start : UInt64) : List PoolTx × SortedTxList :=
  ((l.txs.ready start).1, { l with txs := (l.txs.ready start).2 })

/-- What `Filter` removes: a transaction over the smoke limit or costing more than the funds. -/
def overLimit (costLimit : Int) (smokeLimit : UInt64) (tx : PoolTx) : Bool :=
  smokeLimit < tx.smoke || costLimit < tx.cost

/-- The loop of `Filter` that finds the lowest removed nonce, from `math.MaxUint64`. -/
def lowestNonce (removed : List PoolTx) : UInt64 :=
  removed.foldl (fun lowest tx => if lowest > tx.nonce then tx.nonce else lowest) maxUint64

/-- `Filter`: the transactions removed and, in a strict list, those invalidated.  Nothing happens
when both caps are within the limits; otherwise the caps are lowered to the limits. -/
def filter (costLimit : Int) (smokeLimit : UInt64) : List PoolTx × List PoolTx × SortedTxList :=
  if l.costcap ≤ costLimit ∧ l.smokecap ≤ smokeLimit then ([], [], l)
  else
    let removed := (l.txs.Filter (overLimit costLimit smokeLimit)).1
    let txs := (l.txs.Filter (overLimit costLimit smokeLimit)).2
    let l := { l with costcap := costLimit, smokecap := smokeLimit }
    if removed.isEmpty then ([], [], { l with txs := txs })
    else
      let invalids :=
        if l.strict then (txs.filter fun tx => lowestNonce removed < tx.nonce) else ([], txs)
      (removed, invalids.1, { l with txs := invalids.2.reheap })

/-- `Remove`: the transaction at `tx`'s nonce, and in a strict list every later one, returned as
invalidated. -/
def remove (tx : PoolTx) : Bool × List PoolTx × SortedTxList :=
  let nonce := tx.nonce
  if (l.txs.remove nonce).1 then
    let txs := (l.txs.remove nonce).2
    if l.strict then
      (true, (txs.Filter fun t => nonce < t.nonce).1, { l with txs := (txs.Filter fun t => nonce < t.nonce).2 })
    else (true, [], { l with txs := txs })
  else (false, [], l)

/-! ### The caps bound the transactions -/

/-- The map keeps its invariant, and the caps bound every transaction of the list. -/
structure Inv : Prop where
  txs : l.txs.Inv PoolTx.nonce
  caps : ∀ tx ∈ l.txs.sortedItems PoolTx.nonce, tx.cost ≤ l.costcap ∧ tx.smoke ≤ l.smokecap

theorem newSortedTxList_inv (strict : Bool) : (newSortedTxList strict).Inv :=
  ⟨TxSortedMap.newTxSortedMap_inv _, by simp [newSortedTxList, newTxSortedMap, TxSortedMap.sortedItems]⟩

variable {l}

/-- A map that keeps its invariant and only lost transactions leaves the caps bounds. -/
theorem Inv.of_erases (h : l.Inv) {txs : TxSortedMap PoolTx} (ht : txs.Inv PoolTx.nonce)
    (he : txs.Erases l.txs) : Inv { l with txs := txs } :=
  ⟨ht, fun tx htx => h.caps tx (TxSortedMap.sortedItems_subset ht.keyed h.txs.keyed he htx)⟩

theorem putCapped_inv (h : l.Inv) (tx : PoolTx) : (l.putCapped tx).Inv := by
  refine ⟨TxSortedMap.put_inv _ h.txs.toIndexed tx, fun tx' htx' => ?_⟩
  have hk := (TxSortedMap.put_inv _ h.txs.toIndexed tx).keyed
  change tx' ∈ TxSortedMap.sortedItems PoolTx.nonce (l.txs.put PoolTx.nonce tx) at htx'
  rw [TxSortedMap.mem_sortedItems hk] at htx'
  simp only [putCapped]
  by_cases hn : tx'.nonce = tx.nonce
  · -- the transaction put: the caps were raised to it
    rw [TxSortedMap.put, hn, AList.lookup_insert, Option.some.injEq] at htx'
    subst htx'
    constructor
    · split <;> omega
    · split
      · exact UInt64.le_refl _
      · exact UInt64.not_lt.mp ‹_›
  · -- a transaction already there: the old caps bound it and the caps only rose
    rw [TxSortedMap.put, AList.lookup_insert_ne hn] at htx'
    obtain ⟨hc, hs⟩ := h.caps tx' ((TxSortedMap.mem_sortedItems h.txs.keyed).mpr htx')
    constructor
    · split <;> omega
    · split
      · exact UInt64.le_of_lt (UInt64.lt_of_le_of_lt hs ‹_›)
      · exact hs

theorem add_inv (h : l.Inv) (tx : PoolTx) (priceBump : UInt64) : (l.add tx priceBump).2.2.Inv := by
  unfold add
  split
  · dsimp only
    split
    · exact h
    · exact putCapped_inv h tx
  · exact putCapped_inv h tx

theorem forward_inv (h : l.Inv) (t : UInt64) : (l.forward t).2.Inv :=
  h.of_erases (TxSortedMap.forward_spec h.txs t).2 (TxSortedMap.forward_erases t)

theorem cap_inv (h : l.Inv) (k : Nat) : (l.cap k).2.Inv :=
  h.of_erases (TxSortedMap.cap_spec h.txs k).2 (TxSortedMap.cap_erases k)

theorem ready_inv (h : l.Inv) (s : UInt64) : (l.ready s).2.Inv :=
  h.of_erases (TxSortedMap.ready_inv h.txs s) (TxSortedMap.ready_erases s)

theorem remove_inv (h : l.Inv) (tx : PoolTx) : (l.remove tx).2.2.Inv := by
  have hr := TxSortedMap.remove_inv h.txs tx.nonce
  have her : (l.txs.remove tx.nonce).2.Erases l.txs := TxSortedMap.remove_erases tx.nonce
  unfold remove
  dsimp only
  split
  · split
    · exact h.of_erases (TxSortedMap.Filter_inv hr _) ((TxSortedMap.Filter_erases _).trans her)
    · exact h.of_erases hr her
  · exact h

/-! ### `Filter` -/

theorem overLimit_eq_true {costLimit : Int} {smokeLimit : UInt64} {tx : PoolTx} :
    overLimit costLimit smokeLimit tx = true ↔ smokeLimit < tx.smoke ∨ costLimit < tx.cost := by
  simp [overLimit]

/-- The lowest nonce is below `n` exactly when some removed nonce is. -/
theorem lowestNonce_lt (removed : List PoolTx) (n : UInt64) :
    lowestNonce removed < n ↔ ∃ x ∈ removed, x.nonce < n := by
  have step : ∀ (a : UInt64) (rs : List PoolTx),
      rs.foldl (fun lowest tx => if lowest > tx.nonce then tx.nonce else lowest) a < n ↔
        a < n ∨ ∃ x ∈ rs, x.nonce < n := by
    intro a rs
    induction rs generalizing a with
    | nil => simp
    | cons x rs ih =>
      -- one round keeps the lower of the two
      have hround : (if a > x.nonce then x.nonce else a) < n ↔ a < n ∨ x.nonce < n := by
        split <;> rename_i hx <;> simp only [gt_iff_lt, UInt64.lt_iff_toNat_lt] at hx ⊢ <;> omega
      rw [List.foldl_cons, ih, hround]
      simp [or_assoc]
  rw [lowestNonce, step]
  have hmax : ¬ maxUint64 < n := by
    have hm : maxUint64.toNat = 18446744073709551615 := rfl
    have := n.toNat_lt
    rw [UInt64.lt_iff_toNat_lt, hm]
    omega
  simp [hmax]

variable (l)

/-- Within the caps, `Filter` returns at once. -/
theorem filter_of_caps {costLimit : Int} {smokeLimit : UInt64}
    (hcaps : l.costcap ≤ costLimit ∧ l.smokecap ≤ smokeLimit) : l.filter costLimit smokeLimit = ([], [], l) := by
  simp [filter, hcaps]

/-- Past a cap, with nothing over a limit: only the caps are lowered. -/
theorem filter_of_nil {costLimit : Int} {smokeLimit : UInt64}
    (hcaps : ¬ (l.costcap ≤ costLimit ∧ l.smokecap ≤ smokeLimit))
    (hnil : (l.txs.Filter (overLimit costLimit smokeLimit)).1 = []) :
    l.filter costLimit smokeLimit = ([], [],
      { l with costcap := costLimit, smokecap := smokeLimit, txs := (l.txs.Filter (overLimit costLimit smokeLimit)).2 }) := by
  simp [filter, hcaps, hnil]

/-- Past a cap, with transactions over a limit: they go, and in a strict list those above the lowest
of their nonces. -/
theorem filter_of_ne_nil {costLimit : Int} {smokeLimit : UInt64}
    (hcaps : ¬ (l.costcap ≤ costLimit ∧ l.smokecap ≤ smokeLimit))
    (hne : (l.txs.Filter (overLimit costLimit smokeLimit)).1 ≠ []) :
    l.filter costLimit smokeLimit =
      let F := l.txs.Filter (overLimit costLimit smokeLimit)
      let I := if l.strict then F.2.filter fun tx => lowestNonce F.1 < tx.nonce else ([], F.2)
      (F.1, I.1, { l with costcap := costLimit, smokecap := smokeLimit, txs := I.2.reheap }) := by
  simp [filter, hcaps, hne]

variable {l}

/-- What `txs.Filter` removes, and what it leaves. -/
theorem mem_Filter_fst (h : l.Inv) {costLimit : Int} {smokeLimit : UInt64} (tx : PoolTx) :
    tx ∈ (l.txs.Filter (overLimit costLimit smokeLimit)).1 ↔
      tx ∈ l.txs.sortedItems PoolTx.nonce ∧ (smokeLimit < tx.smoke ∨ costLimit < tx.cost) := by
  rw [TxSortedMap.Filter_fst, TxSortedMap.mem_filter_fst h.txs.keyed, overLimit_eq_true]

theorem mem_Filter_snd (h : l.Inv) {costLimit : Int} {smokeLimit : UInt64} (tx : PoolTx) :
    tx ∈ (l.txs.Filter (overLimit costLimit smokeLimit)).2.sortedItems PoolTx.nonce ↔
      tx ∈ l.txs.sortedItems PoolTx.nonce ∧ ¬ (smokeLimit < tx.smoke ∨ costLimit < tx.cost) := by
  rw [TxSortedMap.sortedItems_Filter, TxSortedMap.mem_sortedItems_filter h.txs.keyed, ← overLimit_eq_true,
    Bool.not_eq_true]

theorem filter_inv (h : l.Inv) (costLimit : Int) (smokeLimit : UInt64) : (l.filter costLimit smokeLimit).2.2.Inv := by
  by_cases hcaps : l.costcap ≤ costLimit ∧ l.smokecap ≤ smokeLimit
  · rw [filter_of_caps l hcaps]
    exact h
  have hF := TxSortedMap.Filter_inv h.txs (overLimit costLimit smokeLimit)
  -- what `Filter` leaves is within the limits, the new caps
  have hin : ∀ tx ∈ (l.txs.Filter (overLimit costLimit smokeLimit)).2.sortedItems PoolTx.nonce,
      tx.cost ≤ costLimit ∧ tx.smoke ≤ smokeLimit := by
    intro tx htx
    have := ((mem_Filter_snd h tx).mp htx).2
    rw [not_or, UInt64.not_lt, Int.not_lt] at this
    exact ⟨this.2, this.1⟩
  by_cases hnil : (l.txs.Filter (overLimit costLimit smokeLimit)).1 = []
  · rw [filter_of_nil l hcaps hnil]
    exact ⟨hF, hin⟩
  rw [filter_of_ne_nil l hcaps hnil]
  dsimp only
  split
  · have hk := TxSortedMap.filter_keyed hF.keyed fun tx => lowestNonce (l.txs.Filter (overLimit costLimit smokeLimit)).1 < tx.nonce
    exact ⟨TxSortedMap.reheap_inv _ hk, fun tx htx =>
      hin tx (TxSortedMap.sortedItems_subset hk hF.keyed (TxSortedMap.filter_erases _) htx)⟩
  · exact ⟨TxSortedMap.reheap_inv _ hF.keyed, hin⟩

/-- `Filter` removes exactly the transactions over a limit, in a strict list also exactly those
above the lowest nonce it removed, and keeps the rest; the early return within the caps skips
nothing. -/
theorem filter_spec (h : l.Inv) (costLimit : Int) (smokeLimit : UInt64) :
    (∀ tx, tx ∈ (l.filter costLimit smokeLimit).1 ↔
      tx ∈ l.txs.sortedItems PoolTx.nonce ∧ (smokeLimit < tx.smoke ∨ costLimit < tx.cost)) ∧
    (∀ tx, tx ∈ (l.filter costLimit smokeLimit).2.1 ↔ l.strict = true ∧ tx ∈ l.txs.sortedItems PoolTx.nonce ∧
      ¬ (smokeLimit < tx.smoke ∨ costLimit < tx.cost) ∧ ∃ x ∈ (l.filter costLimit smokeLimit).1, x.nonce < tx.nonce) ∧
    (∀ tx, tx ∈ (l.filter costLimit smokeLimit).2.2.txs.sortedItems PoolTx.nonce ↔
      tx ∈ l.txs.sortedItems PoolTx.nonce ∧ tx ∉ (l.filter costLimit smokeLimit).1 ∧
        tx ∉ (l.filter costLimit smokeLimit).2.1) := by
  by_cases hcaps : l.costcap ≤ costLimit ∧ l.smokecap ≤ smokeLimit
  · -- the caps bound every transaction, so none is over a limit
    have hnone : ∀ tx ∈ l.txs.sortedItems PoolTx.nonce, ¬ (smokeLimit < tx.smoke ∨ costLimit < tx.cost) := by
      intro tx htx hover
      obtain ⟨hc, hs⟩ := h.caps tx htx
      rcases hover with hs' | hc'
      · exact UInt64.lt_irrefl _ (UInt64.lt_of_lt_of_le hs' (UInt64.le_trans hs hcaps.2))
      · omega
    rw [filter_of_caps l hcaps]
    refine ⟨fun tx => ?_, fun tx => ?_, fun tx => ?_⟩
    · simpa using fun htx => hnone tx htx
    · simp
    · simp
  by_cases hnil : (l.txs.Filter (overLimit costLimit smokeLimit)).1 = []
  · -- nothing is over a limit
    have hnone : ∀ tx ∈ l.txs.sortedItems PoolTx.nonce, ¬ (smokeLimit < tx.smoke ∨ costLimit < tx.cost) :=
      fun tx htx hover => by simpa [hnil] using (mem_Filter_fst h tx).mpr ⟨htx, hover⟩
    rw [filter_of_nil l hcaps hnil]
    refine ⟨fun tx => ?_, fun tx => ?_, fun tx => ?_⟩
    · simpa using fun htx => hnone tx htx
    · simp
    · simpa [mem_Filter_snd h tx] using fun htx => hnone tx htx
  rw [filter_of_ne_nil l hcaps hnil]
  dsimp only
  refine ⟨mem_Filter_fst h, fun tx => ?_, fun tx => ?_⟩
  · split
    · rename_i hs
      rw [TxSortedMap.mem_filter_fst (TxSortedMap.Filter_inv h.txs _).keyed, mem_Filter_snd h]
      simp only [decide_eq_true_eq, lowestNonce_lt]
      simp [hs, and_assoc]
    · rename_i hs
      simp [hs]
  · rw [TxSortedMap.sortedItems_reheap]
    split
    · have hk := (TxSortedMap.Filter_inv h.txs (overLimit costLimit smokeLimit)).keyed
      simp only [TxSortedMap.mem_sortedItems_filter hk, TxSortedMap.mem_filter_fst hk, mem_Filter_snd h,
        mem_Filter_fst h, decide_eq_false_iff_not, decide_eq_true_eq, lowestNonce_lt]
      constructor
      · rintro ⟨⟨hm, hover⟩, hlow⟩
        exact ⟨hm, fun h' => hover h'.2, fun h' => hlow h'.2⟩
      · rintro ⟨hm, hover, hlow⟩
        have hok : ¬ (smokeLimit < tx.smoke ∨ costLimit < tx.cost) := fun h' => hover ⟨hm, h'⟩
        exact ⟨⟨hm, hok⟩, fun h' => hlow ⟨⟨hm, hok⟩, h'⟩⟩
    · rw [mem_Filter_snd h, mem_Filter_fst h]
      simp only [List.not_mem_nil, not_false_eq_true, and_true]
      tauto

/-! ### Runs of operations -/

/-- The operations of `txList` that change it. -/
inductive Op where
  | add (tx : PoolTx) (priceBump : UInt64)
  | filter (costLimit : Int) (smokeLimit : UInt64)
  | forward (threshold : UInt64)
  | cap (threshold : Nat)
  | remove (tx : PoolTx)
  | ready (start : UInt64)

/-- The list after one operation. -/
def Op.apply : Op → SortedTxList → SortedTxList
  | .add tx priceBump, l => (l.add tx priceBump).2.2
  | .filter costLimit smokeLimit, l => (l.filter costLimit smokeLimit).2.2
  | .forward t, l => (l.forward t).2
  | .cap k, l => (l.cap k).2
  | .remove tx, l => (l.remove tx).2.2
  | .ready s, l => (l.ready s).2

/-- The list after a sequence of operations. -/
def runOps (ops : List Op) (l : SortedTxList) : SortedTxList := ops.foldl (fun l op => op.apply l) l

theorem Op.apply_keeps_inv (h : l.Inv) : ∀ op : Op, (op.apply l).Inv
  | .add tx priceBump => add_inv h tx priceBump
  | .filter costLimit smokeLimit => filter_inv h costLimit smokeLimit
  | .forward t => forward_inv h t
  | .cap k => cap_inv h k
  | .remove tx => remove_inv h tx
  | .ready s => ready_inv h s

theorem runOps_inv (ops : List Op) (h : l.Inv) : (runOps ops l).Inv := by
  induction ops generalizing l with
  | nil => exact h
  | cons op ops ih => exact ih (op.apply_keeps_inv h)

/-- From a new list, after any operations, the caps bound every transaction; so `Filter` removes
exactly the transactions over a limit, a strict list exactly those above the lowest removed nonce,
and the list keeps the rest. -/
theorem runOps_caps_filter (strict : Bool) (ops : List Op) :
    let l := runOps ops (newSortedTxList strict)
    (∀ tx ∈ l.txs.sortedItems PoolTx.nonce, tx.cost ≤ l.costcap ∧ tx.smoke ≤ l.smokecap) ∧
    ∀ (costLimit : Int) (smokeLimit : UInt64),
      (∀ tx, tx ∈ (l.filter costLimit smokeLimit).1 ↔
        tx ∈ l.txs.sortedItems PoolTx.nonce ∧ (smokeLimit < tx.smoke ∨ costLimit < tx.cost)) ∧
      (∀ tx, tx ∈ (l.filter costLimit smokeLimit).2.1 ↔ l.strict = true ∧ tx ∈ l.txs.sortedItems PoolTx.nonce ∧
        ¬ (smokeLimit < tx.smoke ∨ costLimit < tx.cost) ∧ ∃ x ∈ (l.filter costLimit smokeLimit).1, x.nonce < tx.nonce) ∧
      (∀ tx, tx ∈ (l.filter costLimit smokeLimit).2.2.txs.sortedItems PoolTx.nonce ↔
        tx ∈ l.txs.sortedItems PoolTx.nonce ∧ tx ∉ (l.filter costLimit smokeLimit).1 ∧
          tx ∉ (l.filter costLimit smokeLimit).2.1) := by
  intro l
  have h : l.Inv := runOps_inv ops (newSortedTxList_inv strict)
  exact ⟨h.caps, filter_spec h⟩

/-! ### The pool's view of a list -/

variable (l)

/-- The pool's model of the list: its strictness and its transactions by nonce. -/
def toTxList : TxList := ⟨l.strict, l.txs.items⟩

theorem add_refines (tx : PoolTx) (priceBump : UInt64) :
    (l.add tx priceBump).1 = (l.toTxList.add tx priceBump).1 ∧
    (l.add tx priceBump).2.1 = (l.toTxList.add tx priceBump).2.1 ∧
    (l.add tx priceBump).2.2.toTxList = (l.toTxList.add tx priceBump).2.2 := by
  unfold add TxList.add
  simp only [toTxList, TxSortedMap.get]
  cases l.txs.items.lookup tx.nonce with
  | none => exact ⟨rfl, rfl, rfl⟩
  | some old =>
    dsimp only
    split <;> exact ⟨rfl, rfl, rfl⟩

theorem remove_refines (tx : PoolTx) :
    (l.remove tx).1 = (l.toTxList.remove tx).1 ∧ (l.remove tx).2.1 = (l.toTxList.remove tx).2.1 ∧
    (l.remove tx).2.2.toTxList = (l.toTxList.remove tx).2.2 := by
  unfold remove TxList.remove
  cases hl : l.txs.items.lookup tx.nonce with
  | none =>
    have hmem : tx.nonce ∉ l.txs.items := AList.lookup_eq_none.mp hl
    simp [TxSortedMap.remove_of_lookup_none hl, toTxList, hmem]
  | some old =>
    have hmem : tx.nonce ∈ l.txs.items := AList.lookup_isSome.mp (by rw [hl]; rfl)
    obtain ⟨hfound, hitems⟩ := TxSortedMap.remove_of_lookup_some hl
    simp only [hfound, toTxList, hmem, if_true]
    by_cases hs : l.strict = true
    · -- the later transactions go, by the same filter in both
      simp only [hs, if_true, true_and]
      constructor
      · rw [TxSortedMap.Filter_fst]
        simp only [TxSortedMap.filter, TxList.filter, hitems]
      · simp only [TxSortedMap.Filter_items]
        simp only [TxSortedMap.filter, TxList.filter, hitems]
    · simp [hs, hitems]

end SortedTxList

end Go420coin.Core
