import Go420coin.Lib.BinaryHeap
import Mathlib.Data.List.AList
import Mathlib.Data.List.Sort

/-!
# The nonce-sorted map of an account's transactions (`core/tx_list.go`)

`txSortedMap` keeps an account's transactions by nonce in `items`, the nonces in a min-heap
`index` (`nonceHeap`), and, once `flatten` has sorted them, the transactions in nonce order in
`cache`.  The operations patch the heap and the cache in place: `Forward` and `Ready` pop the root,
`Forward` cuts the front off the cache and `Cap` its back, `Remove` finds the nonce by a linear
search and calls `heap.Remove`, and `filter` leaves the heap stale for `Filter` or `reheap` to
rebuild.

The invariant `Inv` says that the index is a heap of exactly the nonces of `items`, that every
transaction is stored under its own nonce, and that a cache is the transactions sorted by nonce
(`sortedItems`).  Every operation keeps it, from the empty map on (`runOps_inv`).  Under it,
`Forward(t)` returns the transactions below `t` in increasing order (`forward_spec`), `Ready(s)`
the run of consecutive nonces from the lowest (`ready_spec`), and `Cap(k)` the transactions above
the `k` lowest, in *decreasing* order, since it drops them from the highest nonce down
(`cap_spec`).

A transaction is any type with a nonce; Go's maps iterate in no fixed order, and the model reads
`items` in its list order where Go ranges over it (`filter`, `reheap`, `flatten`).  `sort.Sort` is
`insertionSort`: a sorted list of numbers is unique, and so is one of transactions with distinct
nonces.  Reading a nonce of the index that `items` lacks would add a nil transaction in Go; under
the invariant it does not happen, and the model adds nothing.
-/

namespace Go420coin.Core

open BinaryHeap

/-- Two lists, each strictly increasing in a `uint64` key, with the same members are equal. -/
theorem eq_of_pairwise_key_lt {α : Type} {key : α → UInt64} {l₁ l₂ : List α}
    (h₁ : l₁.Pairwise fun a b => key a < key b) (h₂ : l₂.Pairwise fun a b => key a < key b)
    (hmem : ∀ x, x ∈ l₁ ↔ x ∈ l₂) : l₁ = l₂ := by
  have hnd : ∀ {l : List α}, (l.Pairwise fun a b => key a < key b) → l.Nodup := fun h =>
    h.imp fun {a b} hab (he : a = b) => UInt64.lt_irrefl _ (he ▸ hab)
  have hp := (List.perm_ext_iff_of_nodup (hnd h₁) (hnd h₂)).mpr hmem
  exact hp.eq_of_pairwise (fun a b _ _ hab hba => absurd (UInt64.lt_trans hab hba) (UInt64.lt_irrefl _)) h₁ h₂

/-- In a list increasing in its key, the elements below a bound are its front. -/
theorem takeWhile_eq_filter_of_pairwise {α : Type} {key : α → UInt64} {l : List α}
    (h : l.Pairwise fun a b => key a < key b) (t : UInt64) :
    l.takeWhile (fun x => key x < t) = l.filter (fun x => key x < t) := by
  induction l with
  | nil => rfl
  | cons x l ih =>
    rw [List.pairwise_cons] at h
    by_cases hx : key x < t
    · simp [hx, ih h.2]
    · have hnil : l.filter (fun x => key x < t) = [] := List.filter_eq_nil_iff.mpr fun y hy hyt =>
        hx (UInt64.lt_trans (h.1 y hy) (of_decide_eq_true hyt))
      simp [hx, hnil]

/-- `nonceHeap.Less`. -/
def nonceLess (a b : UInt64) : Bool := decide (a < b)

theorem nonceLess_strictWeakOrder : StrictWeakOrder nonceLess where
  irrefl a := by simp [nonceLess]
  trans a b c hab hbc := by
    simp only [nonceLess, decide_eq_true_eq, UInt64.lt_iff_toNat_lt] at *
    omega
  ntrans a b c hab hbc := by
    simp only [nonceLess, decide_eq_false_iff_not, UInt64.not_lt, UInt64.le_iff_toNat_le] at *
    omega

/-- `txSortedMap`. -/
structure TxSortedMap (Tx : Type) where
  items : AList (fun _ : UInt64 => Tx)
  index : Array UInt64
  cache : Option (List Tx)

/-- `newTxSortedMap`. -/
def newTxSortedMap {Tx : Type} : TxSortedMap Tx := ⟨∅, #[], none⟩

namespace TxSortedMap

variable {Tx : Type} (txNonce : Tx → UInt64) (m : TxSortedMap Tx)

/-! ### The operations -/

/-- `Get`. -/
def get (nonce : UInt64) : Option Tx := m.items.lookup nonce

/-- `Len`. -/
def len : Nat := m.items.entries.length

/-- `Put`: a nonce the map does not hold yet goes on the heap; the cache is dropped. -/
def put (tx : Tx) : TxSortedMap Tx :=
  let nonce := txNonce tx
  { items := m.items.insert nonce tx
    index := if m.items.lookup nonce = none then push nonceLess m.index nonce else m.index
    cache := none }

/-- `heap.Pop(m.index)` and `delete(m.items, n)`, for the root `n`. -/
def popRoot (n : UInt64) : TxSortedMap Tx :=
  { m with items := m.items.erase n, index := (pop nonceLess m.index).2 }

/-- The loop of `Forward`: while the root is below `threshold` it is popped, and its transaction
joins `removed`.  Each round pops one nonce, so the size of the index is fuel enough. -/
def forwardLoop (threshold : UInt64) : Nat → List Tx → TxSortedMap Tx → List Tx × TxSortedMap Tx
  | 0, removed, m => (removed, m)
  | fuel + 1, removed, m =>
    match m.index[0]? with
    | some root =>
      if root < threshold then
        -- `nonce := heap.Pop(m.index).(uint64)`, the root
        let nonce := (pop nonceLess m.index).1.getD root
        forwardLoop threshold fuel (removed ++ (m.items.lookup nonce).toList) (m.popRoot nonce)
      else (removed, m)
    | none => (removed, m)

/-- `Forward`: the transactions below `threshold` leave the map, and as many leave the front of
the cache. -/
def forward (threshold : UInt64) : List Tx × TxSortedMap Tx :=
  let (removed, m) := forwardLoop threshold m.index.size [] m
  (removed, { m with cache := m.cache.map (·.drop removed.length) })

/-- `filter`: the transactions `f` holds of leave `items`; the index is left as it was. -/
def filter (f : Tx → Bool) : List Tx × TxSortedMap Tx :=
  let removed := m.items.entries.filter fun e => f e.2
  (removed.map (·.2),
    { m with
      items := removed.foldl (fun items e => items.erase e.1) m.items
      cache := if removed.isEmpty then m.cache else none })

/-- `reheap`: the index rebuilt from the nonces of `items` by `heap.Init`. -/
def reheap : TxSortedMap Tx :=
  { m with index := init nonceLess m.items.keys.toArray, cache := none }

/-- `Filter`: `filter`, then `reheap` if anything was removed. -/
def Filter (f : Tx → Bool) : List Tx × TxSortedMap Tx :=
  let (removed, m) := m.filter f
  if removed.isEmpty then (removed, m) else (removed, m.reheap)

/-- The loop of `Cap`: `size` from `len(m.items)` down to `threshold + 1`, dropping the
transaction at `(*m.index)[size-1]` of the sorted index. -/
def capLoop (sorted : List UInt64) (threshold : Nat) :
    Nat → List Tx → AList (fun _ : UInt64 => Tx) → List Tx × AList (fun _ : UInt64 => Tx)
  | 0, drops, items => (drops, items)
  | size + 1, drops, items =>
    if threshold < size + 1 then
      let nonce := sorted.getD size 0
      capLoop sorted threshold size (drops ++ (items.lookup nonce).toList) (items.erase nonce)
    else (drops, items)

/-- `Cap`: past `threshold` transactions, the highest nonces are dropped, the index is cut to the
lowest `threshold` and re-heaped, and the back of the cache goes. -/
def cap (threshold : Nat) : List Tx × TxSortedMap Tx :=
  if m.len ≤ threshold then ([], m)
  else
    -- `sort.Sort(*m.index)`
    let sorted := m.index.toList.insertionSort (· ≤ ·)
    let (drops, items) := capLoop sorted threshold m.len [] m.items
    (drops,
      { items := items
        index := init nonceLess (sorted.take threshold).toArray
        cache := m.cache.map fun c => c.take (c.length - drops.length) })

/-- `Remove`: the nonce is found in the index by a linear search and taken out by `heap.Remove`. -/
def remove (nonce : UInt64) : Bool × TxSortedMap Tx :=
  match m.items.lookup nonce with
  | none => (false, m)
  | some _ =>
    let index := match m.index.findIdx? (· == nonce) with
      | some i => (BinaryHeap.remove nonceLess m.index i).2
      | none => m.index
    (true, { items := m.items.erase nonce, index := index, cache := none })

/-- The loop of `Ready`: while the root is `next`, its transaction is taken and `next` steps on
(a `uint64`, wrapping). -/
def readyLoop : Nat → UInt64 → List Tx → TxSortedMap Tx → List Tx × TxSortedMap Tx
  | 0, _, ready, m => (ready, m)
  | fuel + 1, next, ready, m =>
    if m.index[0]? = some next then
      readyLoop fuel (next + 1) (ready ++ (m.items.lookup next).toList) (m.popRoot next)
    else (ready, m)

/-- `Ready`: nothing if the lowest nonce is above `start`, else the run of consecutive nonces
from the lowest. -/
def ready (start : UInt64) : List Tx × TxSortedMap Tx :=
  match m.index[0]? with
  | some first =>
    if first > start then ([], m)
    else
      let (ready, m) := readyLoop m.index.size first [] m
      (ready, { m with cache := none })
  | none => ([], m)

/-- `flatten` (and `Flatten`, which returns a copy of the same list): the cache, sorted by nonce
from `items` when there is none. -/
def flatten : List Tx × TxSortedMap Tx :=
  match m.cache with
  | some c => (c, m)
  | none =>
    let c := (m.items.entries.map (·.2)).insertionSort fun a b => txNonce a ≤ txNonce b
    (c, { m with cache := some c })

/-! ### The invariant -/

/-- `R` is the run of consecutive nonces of `L` from `next`: a front of `L` whose nonces are
`next, next + 1, …`, such that no transaction of `L` has the nonce after the last. -/
def IsRunFrom (L : List Tx) (next : UInt64) (R : List Tx) : Prop :=
  R <+: L ∧ (∀ i (hi : i < R.length), (txNonce R[i]).toNat = next.toNat + i) ∧
    ∀ tx ∈ L, (txNonce tx).toNat ≠ next.toNat + R.length

/-- The transactions of the map in nonce order, as `flatten` sorts them. -/
def sortedItems : List Tx :=
  (m.items.entries.map (·.2)).insertionSort fun a b => txNonce a ≤ txNonce b

/-- Every transaction is stored under its own nonce. -/
def Keyed : Prop := ∀ n tx, m.items.lookup n = some tx → txNonce tx = n

/-- The index is a heap of exactly the nonces of `items`. -/
structure Indexed : Prop where
  keyed : Keyed txNonce m
  index_perm : m.index.toList.Perm m.items.keys
  heap : IsHeap nonceLess m.index

/-- `Indexed`, and a cache is the transactions in nonce order. -/
structure Inv : Prop extends Indexed txNonce m where
  cache : ∀ c, m.cache = some c → c = sortedItems txNonce m

theorem mem_values {tx : Tx} : tx ∈ m.items.entries.map (·.2) ↔ ∃ n, m.items.lookup n = some tx := by
  simp only [List.mem_map]
  constructor
  · rintro ⟨⟨n, tx'⟩, he, rfl⟩
    exact ⟨n, Option.mem_def.mp (AList.mem_lookup_iff.mpr he)⟩
  · rintro ⟨n, hn⟩
    exact ⟨⟨n, tx⟩, AList.mem_lookup_iff.mp (Option.mem_def.mpr hn), rfl⟩

theorem sortedItems_pairwise_le : (sortedItems txNonce m).Pairwise fun a b => txNonce a ≤ txNonce b :=
  have : Std.Total fun a b : Tx => txNonce a ≤ txNonce b := ⟨fun _ _ => UInt64.le_total _ _⟩
  have : IsTrans Tx fun a b => txNonce a ≤ txNonce b := ⟨fun _ _ _ => UInt64.le_trans⟩
  List.pairwise_insertionSort _ _

theorem length_sortedItems : (sortedItems txNonce m).length = m.len :=
  (List.length_insertionSort _ _).trans (List.length_map _)

section Keyed

variable {txNonce m} (hk : Keyed txNonce m)
include hk

theorem mem_sortedItems {tx : Tx} : tx ∈ sortedItems txNonce m ↔ m.items.lookup (txNonce tx) = some tx := by
  rw [sortedItems, List.mem_insertionSort, mem_values]
  constructor
  · rintro ⟨n, hn⟩
    rwa [hk n tx hn]
  · exact fun h => ⟨_, h⟩

theorem map_values_nonce : (m.items.entries.map (·.2)).map txNonce = m.items.keys := by
  rw [List.map_map, AList.keys, List.keys]
  apply List.map_congr_left
  rintro ⟨n, tx⟩ he
  exact hk n tx (Option.mem_def.mp (AList.mem_lookup_iff.mpr he))

theorem keys_perm_sortedItems : m.items.keys.Perm ((sortedItems txNonce m).map txNonce) := by
  rw [← map_values_nonce hk]
  exact ((List.perm_insertionSort _ _).map txNonce).symm

/-- With every transaction under its own nonce, the nonces are distinct, so the order is strict. -/
theorem sortedItems_pairwise : (sortedItems txNonce m).Pairwise fun a b => txNonce a < txNonce b := by
  have hnd : ((sortedItems txNonce m).map txNonce).Nodup :=
    (keys_perm_sortedItems hk).nodup_iff.mp m.items.keys_nodup
  rw [List.Nodup, List.pairwise_map] at hnd
  exact ((sortedItems_pairwise_le txNonce m).and hnd).imp fun h => UInt64.lt_of_le_of_ne h.1 h.2

/-- `sortedItems` is the one strictly increasing list of the map's transactions. -/
theorem eq_sortedItems {l : List Tx} (hs : l.Pairwise fun a b => txNonce a < txNonce b)
    (hmem : ∀ tx, tx ∈ l ↔ m.items.lookup (txNonce tx) = some tx) : l = sortedItems txNonce m :=
  eq_of_pairwise_key_lt hs (sortedItems_pairwise hk) fun tx => (hmem tx).trans (mem_sortedItems hk).symm

/-- With no nonce in the index there is no transaction. -/
theorem sortedItems_eq_nil (h : Indexed txNonce m) (h0 : m.index.size = 0) : sortedItems txNonce m = [] := by
  have hkeys : m.items.keys = [] := by
    have := h.index_perm
    rwa [Array.toList_eq_nil_iff.mpr (Array.eq_empty_of_size_eq_zero h0), List.nil_perm] at this
  have := keys_perm_sortedItems hk
  rwa [hkeys, List.nil_perm, List.map_eq_nil_iff] at this

end Keyed

/-! ### Deleting a nonce -/

theorem keyed_erase (hk : Keyed txNonce m) (n : UInt64) : Keyed txNonce { m with items := m.items.erase n } := by
  intro k tx hkt
  by_cases hkn : k = n
  · rw [hkn, AList.lookup_erase] at hkt
    cases hkt
  · exact hk k tx (by rwa [AList.lookup_erase_ne hkn] at hkt)

/-- An index that lost `n` from its end after a shuffle holds the other nonces. -/
theorem index_perm_erase {a : Array UInt64} (h : Indexed txNonce m) {n : UInt64} (hn : n ∈ m.index)
    (ha : (a.push n).Perm m.index) : a.toList.Perm (m.items.erase n).keys := by
  have hmem : n ∈ m.items.keys := h.index_perm.subset (Array.mem_toList_iff.mpr hn)
  have hp : (n :: a.toList).Perm (n :: m.items.keys.erase n) := by
    have := (List.perm_append_singleton n a.toList).symm.trans (Array.toList_push ▸ ha.toList)
    exact this.trans (h.index_perm.trans (List.perm_cons_erase hmem))
  rw [AList.keys_erase]
  exact hp.cons_inv

variable {txNonce m}

@[simp] theorem popRoot_items (n : UInt64) : (m.popRoot n).items = m.items.erase n := rfl

@[simp] theorem popRoot_index (n : UInt64) : (m.popRoot n).index = (pop nonceLess m.index).2 := rfl

@[simp] theorem popRoot_cache (n : UInt64) : (m.popRoot n).cache = m.cache := rfl

theorem popRoot_size {n : UInt64} (hn : m.index[0]? = some n) : (m.popRoot n).index.size + 1 = m.index.size := by
  have h0 : 0 < m.index.size := by
    rcases Nat.eq_zero_or_pos m.index.size with h | h
    · rw [Array.getElem?_eq_none_iff.mpr (by omega)] at hn
      cases hn
    · exact h
  have := (pop_perm nonceLess (a := m.index) (by rw [pop_fst, hn])).toList.length_eq
  simp only [Array.length_toList, Array.size_push] at this
  rw [popRoot_index, this]

theorem popRoot_indexed (h : Indexed txNonce m) {n : UInt64} (hn : m.index[0]? = some n) :
    Indexed txNonce (m.popRoot n) where
  keyed := keyed_erase txNonce m h.keyed n
  index_perm := index_perm_erase txNonce m h (Array.mem_of_getElem? hn) (pop_perm nonceLess (by rw [pop_fst, hn]))
  heap := heap_pop nonceLess_strictWeakOrder h.heap

/-- The root is the lowest nonce, so its transaction heads the sorted list and the rest follow. -/
theorem sortedItems_eq_cons (h : Indexed txNonce m) {n : UInt64} (hn : m.index[0]? = some n) :
    ∃ tx, m.items.lookup n = some tx ∧ txNonce tx = n ∧
      sortedItems txNonce m = tx :: sortedItems txNonce (m.popRoot n) := by
  have hmem : n ∈ m.items := AList.mem_keys.mpr (h.index_perm.subset (Array.mem_toList_iff.mpr (Array.mem_of_getElem? hn)))
  obtain ⟨tx, htx⟩ := Option.isSome_iff_exists.mp (AList.lookup_isSome.mpr hmem)
  have hnonce : txNonce tx = n := h.keyed n tx htx
  -- nothing in the index is below the root
  have hmin : ∀ k ∈ m.items.keys, ¬ k < n := by
    intro k hk hlt
    have := pop_min nonceLess_strictWeakOrder h.heap (by rw [pop_fst, hn]) k
      (Array.mem_toList_iff.mp (h.index_perm.symm.subset hk))
    simp [nonceLess, hlt] at this
  have hk' := (popRoot_indexed h hn).keyed
  refine ⟨tx, htx, hnonce, (eq_sortedItems h.keyed ?_ ?_).symm⟩
  · refine List.Pairwise.cons (fun y hy => ?_) (sortedItems_pairwise hk')
    rw [mem_sortedItems hk', popRoot_items] at hy
    have hyn : txNonce y ≠ n := fun he => by rw [he, AList.lookup_erase] at hy; cases hy
    rw [AList.lookup_erase_ne hyn] at hy
    have := hmin _ (AList.mem_keys.mp (AList.lookup_isSome.mp (by rw [hy]; rfl)))
    rw [hnonce]
    exact UInt64.lt_of_le_of_ne (UInt64.not_lt.mp this) (Ne.symm hyn)
  · intro y
    rw [List.mem_cons, mem_sortedItems hk', popRoot_items]
    by_cases hyn : txNonce y = n
    · rw [hyn, AList.lookup_erase, htx]
      constructor
      · rintro (rfl | h)
        · rfl
        · cases h
      · intro he
        exact Or.inl (Option.some.inj he).symm
    · rw [AList.lookup_erase_ne hyn]
      constructor
      · rintro (rfl | h)
        · exact absurd hnonce hyn
        · exact h
      · exact Or.inr

/-! ### What each operation keeps -/

variable (txNonce)

theorem newTxSortedMap_inv : Inv txNonce (newTxSortedMap : TxSortedMap Tx) where
  keyed n tx h := by simp [newTxSortedMap] at h
  index_perm := by simp [newTxSortedMap]
  heap c hc0 hcn := by simp [newTxSortedMap] at hcn
  cache c h := by simp [newTxSortedMap] at h

theorem put_inv (h : Indexed txNonce m) (tx : Tx) : Inv txNonce (m.put txNonce tx) where
  keyed k tx' hkt := by
    by_cases hkn : k = txNonce tx
    · rw [put, hkn, AList.lookup_insert] at hkt
      rw [← Option.some.inj hkt, hkn]
    · exact h.keyed k tx' (by rwa [put, AList.lookup_insert_ne hkn] at hkt)
  index_perm := by
    simp only [put, AList.keys_insert]
    split
    · -- a new nonce: pushed on the heap, and not among the keys
      rename_i hnone
      rw [List.erase_of_not_mem (fun hm => (AList.lookup_eq_none.mp hnone) (AList.mem_keys.mpr hm))]
      refine (push_perm nonceLess m.index _).toList.trans ?_
      rw [Array.toList_push]
      exact (h.index_perm.append_right _).trans (List.perm_append_singleton _ _)
    · -- a known nonce: the index already holds it
      rename_i hsome
      have hmem : txNonce tx ∈ m.items.keys :=
        AList.mem_keys.mp (AList.lookup_isSome.mp (Option.isSome_iff_ne_none.mpr hsome))
      exact h.index_perm.trans (List.perm_cons_erase hmem)
  heap := by
    simp only [put]
    split
    · exact heap_push nonceLess_strictWeakOrder h.heap _
    · exact h.heap
  cache c hc := by simp [put] at hc

/-! ### `Forward` -/

variable {txNonce}

theorem forwardLoop_of_lt {t root : UInt64} (fuel : Nat) (removed : List Tx) (hroot : m.index[0]? = some root)
    (hlt : root < t) :
    forwardLoop t (fuel + 1) removed m =
      forwardLoop t fuel (removed ++ (m.items.lookup root).toList) (m.popRoot root) := by
  have hpop : (pop nonceLess m.index).1 = some root := by rw [pop_fst, hroot]
  simp only [forwardLoop, hroot, hlt, if_true]
  rw [hpop, Option.getD_some]

theorem forwardLoop_of_not_lt {t root : UInt64} (fuel : Nat) (removed : List Tx)
    (hroot : m.index[0]? = some root) (hlt : ¬ root < t) : forwardLoop t (fuel + 1) removed m = (removed, m) := by
  simp [forwardLoop, hroot, hlt]

/-- The loop of `Forward` takes the transactions below the threshold off the front of the sorted
list, the index staying a heap of the rest. -/
theorem forwardLoop_spec (t : UInt64) : ∀ (fuel : Nat) (removed : List Tx) (m : TxSortedMap Tx),
    Indexed txNonce m → m.index.size ≤ fuel →
    (forwardLoop t fuel removed m).1 = removed ++ (sortedItems txNonce m).takeWhile (fun tx => txNonce tx < t) ∧
    Indexed txNonce (forwardLoop t fuel removed m).2 ∧
    sortedItems txNonce (forwardLoop t fuel removed m).2 =
      (sortedItems txNonce m).dropWhile (fun tx => txNonce tx < t) ∧
    (forwardLoop t fuel removed m).2.cache = m.cache
  | 0, removed, m, h, hs => by
    rw [sortedItems_eq_nil h.keyed h (by omega)]
    exact ⟨by simp [forwardLoop], h, by simp [forwardLoop, sortedItems_eq_nil h.keyed h (by omega)], rfl⟩
  | fuel + 1, removed, m, h, hs => by
    cases hroot : m.index[0]? with
    | none =>
      have h0 : m.index.size = 0 := Nat.le_zero.mp (Array.getElem?_eq_none_iff.mp hroot)
      rw [sortedItems_eq_nil h.keyed h h0]
      exact ⟨by simp [forwardLoop, hroot], by simpa [forwardLoop, hroot] using h,
        by simp [forwardLoop, hroot, sortedItems_eq_nil h.keyed h h0], by simp [forwardLoop, hroot]⟩
    | some root =>
      obtain ⟨tx, htx, hnonce, heq⟩ := sortedItems_eq_cons h hroot
      by_cases hlt : root < t
      · -- the root is popped and the loop goes on from the rest
        have hpos : decide (txNonce tx < t) = true := by rw [hnonce]; exact decide_eq_true hlt
        obtain ⟨h1, h2, h3, h4⟩ := forwardLoop_spec t fuel (removed ++ [tx]) (m.popRoot root)
          (popRoot_indexed h hroot) (by have := popRoot_size hroot; omega)
        rw [forwardLoop_of_lt fuel removed hroot hlt, htx, Option.toList_some, heq,
          List.takeWhile_cons_of_pos (p := fun tx => decide (txNonce tx < t)) hpos,
          List.dropWhile_cons_of_pos (p := fun tx => decide (txNonce tx < t)) hpos]
        exact ⟨by rw [h1, List.append_assoc, List.singleton_append], h2, h3, h4⟩
      · have hneg : ¬ decide (txNonce tx < t) = true := by rw [hnonce]; simpa using hlt
        rw [forwardLoop_of_not_lt fuel removed hroot hlt, heq,
          List.takeWhile_cons_of_neg (p := fun tx => decide (txNonce tx < t)) hneg,
          List.dropWhile_cons_of_neg (p := fun tx => decide (txNonce tx < t)) hneg, ← heq]
        exact ⟨(List.append_nil _).symm, h, rfl, rfl⟩

/-- `Forward(t)` returns the transactions below `t` in increasing nonce order, and keeps the
invariant: the cache loses exactly its front. -/
theorem forward_spec (h : Inv txNonce m) (t : UInt64) :
    (m.forward t).1 = (sortedItems txNonce m).filter (fun tx => txNonce tx < t) ∧ Inv txNonce (m.forward t).2 := by
  obtain ⟨h1, h2, h3, h4⟩ := forwardLoop_spec t m.index.size [] m h.toIndexed (Nat.le_refl _)
  refine ⟨?_, ⟨⟨h2.keyed, h2.index_perm, h2.heap⟩, ?_⟩⟩
  · rw [forward, h1, List.nil_append, takeWhile_eq_filter_of_pairwise (sortedItems_pairwise h.keyed)]
  · intro c hc
    simp only [forward, h4, Option.map_eq_some_iff] at hc
    obtain ⟨c₀, hc₀, rfl⟩ := hc
    rw [h.cache c₀ hc₀, h1, List.nil_append]
    change _ = sortedItems txNonce (forwardLoop t m.index.size [] m).2
    rw [h3]
    have hsplit := List.takeWhile_append_dropWhile (p := fun tx => decide (txNonce tx < t)) (l := sortedItems txNonce m)
    nth_rewrite 2 [← hsplit]
    exact List.drop_left

/-! ### `filter`, `reheap` and `Filter` -/

/-- Deleting the keys of a list of entries one after the other. -/
theorem lookup_foldl_erase {β : Type} (es : List (Σ _ : UInt64, β)) (items : AList fun _ : UInt64 => β)
    (k : UInt64) :
    (es.foldl (fun items e => items.erase e.1) items).lookup k =
      if k ∈ es.map (·.1) then none else items.lookup k := by
  induction es generalizing items with
  | nil => simp
  | cons e es ih =>
    rw [List.foldl_cons, ih]
    by_cases hk : k = e.1
    · subst hk
      simp [AList.lookup_erase]
    · have hmem : k ∈ (e :: es).map (·.1) ↔ k ∈ es.map (·.1) := by simp [hk]
      simp only [AList.lookup_erase_ne hk, hmem]

/-- The nonces `filter` deletes are those whose transaction `f` holds of. -/
theorem mem_filter_keys (f : Tx → Bool) (k : UInt64) :
    k ∈ (m.items.entries.filter fun e => f e.2).map (·.1) ↔ ∃ tx, m.items.lookup k = some tx ∧ f tx = true := by
  simp only [List.mem_map, List.mem_filter]
  constructor
  · rintro ⟨⟨k', tx⟩, ⟨he, hf⟩, rfl⟩
    exact ⟨tx, Option.mem_def.mp (AList.mem_lookup_iff.mpr he), hf⟩
  · rintro ⟨tx, hl, hf⟩
    exact ⟨⟨k, tx⟩, ⟨AList.mem_lookup_iff.mp (Option.mem_def.mpr hl), hf⟩, rfl⟩

theorem lookup_filter (f : Tx → Bool) (k : UInt64) :
    (m.filter f).2.items.lookup k = (m.items.lookup k).filter fun tx => !f tx := by
  simp only [filter, lookup_foldl_erase, mem_filter_keys]
  cases hl : m.items.lookup k with
  | none => simp
  | some tx => cases hf : f tx <;> simp [hf, Option.filter]

theorem filter_keyed (hk : Keyed txNonce m) (f : Tx → Bool) : Keyed txNonce (m.filter f).2 := by
  intro k tx hkt
  rw [lookup_filter, Option.filter_eq_some_iff] at hkt
  exact hk k tx hkt.1

/-- A `filter` that removes nothing leaves the map as it was. -/
theorem filter_of_nil {f : Tx → Bool} (h : (m.filter f).1 = []) : (m.filter f).2 = m := by
  simp only [filter, List.map_eq_nil_iff] at h ⊢
  simp [h]

variable (txNonce) in
/-- `reheap` rebuilds what `filter` leaves stale: from any map that stores each transaction under
its nonce it makes one that keeps the invariant. -/
theorem reheap_inv (hk : Keyed txNonce m) : Inv txNonce m.reheap where
  keyed := hk
  index_perm := by
    simpa [reheap] using (init_perm nonceLess m.items.keys.toArray).toList
  heap := heap_init nonceLess_strictWeakOrder _
  cache c hc := by simp [reheap] at hc

theorem Filter_inv (h : Inv txNonce m) (f : Tx → Bool) : Inv txNonce (m.Filter f).2 := by
  simp only [Filter]
  split
  · rename_i hnil
    rw [filter_of_nil (List.isEmpty_iff.mp hnil)]
    exact h
  · exact reheap_inv txNonce (filter_keyed h.keyed f)

/-! ### `Cap` -/

/-- `sort.Sort(*m.index)` lists the nonces of the sorted transactions. -/
theorem insertionSort_index (h : Indexed txNonce m) :
    m.index.toList.insertionSort (· ≤ ·) = (sortedItems txNonce m).map txNonce := by
  have : Std.Total fun a b : UInt64 => a ≤ b := ⟨UInt64.le_total⟩
  have : IsTrans UInt64 fun a b => a ≤ b := ⟨fun _ _ _ => UInt64.le_trans⟩
  have hp : (m.index.toList.insertionSort (· ≤ ·)).Perm ((sortedItems txNonce m).map txNonce) :=
    (List.perm_insertionSort _ _).trans (h.index_perm.trans (keys_perm_sortedItems h.keyed))
  have hs : ((sortedItems txNonce m).map txNonce).Pairwise (· ≤ ·) :=
    List.pairwise_map.mpr ((sortedItems_pairwise h.keyed).imp UInt64.le_of_lt)
  exact hp.eq_of_pairwise (fun _ _ _ _ => UInt64.le_antisymm) (List.pairwise_insertionSort _ _) hs

/-- The loop of `Cap` over the nonces of an increasing list `L`: from `size` down to past the
threshold it drops `L`'s transactions from position `size - 1` down to `threshold`. -/
theorem capLoop_spec {L : List Tx} (hL : L.Pairwise fun a b => txNonce a < txNonce b) (k : Nat) :
    ∀ (s : Nat) (drops : List Tx) (items : AList fun _ : UInt64 => Tx), s ≤ L.length →
    (∀ tx ∈ L.take s, items.lookup (txNonce tx) = some tx) →
    (capLoop (L.map txNonce) k s drops items).1 = drops ++ ((L.take s).drop k).reverse ∧
    ∀ n, (capLoop (L.map txNonce) k s drops items).2.lookup n =
      if n ∈ ((L.take s).drop k).map txNonce then none else items.lookup n
  | 0, drops, items, _, _ => by simp [capLoop]
  | s + 1, drops, items, hs, hlk => by
    by_cases hks : k < s + 1
    · -- position `s` is dropped; its nonce is above every nonce below it
      have hsL : s < L.length := by omega
      have htake : L.take (s + 1) = L.take s ++ [L[s]] := by
        rw [List.take_add_one, List.getElem?_eq_getElem hsL, Option.toList_some]
      have hdrop : (L.take (s + 1)).drop k = (L.take s).drop k ++ [L[s]] := by
        rw [htake, List.drop_append_of_le_length (by simp; omega)]
      have hlt : ∀ tx ∈ L.take s, txNonce tx < txNonce (L[s]) := by
        have := (htake ▸ hL.sublist (List.take_sublist (s + 1) L) :
          (L.take s ++ [L[s]]).Pairwise fun a b => txNonce a < txNonce b)
        exact fun tx htx => (List.pairwise_append.mp this).2.2 tx htx _ (List.mem_singleton_self _)
      have hget : (L.map txNonce).getD s 0 = txNonce (L[s]) := by
        simp [List.getD_eq_getElem?_getD, hsL]
      have hs' : items.lookup (txNonce (L[s])) = some (L[s]) :=
        hlk _ (htake ▸ List.mem_append_right _ (List.mem_singleton_self _))
      obtain ⟨h1, h2⟩ := capLoop_spec hL k s (drops ++ [L[s]]) (items.erase (txNonce (L[s])))
        (by omega) fun tx htx => by
          rw [AList.lookup_erase_ne (UInt64.ne_of_lt (hlt tx htx))]
          exact hlk tx (htake ▸ List.mem_append_left _ htx)
      simp only [capLoop, if_pos hks]
      rw [hget, hs', Option.toList_some]
      refine ⟨by rw [h1, hdrop, List.reverse_append, List.append_assoc]; rfl, fun n => ?_⟩
      simp only [h2, hdrop, List.map_append, List.mem_append]
      by_cases hn : n = txNonce (L[s])
      · subst hn
        simp
      · have hmem : n ∈ [L[s]].map txNonce ↔ False := by simp [hn]
        simp only [hmem, or_false, AList.lookup_erase_ne hn]
    · have hnil : (L.take (s + 1)).drop k = [] := List.drop_eq_nil_of_le (by simp; omega)
      simp [capLoop, hks, hnil]

theorem cap_of_le {k : Nat} (hk : m.len ≤ k) : m.cap k = ([], m) := by
  simp [cap, hk]

theorem cap_of_lt {k : Nat} (hk : ¬ m.len ≤ k) :
    m.cap k = ((capLoop (m.index.toList.insertionSort (· ≤ ·)) k m.len [] m.items).1,
      { items := (capLoop (m.index.toList.insertionSort (· ≤ ·)) k m.len [] m.items).2
        index := init nonceLess ((m.index.toList.insertionSort (· ≤ ·)).take k).toArray
        cache := m.cache.map fun c =>
          c.take (c.length - (capLoop (m.index.toList.insertionSort (· ≤ ·)) k m.len [] m.items).1.length) }) := by
  simp only [cap, if_neg hk]

/-- `Cap(k)` returns the transactions above the `k` lowest nonces, highest first, and keeps the
invariant: the cache loses exactly its back. -/
theorem cap_spec (h : Inv txNonce m) (k : Nat) :
    (m.cap k).1 = ((sortedItems txNonce m).drop k).reverse ∧ Inv txNonce (m.cap k).2 := by
  have hlen : (sortedItems txNonce m).length = m.len := length_sortedItems txNonce m
  by_cases hk : m.len ≤ k
  · rw [cap_of_le hk, List.drop_eq_nil_of_le (by omega)]
    exact ⟨rfl, h⟩
  have hL := sortedItems_pairwise h.keyed
  obtain ⟨h1, h2⟩ := capLoop_spec hL k m.len [] m.items (by omega) fun tx htx =>
    (mem_sortedItems h.keyed).mp (List.mem_of_mem_take htx)
  rw [List.take_of_length_le (by omega)] at h1 h2
  -- the map `Cap` leaves, named by its parts
  generalize hr : capLoop ((sortedItems txNonce m).map txNonce) k m.len [] m.items = r at h1 h2
  have hcap : m.cap k = (r.1,
      { items := r.2
        index := init nonceLess (((sortedItems txNonce m).map txNonce).take k).toArray
        cache := m.cache.map fun c => c.take (c.length - r.1.length) }) := by
    simp only [cap, if_neg hk, insertionSort_index h.toIndexed, hr]
  rw [hcap, h1, List.nil_append]
  refine ⟨rfl, ?_⟩
  have hnd : ((sortedItems txNonce m).map txNonce).Nodup :=
    (keys_perm_sortedItems h.keyed).nodup_iff.mp m.items.keys_nodup
  have hkeyed : Keyed txNonce { m with items := r.2 } := by
    intro n tx hn
    simp only [h2] at hn
    split at hn
    · cases hn
    · exact h.keyed n tx hn
  -- what is left is the transactions of the first `k` positions
  have hsorted : sortedItems txNonce { m with items := r.2 } = (sortedItems txNonce m).take k := by
    refine (eq_sortedItems hkeyed (hL.sublist (List.take_sublist _ _)) fun tx => ?_).symm
    simp only [h2]
    rw [← List.take_append_drop k (sortedItems txNonce m), List.map_append, List.nodup_append] at hnd
    constructor
    · intro hx
      rw [if_neg fun hd => hnd.2.2 _ (List.mem_map_of_mem hx) _ hd rfl]
      exact (mem_sortedItems h.keyed).mp (List.mem_of_mem_take hx)
    · intro hx
      split at hx
      · cases hx
      · rename_i hd
        have hxL := (mem_sortedItems h.keyed).mpr hx
        rw [← List.take_append_drop k (sortedItems txNonce m), List.mem_append] at hxL
        exact hxL.resolve_right fun hdx => hd (List.mem_map_of_mem hdx)
  refine ⟨⟨hkeyed, ?_, heap_init nonceLess_strictWeakOrder _⟩, ?_⟩
  · have hp := (init_perm nonceLess (((sortedItems txNonce m).map txNonce).take k).toArray).toList
    rw [List.toList_toArray] at hp
    have hkeys : (((sortedItems txNonce m).map txNonce).take k).Perm r.2.keys := by
      rw [← List.map_take, ← hsorted]
      exact (keys_perm_sortedItems hkeyed).symm
    exact hp.trans hkeys
  · intro c hc
    simp only [Option.map_eq_some_iff] at hc
    obtain ⟨c₀, hc₀, rfl⟩ := hc
    rw [h.cache c₀ hc₀]
    change _ = sortedItems txNonce { m with items := r.2 }
    rw [hsorted, List.length_reverse, List.length_drop]
    congr 1
    omega

/-! ### `Remove` -/

theorem remove_inv (h : Inv txNonce m) (n : UInt64) : Inv txNonce (m.remove n).2 := by
  unfold remove
  cases hl : m.items.lookup n with
  | none => exact h
  | some tx =>
    have hmem : n ∈ m.index := Array.mem_toList_iff.mp
      (h.index_perm.symm.subset (AList.mem_keys.mp (AList.lookup_isSome.mp (by rw [hl]; rfl))))
    -- the linear search finds the nonce, and `heap.Remove` takes it out
    obtain ⟨i, hi⟩ : ∃ i, m.index.findIdx? (· == n) = some i := by
      cases hf : m.index.findIdx? (· == n) with
      | none => exact absurd (Array.findIdx?_eq_none_iff.mp hf n hmem) (by simp)
      | some i => exact ⟨i, rfl⟩
    obtain ⟨hisz, hieq, -⟩ := Array.findIdx?_eq_some_iff_getElem.mp hi
    have hx : (BinaryHeap.remove nonceLess m.index i).1 = some n := by
      rw [remove_fst nonceLess hisz, Array.getElem?_eq_getElem hisz]
      simpa using hieq
    simp only [hi]
    exact ⟨⟨keyed_erase txNonce m h.keyed n, index_perm_erase txNonce m h.toIndexed hmem (remove_perm nonceLess hx),
      heap_remove nonceLess_strictWeakOrder h.heap hisz⟩, by simp⟩

theorem remove_of_lookup_none {n : UInt64} (h : m.items.lookup n = none) : m.remove n = (false, m) := by
  simp [remove, h]

theorem remove_of_lookup_some {n : UInt64} {tx : Tx} (h : m.items.lookup n = some tx) :
    (m.remove n).1 = true ∧ (m.remove n).2.items = m.items.erase n := by
  simp [remove, h]

/-! ### `Ready` -/

theorem toNat_add_one_of_lt {a b : UInt64} (h : a < b) : (a + 1).toNat = a.toNat + 1 := by
  have hb := b.toNat_lt
  rw [UInt64.lt_iff_toNat_lt] at h
  rw [UInt64.toNat_add, UInt64.toNat_one, Nat.mod_eq_of_lt (by omega)]

theorem add_one_le_of_lt {a b : UInt64} (h : a < b) : a + 1 ≤ b := by
  rw [UInt64.le_iff_toNat_le, toNat_add_one_of_lt h]
  exact UInt64.lt_iff_toNat_lt.mp h

variable (txNonce) in
/-- A run is determined by where it starts: it is the whole stretch of consecutive nonces. -/
theorem IsRunFrom.unique {L R₁ R₂ : List Tx} {next : UInt64} (h₁ : IsRunFrom txNonce L next R₁)
    (h₂ : IsRunFrom txNonce L next R₂) : R₁ = R₂ := by
  have hle : ∀ {R R' : List Tx}, IsRunFrom txNonce L next R → IsRunFrom txNonce L next R' →
      R'.length ≤ R.length := by
    intro R R' h h'
    refine Nat.le_of_not_lt fun hlt => h.2.2 _ (h'.1.subset (List.getElem_mem hlt)) ?_
    exact h'.2.1 _ hlt
  have hlen := Nat.le_antisymm (hle h₂ h₁) (hle h₁ h₂)
  rw [List.prefix_iff_eq_take.mp h₁.1, List.prefix_iff_eq_take.mp h₂.1, hlen]

theorem isRunFrom_nil {L : List Tx} {next : UInt64} (h : ∀ tx ∈ L, txNonce tx ≠ next) :
    IsRunFrom txNonce L next [] :=
  ⟨List.nil_prefix, fun _ hi => absurd hi (Nat.not_lt_zero _),
    fun tx htx he => h tx htx (UInt64.toNat_inj.mp (by simpa using he))⟩

/-- A run from `next + 1` behind a transaction of nonce `next` is a run from `next`. -/
theorem IsRunFrom.cons {L R : List Tx} {tx : Tx} {next : UInt64} (h : IsRunFrom txNonce L (next + 1) R)
    (htx : txNonce tx = next) (hnext : ∀ y ∈ L, next < txNonce y) : IsRunFrom txNonce (tx :: L) next (tx :: R) := by
  have hsucc : ∀ y ∈ L, (next + 1).toNat = next.toNat + 1 := fun y hy => toNat_add_one_of_lt (hnext y hy)
  refine ⟨List.prefix_cons_inj tx |>.mpr h.1, fun i hi => ?_, fun y hy => ?_⟩
  · cases i with
    | zero => simp [htx]
    | succ i =>
      have hi' : i < R.length := by simpa using hi
      rw [List.getElem_cons_succ, h.2.1 i hi', hsucc _ (h.1.subset (List.getElem_mem hi'))]
      omega
  · rcases List.mem_cons.mp hy with rfl | hy
    · rw [htx, List.length_cons]
      omega
    · have := h.2.2 y hy
      rw [hsucc y hy] at this
      rw [List.length_cons]
      omega

theorem readyLoop_of_root {next : UInt64} (fuel : Nat) (ready : List Tx) (hroot : m.index[0]? = some next) :
    readyLoop (fuel + 1) next ready m =
      readyLoop fuel (next + 1) (ready ++ (m.items.lookup next).toList) (m.popRoot next) := by
  simp [readyLoop, hroot]

theorem readyLoop_of_ne {next : UInt64} (fuel : Nat) (ready : List Tx) (hroot : m.index[0]? ≠ some next) :
    readyLoop (fuel + 1) next ready m = (ready, m) := by
  simp [readyLoop, hroot]

/-- The root is the lowest nonce of the map. -/
theorem root_le (h : Indexed txNonce m) {n : UInt64} (hn : m.index[0]? = some n) :
    ∀ y ∈ sortedItems txNonce m, n ≤ txNonce y := by
  obtain ⟨tx, -, hnonce, heq⟩ := sortedItems_eq_cons h hn
  have hp := sortedItems_pairwise h.keyed
  rw [heq, List.pairwise_cons] at hp
  intro y hy
  rw [heq] at hy
  rcases List.mem_cons.mp hy with rfl | hy
  · exact hnonce ▸ UInt64.le_refl _
  · exact hnonce ▸ UInt64.le_of_lt (hp.1 y hy)

/-- The loop of `Ready` from `next`, with no nonce below `next` left, takes the run of consecutive
nonces from `next`. -/
theorem readyLoop_spec : ∀ (fuel : Nat) (next : UInt64) (ready : List Tx) (m : TxSortedMap Tx),
    Indexed txNonce m → m.index.size ≤ fuel → (∀ tx ∈ sortedItems txNonce m, next ≤ txNonce tx) →
    ∃ R, (readyLoop fuel next ready m).1 = ready ++ R ∧ IsRunFrom txNonce (sortedItems txNonce m) next R ∧
      Indexed txNonce (readyLoop fuel next ready m).2
  | 0, next, ready, m, h, hs, _ => by
    refine ⟨[], by simp [readyLoop], ?_, h⟩
    rw [sortedItems_eq_nil h.keyed h (by omega)]
    exact isRunFrom_nil (fun _ h => absurd h List.not_mem_nil)
  | fuel + 1, next, ready, m, h, hs, hge => by
    by_cases hroot : m.index[0]? = some next
    · -- the root is `next`: its transaction starts the run, and the loop goes on from `next + 1`
      obtain ⟨tx, htx, hnonce, heq⟩ := sortedItems_eq_cons h hroot
      have hrest : ∀ y ∈ sortedItems txNonce (m.popRoot next), next < txNonce y := by
        have hp := sortedItems_pairwise h.keyed
        rw [heq, List.pairwise_cons] at hp
        exact fun y hy => hnonce ▸ hp.1 y hy
      obtain ⟨R, h1, h2, h3⟩ := readyLoop_spec fuel (next + 1) (ready ++ [tx]) (m.popRoot next)
        (popRoot_indexed h hroot) (by have := popRoot_size hroot; omega) fun y hy => add_one_le_of_lt (hrest y hy)
      rw [readyLoop_of_root fuel ready hroot, htx, Option.toList_some]
      refine ⟨tx :: R, by rw [h1, List.append_assoc, List.singleton_append], ?_, h3⟩
      rw [heq]
      exact h2.cons hnonce hrest
    · -- the root is above `next`, or there is none: the run is empty
      refine ⟨[], by rw [readyLoop_of_ne fuel ready hroot, List.append_nil], isRunFrom_nil fun y hy he => ?_,
        by rw [readyLoop_of_ne fuel ready hroot]; exact h⟩
      cases hn : m.index[0]? with
      | none =>
        rw [sortedItems_eq_nil h.keyed h (Nat.le_zero.mp (Array.getElem?_eq_none_iff.mp hn))] at hy
        cases hy
      | some root =>
        obtain ⟨tx, -, hnonce, heq⟩ := sortedItems_eq_cons h hn
        have hle := root_le h hn y hy
        have hge' := hge tx (by rw [heq]; exact List.mem_cons_self)
        rw [he] at hle
        rw [hnonce] at hge'
        exact hroot (hn.trans (congrArg some (UInt64.le_antisymm hle hge')))

/-- `Ready(s)`, when the lowest nonce is at most `s`, returns the run of consecutive nonces from the
lowest, in increasing order. -/
theorem ready_spec (h : Inv txNonce m) {start : UInt64} {tx₀ : Tx}
    (hmin : (sortedItems txNonce m).head? = some tx₀) (hs : txNonce tx₀ ≤ start) :
    IsRunFrom txNonce (sortedItems txNonce m) (txNonce tx₀) (m.ready start).1 := by
  cases hn : m.index[0]? with
  | none =>
    rw [sortedItems_eq_nil h.keyed h.toIndexed (Nat.le_zero.mp (Array.getElem?_eq_none_iff.mp hn))] at hmin
    cases hmin
  | some first =>
    obtain ⟨tx, -, hnonce, heq⟩ := sortedItems_eq_cons h.toIndexed hn
    rw [heq, List.head?_cons, Option.some.injEq] at hmin
    subst hmin
    obtain ⟨R, h1, h2, -⟩ := readyLoop_spec m.index.size first [] m h.toIndexed (Nat.le_refl _)
      (root_le h.toIndexed hn)
    have hnot : ¬ first > start := by rw [← hnonce]; exact UInt64.not_lt.mpr hs
    simp only [ready, hn, if_neg hnot]
    rw [h1, List.nil_append, hnonce]
    exact h2

theorem ready_inv (h : Inv txNonce m) (start : UInt64) : Inv txNonce (m.ready start).2 := by
  cases hn : m.index[0]? with
  | none => simpa [ready, hn] using h
  | some first =>
    by_cases hgt : first > start
    · simpa [ready, hn, hgt] using h
    · obtain ⟨R, -, -, h3⟩ := readyLoop_spec m.index.size first [] m h.toIndexed (Nat.le_refl _)
        (root_le h.toIndexed hn)
      simp only [ready, hn, if_neg hgt]
      exact ⟨⟨h3.keyed, h3.index_perm, h3.heap⟩, by simp⟩

/-! ### `flatten` -/

variable (txNonce) in
/-- `flatten` returns the transactions in nonce order, and caches them. -/
theorem flatten_spec (h : Inv txNonce m) :
    (m.flatten txNonce).1 = sortedItems txNonce m ∧ Inv txNonce (m.flatten txNonce).2 := by
  cases hc : m.cache with
  | some c =>
    simp only [flatten, hc]
    exact ⟨h.cache c hc, h⟩
  | none =>
    simp only [flatten, hc]
    exact ⟨rfl, ⟨h.keyed, h.index_perm, h.heap⟩, fun c hc' => (Option.some.inj hc').symm⟩

/-! ### What the operations take out -/

/-- `m₁` holds no transaction that `m₂` does not hold at the same nonce. -/
def Erases (m₁ m₂ : TxSortedMap Tx) : Prop := ∀ n tx, m₁.items.lookup n = some tx → m₂.items.lookup n = some tx

theorem Erases.refl : Erases m m := fun _ _ h => h

theorem Erases.trans {m₁ m₂ : TxSortedMap Tx} (h₁ : Erases m₁ m₂) (h₂ : Erases m₂ m) : Erases m₁ m :=
  fun n tx h => h₂ n tx (h₁ n tx h)

theorem lookup_of_lookup_erase {items : AList fun _ : UInt64 => Tx} {a n : UInt64} {tx : Tx}
    (h : (items.erase a).lookup n = some tx) : items.lookup n = some tx := by
  by_cases hn : n = a
  · rw [hn, AList.lookup_erase] at h
    cases h
  · rwa [AList.lookup_erase_ne hn] at h

theorem erases_items_erase (n : UInt64) : Erases { m with items := m.items.erase n } m :=
  fun _ _ h => lookup_of_lookup_erase h

theorem forwardLoop_erases (t : UInt64) : ∀ (fuel : Nat) (removed : List Tx) (m : TxSortedMap Tx),
    Erases (forwardLoop t fuel removed m).2 m
  | 0, _, _ => Erases.refl
  | fuel + 1, removed, m => by
    unfold forwardLoop
    split
    · split
      · exact (forwardLoop_erases t fuel _ _).trans (erases_items_erase _)
      · exact Erases.refl
    · exact Erases.refl

theorem forward_erases (t : UInt64) : Erases (m.forward t).2 m :=
  forwardLoop_erases t _ _ m

theorem readyLoop_erases : ∀ (fuel : Nat) (next : UInt64) (ready : List Tx) (m : TxSortedMap Tx),
    Erases (readyLoop fuel next ready m).2 m
  | 0, _, _, _ => Erases.refl
  | fuel + 1, next, ready, m => by
    unfold readyLoop
    split
    · exact (readyLoop_erases fuel _ _ _).trans (erases_items_erase _)
    · exact Erases.refl

theorem ready_erases (start : UInt64) : Erases (m.ready start).2 m := by
  unfold ready
  split
  · split
    · exact Erases.refl
    · exact readyLoop_erases _ _ _ m
  · exact Erases.refl

theorem capLoop_lookup (sorted : List UInt64) (k : Nat) : ∀ (s : Nat) (drops : List Tx)
    (items : AList fun _ : UInt64 => Tx) (n : UInt64) (tx : Tx),
    (capLoop sorted k s drops items).2.lookup n = some tx → items.lookup n = some tx
  | 0, _, _, _, _, h => h
  | s + 1, drops, items, n, tx, h => by
    unfold capLoop at h
    split at h
    · exact lookup_of_lookup_erase (capLoop_lookup sorted k s _ _ n tx h)
    · exact h

theorem cap_erases (k : Nat) : Erases (m.cap k).2 m := by
  by_cases hk : m.len ≤ k
  · rw [cap_of_le hk]
    exact Erases.refl
  · rw [cap_of_lt hk]
    exact fun n tx h => capLoop_lookup _ k _ _ _ n tx h

theorem remove_erases (n : UInt64) : Erases (m.remove n).2 m := by
  unfold remove
  split
  · exact Erases.refl
  · exact erases_items_erase n

theorem filter_erases (f : Tx → Bool) : Erases (m.filter f).2 m := by
  intro n tx h
  rw [lookup_filter, Option.filter_eq_some_iff] at h
  exact h.1

theorem Filter_eq (f : Tx → Bool) :
    m.Filter f = if (m.filter f).1.isEmpty then m.filter f else ((m.filter f).1, (m.filter f).2.reheap) := rfl

theorem Filter_erases (f : Tx → Bool) : Erases (m.Filter f).2 m := by
  rw [Filter_eq]
  split <;> exact filter_erases f

theorem sortedItems_subset {m' : TxSortedMap Tx} (hk' : Keyed txNonce m') (hk : Keyed txNonce m) (h : Erases m' m) :
    sortedItems txNonce m' ⊆ sortedItems txNonce m := fun tx htx =>
  (mem_sortedItems hk).mpr (h _ tx ((mem_sortedItems hk').mp htx))

/-! ### What `filter` returns and leaves -/

theorem mem_filter_fst (hk : Keyed txNonce m) (f : Tx → Bool) {tx : Tx} :
    tx ∈ (m.filter f).1 ↔ tx ∈ sortedItems txNonce m ∧ f tx = true := by
  simp only [filter, List.mem_map, List.mem_filter, mem_sortedItems hk]
  constructor
  · rintro ⟨⟨n, tx'⟩, ⟨he, hf⟩, rfl⟩
    have hl := Option.mem_def.mp (AList.mem_lookup_iff.mpr he)
    exact ⟨by rw [hk n tx' hl]; exact hl, hf⟩
  · rintro ⟨hl, hf⟩
    exact ⟨⟨txNonce tx, tx⟩, ⟨AList.mem_lookup_iff.mp (Option.mem_def.mpr hl), hf⟩, rfl⟩

theorem mem_sortedItems_filter (hk : Keyed txNonce m) (f : Tx → Bool) {tx : Tx} :
    tx ∈ sortedItems txNonce (m.filter f).2 ↔ tx ∈ sortedItems txNonce m ∧ f tx = false := by
  rw [mem_sortedItems (filter_keyed hk f), lookup_filter, Option.filter_eq_some_iff, mem_sortedItems hk,
    Bool.not_eq_true']

theorem Filter_fst (f : Tx → Bool) : (m.Filter f).1 = (m.filter f).1 := by
  rw [Filter_eq]
  split <;> rfl

theorem Filter_items (f : Tx → Bool) : (m.Filter f).2.items = (m.filter f).2.items := by
  rw [Filter_eq]
  split <;> rfl

theorem sortedItems_of_items_eq {m' : TxSortedMap Tx} (h : m'.items = m.items) :
    sortedItems txNonce m' = sortedItems txNonce m := by
  rw [sortedItems, sortedItems, h]

theorem sortedItems_Filter (f : Tx → Bool) :
    sortedItems txNonce (m.Filter f).2 = sortedItems txNonce (m.filter f).2 :=
  sortedItems_of_items_eq (Filter_items f)

@[simp] theorem sortedItems_reheap : sortedItems txNonce m.reheap = sortedItems txNonce m := rfl

/-! ### Runs of operations -/

/-- The operations that change a `txSortedMap`; `filter` is run with the `reheap` that must follow
it. -/
inductive Op (Tx : Type) where
  | put (tx : Tx)
  | forward (threshold : UInt64)
  | Filter (f : Tx → Bool)
  | filterReheap (f : Tx → Bool)
  | cap (threshold : Nat)
  | remove (nonce : UInt64)
  | ready (start : UInt64)
  | flatten

variable (txNonce)

/-- The map after one operation. -/
def Op.apply : Op Tx → TxSortedMap Tx → TxSortedMap Tx
  | .put tx, m => m.put txNonce tx
  | .forward t, m => (m.forward t).2
  | .Filter f, m => (m.Filter f).2
  | .filterReheap f, m => (m.filter f).2.reheap
  | .cap k, m => (m.cap k).2
  | .remove n, m => (m.remove n).2
  | .ready s, m => (m.ready s).2
  | .flatten, m => (m.flatten txNonce).2

/-- The map after a sequence of operations. -/
def runOps (ops : List (Op Tx)) (m : TxSortedMap Tx) : TxSortedMap Tx :=
  ops.foldl (fun m op => op.apply txNonce m) m

theorem Op.apply_keeps_inv (h : Inv txNonce m) : ∀ op : Op Tx, Inv txNonce (op.apply txNonce m)
  | .put tx => put_inv txNonce h.toIndexed tx
  | .forward t => (forward_spec h t).2
  | .Filter f => Filter_inv h f
  | .filterReheap f => reheap_inv txNonce (filter_keyed h.keyed f)
  | .cap k => (cap_spec h k).2
  | .remove n => remove_inv h n
  | .ready s => ready_inv h s
  | .flatten => (flatten_spec txNonce h).2

theorem runOps_inv (ops : List (Op Tx)) (h : Inv txNonce m) : Inv txNonce (runOps txNonce ops m) := by
  induction ops generalizing m with
  | nil => exact h
  | cons op ops ih => exact ih (op.apply_keeps_inv txNonce h)

/-- From the empty map, after any operations: the index is a heap of exactly the map's nonces,
each once, a cache is the transactions in nonce order, `Forward(t)` returns the transactions below
`t` and `Ready(s)` the run of consecutive nonces from the lowest, both in increasing order, and
`Cap(k)` returns the transactions above the `k` lowest in decreasing order. -/
theorem runOps_sorted_answers (ops : List (Op Tx)) :
    let m := runOps txNonce ops newTxSortedMap
    m.index.toList.Perm m.items.keys ∧ m.index.toList.Nodup ∧ IsHeap nonceLess m.index ∧
    (∀ c, m.cache = some c → c = sortedItems txNonce m) ∧
    (∀ t, (m.forward t).1 = (sortedItems txNonce m).filter fun tx => txNonce tx < t) ∧
    (∀ k, (m.cap k).1 = ((sortedItems txNonce m).drop k).reverse) ∧
    ∀ s tx₀, (sortedItems txNonce m).head? = some tx₀ → txNonce tx₀ ≤ s →
      IsRunFrom txNonce (sortedItems txNonce m) (txNonce tx₀) (m.ready s).1 := by
  intro m
  have h : Inv txNonce m := runOps_inv txNonce ops (newTxSortedMap_inv txNonce)
  exact ⟨h.index_perm, h.index_perm.nodup_iff.mpr m.items.keys_nodup, h.heap, h.cache,
    fun t => (forward_spec h t).1, fun k => (cap_spec h k).1, fun _ _ hmin hs => ready_spec h hmin hs⟩

/-- Two transactions put in a map, identified with their nonces: `Cap(0)` returns the higher first. -/
theorem cap_returns_highest_first :
    ((runOps id [.put (0 : UInt64), .put 1] newTxSortedMap).cap 0).1 = [1, 0] := by
  decide

end TxSortedMap

end Go420coin.Core
