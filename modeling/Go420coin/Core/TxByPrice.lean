import Go420coin.Core.Types
import Go420coin.Lib.BinaryHeap
import Mathlib.Data.List.AList

/-!
# Transactions by price and nonce (`core/types/transaction.go`)

The miner takes transactions from `TransactionsByPriceAndNonce`: a map from each account to its
transactions in nonce order, and a heap `heads` of one transaction per account, ordered by
`TxByPriceAndTime.Less` (the higher price first, and of two equal prices the one seen first).
`Peek` returns the root; `Shift` replaces it by the next transaction of its account and restores
the heap with `heap.Fix`, or pops it when the account has none left; `Pop` drops the root, and with
it the account's remaining transactions, which no head leads to any more.

What is left of each account is `remaining`: its head and the transactions stored behind it, or
nothing once it has no head.  The constructor leaves each account's whole list (`new_spec`);
`Shift` takes the root off its account's list and `Pop` empties that list (`shift_spec`,
`pop_spec`), and the root goes before every other head (`peek_best`).  So shifting until `Peek`
returns nothing yields each account's transactions in their order, each once
(`byPriceAndNonce_spec`).

A transaction is modelled by what these functions read: its price, the time it was first seen (a
`time.Time`, as nanoseconds), and `Sender(signer, tx)`.  The constructor ranges over the map in the
order of its entries and writes to a copy; with every list under its own sender, as the miner builds
the map, it rewrites existing keys only, so Go's iteration visits the same entries.  `Shift` and
`Pop` on an empty heap index an empty slice and panic in Go; the miner calls them only after
`Peek` returned a transaction, and the model leaves the set as it is.
-/

namespace Go420coin.Types

open BinaryHeap

/-- A transaction as the price order and `Shift` read it. -/
structure PricedTx where
  price : Nat
  time : Int
  sender : Address
  deriving DecidableEq

/-- `TxByPriceAndTime.Less`: the higher price first; of equal prices, the one seen first. -/
def byPriceAndTime (a b : PricedTx) : Bool :=
  if a.price = b.price then decide (a.time < b.time) else decide (a.price > b.price)

theorem byPriceAndTime_strictWeakOrder : StrictWeakOrder byPriceAndTime where
  irrefl a := by simp [byPriceAndTime]
  trans a b c hab hbc := by
    simp only [byPriceAndTime] at *
    split at hab <;> split at hbc <;> split <;> simp_all <;> omega
  ntrans a b c hab hbc := by
    simp only [byPriceAndTime] at *
    split at hab <;> split at hbc <;> split <;> simp_all <;> omega

/-- `TransactionsByPriceAndNonce`. -/
structure TransactionsByPriceAndNonce where
  txs : AList fun _ : Address => List PricedTx
  heads : Array PricedTx

/-- The loop of `NewTransactionsByPriceAndNonce`: each account's first transaction goes to the
heads, and the rest is stored under the first transaction's sender (the entry under the map's key
is deleted if that differs).  An empty list has no first transaction: Go's index panics. -/
def newLoop : List (Σ _ : Address, List PricedTx) → Array PricedTx → AList (fun _ : Address => List PricedTx) →
    Option (Array PricedTx × AList fun _ : Address => List PricedTx)
  | [], heads, txs => some (heads, txs)
  | ⟨fromAddr, accTxs⟩ :: rest, heads, txs =>
    match accTxs with
    | [] => none
    | tx :: tail =>
      let acc := tx.sender
      let txs := txs.insert acc tail
      newLoop rest (heads.push tx) (if fromAddr ≠ acc then txs.erase fromAddr else txs)

/-- `NewTransactionsByPriceAndNonce`: the heads, put in heap order by `heap.Init`. -/
def newTransactionsByPriceAndNonce (txs : AList fun _ : Address => List PricedTx) :
    Option TransactionsByPriceAndNonce :=
  (newLoop txs.entries #[] txs).map fun r => ⟨r.2, init byPriceAndTime r.1⟩

namespace TransactionsByPriceAndNonce

variable (t : TransactionsByPriceAndNonce)

/-- `Peek`. -/
def peek : Option PricedTx := t.heads[0]?

/-- `Shift`: the root's account's next transaction takes the root's place, or the root is popped
if the account has none. -/
def shift : TransactionsByPriceAndNonce :=
  match t.heads[0]? with
  | none => t
  | some head =>
    let acc := head.sender
    match t.txs.lookup acc with
    | some (tx :: rest) => ⟨t.txs.insert acc rest, fix byPriceAndTime (t.heads.setIfInBounds 0 tx) 0⟩
    | _ => { t with heads := (BinaryHeap.pop byPriceAndTime t.heads).2 }

/-- `Pop`. -/
def pop : TransactionsByPriceAndNonce := { t with heads := (BinaryHeap.pop byPriceAndTime t.heads).2 }

/-- A caller's loop, as the miner's: `Peek`, then `Shift` or `Pop` as the next decision says, until
`Peek` returns nothing or the decisions run out.  Each round records the transaction, the decision
and the heads it was chosen from. -/
def run : List Bool → TransactionsByPriceAndNonce →
    List (PricedTx × Bool × List PricedTx) × TransactionsByPriceAndNonce
  | [], t => ([], t)
  | d :: ds, t =>
    match t.peek with
    | none => ([], t)
    | some tx =>
      let r := run ds (if d then t.shift else t.pop)
      ((tx, d, t.heads.toList) :: r.1, r.2)

/-! ### What is left of each account -/

/-- The head of account `a`, if it has one. -/
def headOf (a : Address) : Option PricedTx := t.heads.toList.find? fun h => h.sender = a

/-- What is left of account `a`: its head and the transactions stored behind it; nothing once it
has no head, whatever is stored. -/
def remaining (a : Address) : List PricedTx :=
  match t.headOf a with
  | some h => h :: (t.txs.lookup a).getD []
  | none => []

/-- All that is left, account by account in the order of the heads. -/
def pending : List PricedTx := t.heads.toList.flatMap fun h => t.remaining h.sender

/-- The heap holds one head per account, in heap order, and every stored transaction is under its
sender. -/
structure Inv : Prop where
  heap : IsHeap byPriceAndTime t.heads
  nodup : (t.heads.toList.map (·.sender)).Nodup
  senders : ∀ a l, t.txs.lookup a = some l → ∀ tx ∈ l, tx.sender = a

/-- In a list with one transaction per sender, the search by sender finds exactly that one. -/
theorem find?_sender_eq_some {l : List PricedTx} (hn : (l.map (·.sender)).Nodup) {a : Address}
    {h : PricedTx} : l.find? (fun h => h.sender = a) = some h ↔ h ∈ l ∧ h.sender = a := by
  constructor
  · intro hf
    exact ⟨List.mem_of_find?_eq_some hf, by simpa using List.find?_some hf⟩
  · rintro ⟨hm, hs⟩
    obtain ⟨h', hf⟩ : ∃ h', l.find? (fun h => h.sender = a) = some h' := by
      cases hc : l.find? (fun h => decide (h.sender = a)) with
      | none => exact absurd (List.find?_eq_none.mp hc h hm) (by simpa using hs)
      | some h' => exact ⟨h', rfl⟩
    have hs' : h'.sender = a := by simpa using List.find?_some hf
    rw [hf, List.inj_on_of_nodup_map hn (List.mem_of_find?_eq_some hf) hm (hs'.trans hs.symm)]

theorem find?_sender_perm {l₁ l₂ : List PricedTx} (hp : l₁.Perm l₂) (hn : (l₁.map (·.sender)).Nodup)
    (a : Address) : l₁.find? (fun h => h.sender = a) = l₂.find? (fun h => h.sender = a) := by
  have hn₂ : (l₂.map (·.sender)).Nodup := (hp.map _).nodup_iff.mp hn
  apply Option.ext
  intro h
  rw [find?_sender_eq_some hn, find?_sender_eq_some hn₂, hp.mem_iff]

variable {t}

theorem toList_heads_eq_cons {h : PricedTx} (hp : t.peek = some h) : t.heads.toList = h :: t.heads.toList.tail :=
  (List.cons_head?_tail (by rw [List.head?_eq_getElem?, Array.getElem?_toList]; exact hp)).symm

/-- The root is the head of its account. -/
theorem headOf_root (hi : t.Inv) {h : PricedTx} (hp : t.peek = some h) : t.headOf h.sender = some h :=
  (find?_sender_eq_some hi.nodup).mpr ⟨by rw [toList_heads_eq_cons hp]; exact List.mem_cons_self, rfl⟩

theorem remaining_root (hi : t.Inv) {h : PricedTx} (hp : t.peek = some h) :
    t.remaining h.sender = h :: (t.txs.lookup h.sender).getD [] := by
  rw [remaining, headOf_root hi hp]

/-- `Peek` returns a head that no other goes before: no higher price, nor an equal price seen
earlier. -/
theorem peek_best (hi : t.Inv) {h : PricedTx} (hp : t.peek = some h) :
    ∀ h' ∈ t.heads.toList, h'.price ≤ h.price ∧ (h'.price = h.price → h.time ≤ h'.time) := by
  intro h' hh'
  have := pop_min byPriceAndTime_strictWeakOrder hi.heap (by rw [pop_fst]; exact hp) h'
    (Array.mem_toList_iff.mp hh')
  simp only [byPriceAndTime] at this
  split at this
  · rename_i heq
    simp only [decide_eq_false_iff_not, Int.not_lt] at this
    exact ⟨Nat.le_of_eq heq, fun _ => this⟩
  · rename_i hne
    simp only [decide_eq_false_iff_not, gt_iff_lt, Nat.not_lt] at this
    exact ⟨this, fun heq => absurd heq hne⟩

/-! ### `Shift` and `Pop` -/

section Step

variable (hi : t.Inv) {h : PricedTx} (hp : t.peek = some h)
include hi hp

/-- The other heads belong to other accounts than the root. -/
theorem nodup_tail : (h.sender :: t.heads.toList.tail.map (·.sender)).Nodup := by
  have hn := hi.nodup
  rwa [toList_heads_eq_cons hp, List.map_cons] at hn

/-- A search by sender among the other heads: nothing for the root's account, else as before. -/
theorem find?_tail (a : Address) : t.heads.toList.tail.find? (fun x => x.sender = a) =
    if a = h.sender then none else t.headOf a := by
  split
  · rename_i ha
    refine List.find?_eq_none.mpr fun x hx he => (List.nodup_cons.mp (nodup_tail hi hp)).1 ?_
    rw [← ha, ← of_decide_eq_true he]
    exact List.mem_map_of_mem hx
  · rename_i ha
    rw [headOf, toList_heads_eq_cons hp, List.find?_cons_of_neg (by simpa using Ne.symm ha), List.tail_cons]

omit hi in
/-- `Pop` leaves the other heads. -/
theorem pop_heads_perm : (BinaryHeap.pop byPriceAndTime t.heads).2.toList.Perm t.heads.toList.tail := by
  have hpp := (pop_perm byPriceAndTime (a := t.heads) (by rw [pop_fst]; exact hp)).toList
  rw [Array.toList_push, toList_heads_eq_cons hp] at hpp
  exact ((List.perm_append_singleton _ _).symm.trans hpp).cons_inv

/-- `Pop` empties the root's account and leaves the others. -/
theorem pop_spec : t.pop.Inv ∧ ∀ a, t.pop.remaining a = if a = h.sender then [] else t.remaining a := by
  have hperm := pop_heads_perm hp
  have hnd : ((BinaryHeap.pop byPriceAndTime t.heads).2.toList.map (·.sender)).Nodup :=
    (hperm.map _).nodup_iff.mpr (List.nodup_cons.mp (nodup_tail hi hp)).2
  refine ⟨⟨heap_pop byPriceAndTime_strictWeakOrder hi.heap, hnd, hi.senders⟩, fun a => ?_⟩
  have hhead : t.pop.headOf a = if a = h.sender then none else t.headOf a := by
    rw [headOf, pop, find?_sender_perm hperm hnd, find?_tail hi hp]
  by_cases ha : a = h.sender
  · rw [if_pos ha, remaining, hhead, if_pos ha]
  · rw [if_neg ha, remaining, hhead, if_neg ha]
    rfl

omit hi in
theorem shift_of_none (hl : (t.txs.lookup h.sender).getD [] = []) : t.shift = t.pop := by
  have hp' : t.heads[0]? = some h := hp
  cases hlk : t.txs.lookup h.sender with
  | none => simp [shift, hp', hlk, pop]
  | some l =>
    rw [hlk, Option.getD_some] at hl
    subst hl
    simp [shift, hp', hlk, pop]

omit hi in
theorem shift_of_next {tx : PricedTx} {rest : List PricedTx} (hl : t.txs.lookup h.sender = some (tx :: rest)) :
    t.shift = ⟨t.txs.insert h.sender rest, fix byPriceAndTime (t.heads.setIfInBounds 0 tx) 0⟩ := by
  have hp' : t.heads[0]? = some h := hp
  simp [shift, hp', hl]

/-- `Shift` takes the root off its account's transactions and leaves the other accounts. -/
theorem shift_spec :
    t.shift.Inv ∧ ∀ a, t.shift.remaining a = if a = h.sender then (t.remaining a).tail else t.remaining a := by
  have hroot := remaining_root hi hp
  cases hnext : (t.txs.lookup h.sender).getD [] with
  | nil =>
    -- no next transaction: the root is popped, and its account had nothing behind it
    rw [shift_of_none hp hnext]
    refine ⟨(pop_spec hi hp).1, fun a => ?_⟩
    rw [(pop_spec hi hp).2 a]
    split
    · rename_i ha
      rw [ha, hroot, hnext, List.tail_cons]
    · rfl
  | cons tx rest =>
    have hl : t.txs.lookup h.sender = some (tx :: rest) := by
      cases hlk : t.txs.lookup h.sender with
      | none => rw [hlk] at hnext; cases hnext
      | some l => rw [hlk, Option.getD_some] at hnext; rw [hnext]
    have hsend : tx.sender = h.sender := hi.senders _ _ hl tx List.mem_cons_self
    rw [shift_of_next hp hl]
    -- the next transaction takes the root's place
    have hperm : (fix byPriceAndTime (t.heads.setIfInBounds 0 tx) 0).toList.Perm (tx :: t.heads.toList.tail) := by
      refine (fixOn_perm byPriceAndTime _ 0 _).toList.trans ?_
      rw [Array.toList_setIfInBounds, toList_heads_eq_cons hp, List.set_cons_zero, List.tail_cons]
    have hnd : ((fix byPriceAndTime (t.heads.setIfInBounds 0 tx) 0).toList.map (·.sender)).Nodup := by
      rw [(hperm.map _).nodup_iff, List.map_cons, hsend]
      exact nodup_tail hi hp
    have hsize : 0 < t.heads.size := by
      rcases Nat.eq_zero_or_pos t.heads.size with h0 | h0
      · have hp' : t.heads[0]? = some h := hp
        rw [Array.getElem?_eq_none_iff.mpr (by omega)] at hp'
        cases hp'
      · exact h0
    have hfix : FixInv byPriceAndTime (t.heads.setIfInBounds 0 tx) 0 (t.heads.setIfInBounds 0 tx).size := by
      rw [Array.size_setIfInBounds]
      exact FixInv.of_set byPriceAndTime_strictWeakOrder hi.heap hsize tx
    refine ⟨⟨heap_fix byPriceAndTime_strictWeakOrder hfix, hnd, fun a l hal => ?_⟩, fun a => ?_⟩
    · by_cases ha : a = h.sender
      · rw [ha, AList.lookup_insert, Option.some.injEq] at hal
        subst hal
        intro x hx
        rw [ha]
        exact hi.senders _ _ hl x (List.mem_cons_of_mem _ hx)
      · rw [AList.lookup_insert_ne ha] at hal
        exact hi.senders a l hal
    · have hhead : headOf ⟨t.txs.insert h.sender rest, fix byPriceAndTime (t.heads.setIfInBounds 0 tx) 0⟩ a =
          if a = h.sender then some tx else t.headOf a := by
        rw [headOf, find?_sender_perm hperm hnd]
        by_cases ha : a = h.sender
        · rw [if_pos ha, List.find?_cons_of_pos (by simp [hsend, ha])]
        · rw [if_neg ha, List.find?_cons_of_neg (by simpa [hsend] using Ne.symm ha), find?_tail hi hp, if_neg ha]
      by_cases ha : a = h.sender
      · rw [if_pos ha, remaining, hhead, if_pos ha, ha, hroot, hnext, AList.lookup_insert]
        rfl
      · rw [if_neg ha, remaining, hhead, if_neg ha, AList.lookup_insert_ne ha]
        rfl

/-- After `Shift` the heads are the account's next transaction, if any, and the other heads. -/
theorem shift_heads_perm :
    t.shift.heads.toList.Perm ((t.remaining h.sender).tail.take 1 ++ t.heads.toList.tail) := by
  rw [remaining_root hi hp, List.tail_cons]
  cases hnext : (t.txs.lookup h.sender).getD [] with
  | nil =>
    rw [shift_of_none hp hnext]
    exact pop_heads_perm hp
  | cons tx rest =>
    have hl : t.txs.lookup h.sender = some (tx :: rest) := by
      cases hlk : t.txs.lookup h.sender with
      | none => rw [hlk] at hnext; cases hnext
      | some l => rw [hlk, Option.getD_some] at hnext; rw [hnext]
    rw [shift_of_next hp hl]
    refine (fixOn_perm byPriceAndTime _ 0 _).toList.trans ?_
    rw [Array.toList_setIfInBounds, toList_heads_eq_cons hp, List.set_cons_zero, List.tail_cons]
    rfl

/-- `Shift` leaves one transaction less. -/
theorem length_pending_shift : t.shift.pending.length + 1 = t.pending.length := by
  obtain ⟨hi', hrem⟩ := shift_spec hi hp
  -- the other heads' accounts keep what they had
  have hother : t.heads.toList.tail.flatMap (fun x => t.shift.remaining x.sender) =
      t.heads.toList.tail.flatMap (fun x => t.remaining x.sender) := by
    refine List.flatMap_congr fun x hx => ?_
    have hne : x.sender ≠ h.sender := fun he =>
      (List.nodup_cons.mp (nodup_tail hi hp)).1 (he ▸ List.mem_map_of_mem hx)
    rw [hrem, if_neg hne]
  -- the root's account has one less
  have hown : ((t.remaining h.sender).tail.take 1).flatMap (fun x => t.shift.remaining x.sender) =
      (t.remaining h.sender).tail := by
    rw [remaining_root hi hp, List.tail_cons]
    cases hnext : (t.txs.lookup h.sender).getD [] with
    | nil => rfl
    | cons tx rest =>
      have htx : tx.sender = h.sender := by
        cases hlk : t.txs.lookup h.sender with
        | none => rw [hlk] at hnext; cases hnext
        | some l =>
          rw [hlk, Option.getD_some] at hnext
          exact hi.senders _ _ hlk tx (hnext ▸ List.mem_cons_self)
      rw [List.take_succ_cons, List.take_zero, List.flatMap_singleton, htx, hrem, if_pos rfl,
        remaining_root hi hp, hnext, List.tail_cons]
  have hlen := ((shift_heads_perm hi hp).flatMap_right (fun x => t.shift.remaining x.sender)).length_eq
  rw [List.flatMap_append, hother, hown, List.length_append] at hlen
  rw [pending, hlen, pending, toList_heads_eq_cons hp, List.flatMap_cons, List.length_append,
    remaining_root hi hp, List.tail_cons, List.tail_cons, List.length_cons]
  omega

end Step

/-- With no head, nothing is left. -/
theorem remaining_of_peek_none (hp : t.peek = none) (a : Address) : t.remaining a = [] := by
  have hnil : t.heads.toList = [] := by
    rw [List.eq_nil_iff_forall_not_mem]
    intro x hx
    have : t.heads.toList[0]? = none := by rw [Array.getElem?_toList]; exact hp
    rw [List.getElem?_eq_none_iff, Nat.le_zero, List.length_eq_zero_iff] at this
    rw [this] at hx
    cases hx
  simp [remaining, headOf, hnil]

/-! ### The constructor -/

/-- The heads of a map's lists, in the order of its entries. -/
theorem map_sender_filterMap_head : ∀ es : List (Σ _ : Address, List PricedTx),
    (∀ e ∈ es, e.2 ≠ [] ∧ ∀ tx ∈ e.2, tx.sender = e.1) →
    (es.filterMap (·.2.head?)).map (·.sender) = es.map (·.1)
  | [], _ => rfl
  | ⟨k, l⟩ :: rest, hwf => by
    obtain ⟨hne, hs⟩ := hwf ⟨k, l⟩ List.mem_cons_self
    obtain ⟨x, xs, rfl⟩ := List.exists_cons_of_ne_nil hne
    rw [List.filterMap_cons_some (by rfl), List.map_cons, List.map_cons, hs x List.mem_cons_self,
      map_sender_filterMap_head rest fun e he => hwf e (List.mem_cons_of_mem _ he)]

theorem flatMap_filterMap_head (g : Address → List PricedTx) : ∀ es : List (Σ _ : Address, List PricedTx),
    (∀ e ∈ es, e.2 ≠ [] ∧ ∀ tx ∈ e.2, tx.sender = e.1) →
    (es.filterMap (·.2.head?)).flatMap (fun x => g x.sender) = es.flatMap fun e => g e.1
  | [], _ => rfl
  | ⟨k, l⟩ :: rest, hwf => by
    obtain ⟨hne, hs⟩ := hwf ⟨k, l⟩ List.mem_cons_self
    obtain ⟨x, xs, rfl⟩ := List.exists_cons_of_ne_nil hne
    rw [List.filterMap_cons_some (by rfl), List.flatMap_cons, List.flatMap_cons, hs x List.mem_cons_self,
      flatMap_filterMap_head g rest fun e he => hwf e (List.mem_cons_of_mem _ he)]

/-- The loop of the constructor puts each list's first transaction in the heads and stores the
rest under the list's key. -/
theorem newLoop_spec : ∀ (es : List (Σ _ : Address, List PricedTx)) (heads : Array PricedTx)
    (acc : AList fun _ : Address => List PricedTx), es.NodupKeys →
    (∀ e ∈ es, e.2 ≠ [] ∧ ∀ tx ∈ e.2, tx.sender = e.1) →
    ∃ r, newLoop es heads acc = some r ∧ r.1.toList = heads.toList ++ es.filterMap (·.2.head?) ∧
      ∀ a, r.2.lookup a = match es.dlookup a with
        | some l => some l.tail
        | none => acc.lookup a
  | [], heads, acc, _, _ => ⟨(heads, acc), rfl, by simp, fun a => by simp⟩
  | ⟨k, l⟩ :: rest, heads, acc, hnd, hwf => by
    obtain ⟨hne, hs⟩ := hwf ⟨k, l⟩ List.mem_cons_self
    obtain ⟨x, xs, rfl⟩ := List.exists_cons_of_ne_nil hne
    have hx : x.sender = k := hs x List.mem_cons_self
    rw [List.nodupKeys_cons] at hnd
    obtain ⟨r, hr, hheads, hlook⟩ := newLoop_spec rest (heads.push x) (acc.insert k xs) hnd.2
      fun e he => hwf e (List.mem_cons_of_mem _ he)
    refine ⟨r, by simp [newLoop, hx, hr], by rw [hheads, Array.toList_push]; simp, fun a => ?_⟩
    rw [hlook a]
    by_cases hak : a = k
    · subst hak
      rw [List.dlookup_eq_none.mpr hnd.1, AList.lookup_insert, List.dlookup_cons_eq]
      rfl
    · rw [List.dlookup_cons_ne _ _ hak, AList.lookup_insert_ne hak]

/-- From a map of non-empty lists, each under its own sender, the constructor leaves each account's
whole list, and all of them. -/
theorem new_spec {txs : AList fun _ : Address => List PricedTx}
    (hwf : ∀ a l, txs.lookup a = some l → l ≠ [] ∧ ∀ tx ∈ l, tx.sender = a) :
    ∃ t, newTransactionsByPriceAndNonce txs = some t ∧ t.Inv ∧
      (∀ a, t.remaining a = (txs.lookup a).getD []) ∧ t.pending.Perm (txs.entries.flatMap (·.2)) := by
  have hwf' : ∀ e ∈ txs.entries, e.2 ≠ [] ∧ ∀ tx ∈ e.2, tx.sender = e.1 := fun e he =>
    hwf e.1 e.2 (Option.mem_def.mp (AList.mem_lookup_iff.mpr he))
  obtain ⟨r, hr, hheads, hlook⟩ := newLoop_spec txs.entries #[] txs txs.nodupKeys hwf'
  rw [show (#[] : Array PricedTx).toList = [] from rfl, List.nil_append] at hheads
  -- the stored lists are the tails
  have hlook' : ∀ a, r.2.lookup a = (txs.lookup a).map List.tail := by
    intro a
    rw [hlook a]
    change (match txs.lookup a with | some l => some l.tail | none => txs.lookup a) = _
    cases txs.lookup a <;> rfl
  -- the heads are the lists' first transactions, one per account
  have hperm : (init byPriceAndTime r.1).toList.Perm (txs.entries.filterMap (·.2.head?)) :=
    (init_perm byPriceAndTime r.1).toList.trans (by rw [hheads])
  have hnd : ((init byPriceAndTime r.1).toList.map (·.sender)).Nodup := by
    rw [(hperm.map _).nodup_iff, map_sender_filterMap_head _ hwf']
    exact txs.keys_nodup
  have hrem : ∀ a, (⟨r.2, init byPriceAndTime r.1⟩ : TransactionsByPriceAndNonce).remaining a =
      (txs.lookup a).getD [] := by
    intro a
    rw [remaining, headOf]
    dsimp only
    rw [find?_sender_perm hperm hnd, hlook' a]
    cases hl : txs.lookup a with
    | none =>
      rw [List.find?_eq_none.mpr fun x hx hxa => ?_]
      · rfl
      obtain ⟨e, he, hex⟩ := List.mem_filterMap.mp hx
      have hsx : x.sender = e.1 := (hwf' e he).2 x (List.mem_of_mem_head? hex)
      have : a ∈ txs := AList.mem_keys.mpr (List.mem_map.mpr ⟨e, he, by rw [← hsx]; exact of_decide_eq_true hxa⟩)
      exact absurd hl (by rw [AList.lookup_eq_none]; exact not_not.mpr this)
    | some l =>
      obtain ⟨hne, hs⟩ := hwf a l hl
      obtain ⟨x, xs, rfl⟩ := List.exists_cons_of_ne_nil hne
      have hx : x ∈ txs.entries.filterMap (·.2.head?) :=
        List.mem_filterMap.mpr ⟨⟨a, x :: xs⟩, AList.mem_lookup_iff.mp (Option.mem_def.mpr hl), rfl⟩
      rw [(find?_sender_eq_some ((hperm.map _).nodup_iff.mp hnd)).mpr ⟨hx, hs x List.mem_cons_self⟩]
      rfl
  refine ⟨⟨r.2, init byPriceAndTime r.1⟩, by simp [newTransactionsByPriceAndNonce, hr], ⟨heap_init
    byPriceAndTime_strictWeakOrder _, hnd, fun a l hal tx htx => ?_⟩, hrem, ?_⟩
  · rw [hlook'] at hal
    obtain ⟨L, hL, rfl⟩ := Option.map_eq_some_iff.mp hal
    exact (hwf a L hL).2 tx (List.mem_of_mem_tail htx)
  · refine ((hperm.flatMap_right _).trans ?_)
    rw [flatMap_filterMap_head _ _ hwf']
    refine List.Perm.of_eq (List.flatMap_congr fun e he => ?_)
    rw [hrem, Option.mem_def.mp (AList.mem_lookup_iff.mpr he), Option.getD_some]

/-! ### Runs of the caller's loop -/

theorem run_inv : ∀ (ds : List Bool) (t : TransactionsByPriceAndNonce), t.Inv → (t.run ds).2.Inv
  | [], _, hi => hi
  | d :: ds, t, hi => by
    unfold run
    cases hp : t.peek with
    | none => exact hi
    | some h =>
      cases d
      · exact run_inv ds _ (pop_spec hi hp).1
      · exact run_inv ds _ (shift_spec hi hp).1

/-- Every transaction the loop takes goes before every head it was chosen from. -/
theorem run_best : ∀ (ds : List Bool) (t : TransactionsByPriceAndNonce), t.Inv →
    ∀ p ∈ (t.run ds).1, ∀ h' ∈ p.2.2, h'.price ≤ p.1.price ∧ (h'.price = p.1.price → p.1.time ≤ h'.time)
  | [], _, _ => fun p hp => by cases hp
  | d :: ds, t, hi => by
    unfold run
    cases hp : t.peek with
    | none => exact fun p hp => by cases hp
    | some h =>
      have hnext : (if d then t.shift else t.pop).Inv := by
        cases d
        · exact (pop_spec hi hp).1
        · exact (shift_spec hi hp).1
      intro p hmem
      rcases List.mem_cons.mp hmem with rfl | hmem
      · exact peek_best hi hp
      · exact run_best ds _ hnext p hmem

/-- Shifting, each account's transactions come out in order, ahead of what is left of it. -/
theorem run_shift_yields : ∀ (ds : List Bool) (t : TransactionsByPriceAndNonce), t.Inv → (∀ d ∈ ds, d = true) →
    ∀ a, ((t.run ds).1.map (·.1)).filter (fun x => x.sender = a) ++ (t.run ds).2.remaining a = t.remaining a
  | [], _, _, _ => fun a => rfl
  | d :: ds, t, hi, hds => by
    have hd : d = true := hds d List.mem_cons_self
    subst hd
    unfold run
    cases hp : t.peek with
    | none => exact fun a => rfl
    | some h =>
      intro a
      obtain ⟨hi', hrem⟩ := shift_spec hi hp
      have ih := run_shift_yields ds t.shift hi' (fun d hd => hds d (List.mem_cons_of_mem _ hd)) a
      simp only [if_true, List.map_cons, List.filter_cons]
      by_cases ha : h.sender = a
      · subst ha
        rw [if_pos (decide_eq_true rfl), List.cons_append, ih, hrem, if_pos rfl, remaining_root hi hp,
          List.tail_cons]
      · rw [if_neg (by simpa using ha), ih, hrem, if_neg (Ne.symm ha)]

/-- Shifting as many times as there are transactions empties the set. -/
theorem run_shift_peek : ∀ (ds : List Bool) (t : TransactionsByPriceAndNonce), t.Inv → (∀ d ∈ ds, d = true) →
    t.pending.length ≤ ds.length → (t.run ds).2.peek = none
  | [], t, hi, _, hlen => by
    show t.peek = none
    cases hp : t.peek with
    | none => rfl
    | some h =>
      have : 0 < t.pending.length := by
        rw [pending, toList_heads_eq_cons hp, List.flatMap_cons, remaining_root hi hp]
        simp
      rw [List.length_nil] at hlen
      omega
  | d :: ds, t, hi, hds, hlen => by
    have hd : d = true := hds d List.mem_cons_self
    subst hd
    unfold run
    cases hp : t.peek with
    | none => exact hp
    | some h =>
      have := length_pending_shift hi hp
      exact run_shift_peek ds t.shift (shift_spec hi hp).1 (fun d hd => hds d (List.mem_cons_of_mem _ hd))
        (by simp at hlen; omega)

end TransactionsByPriceAndNonce

open TransactionsByPriceAndNonce in
/-- From a map of non-empty lists, each under its own sender: the constructor leaves each account's
list; every transaction a caller takes, whatever it decides, goes before the other heads (no higher
price, and of equal prices none seen earlier); at every point `Shift` moves the root's account on by
one and `Pop` drops the rest of it; and shifting until `Peek` returns nothing yields each account's
transactions in their order, each once. -/
theorem byPriceAndNonce_spec (txs : AList fun _ : Address => List PricedTx)
    (hne : ∀ a l, txs.lookup a = some l → l ≠ [])
    (hsend : ∀ a l, txs.lookup a = some l → ∀ tx ∈ l, tx.sender = a) :
    ∃ t, newTransactionsByPriceAndNonce txs = some t ∧ (∀ a, t.remaining a = (txs.lookup a).getD []) ∧
      (∀ ds : List Bool,
        (∀ p ∈ (t.run ds).1, ∀ h' ∈ p.2.2, h'.price ≤ p.1.price ∧ (h'.price = p.1.price → p.1.time ≤ h'.time)) ∧
        ∀ h, (t.run ds).2.peek = some h →
          (∀ a, (t.run ds).2.shift.remaining a =
            if a = h.sender then ((t.run ds).2.remaining a).tail else (t.run ds).2.remaining a) ∧
          ∀ a, (t.run ds).2.pop.remaining a = if a = h.sender then [] else (t.run ds).2.remaining a) ∧
      ∀ ds : List Bool, (∀ d ∈ ds, d = true) → (txs.entries.flatMap (·.2)).length ≤ ds.length →
        (t.run ds).2.peek = none ∧
        ∀ a, ((t.run ds).1.map (·.1)).filter (fun x => x.sender = a) = (txs.lookup a).getD [] := by
  obtain ⟨t, ht, hi, hrem, hpend⟩ := new_spec fun a l hl => ⟨hne a l hl, hsend a l hl⟩
  refine ⟨t, ht, hrem, fun ds => ⟨run_best ds t hi, fun h hp => ?_⟩, fun ds hds hlen => ?_⟩
  · have hi' := run_inv ds t hi
    exact ⟨(shift_spec hi' hp).2, (pop_spec hi' hp).2⟩
  · have hnone := run_shift_peek ds t hi hds (hpend.length_eq ▸ hlen)
    refine ⟨hnone, fun a => ?_⟩
    have := run_shift_yields ds t hi hds a
    rwa [remaining_of_peek_none hnone, List.append_nil, hrem] at this

/-- One account with two transactions, the first dearer: two shifts take both, in nonce order,
and leave nothing. -/
theorem byPriceAndNonce_spec_twoTxs :
    ∃ t, newTransactionsByPriceAndNonce (AList.singleton (Vector.replicate 20 0)
        [⟨2, 0, Vector.replicate 20 0⟩, ⟨1, 1, Vector.replicate 20 0⟩]) = some t ∧
      (t.run [true, true]).2.peek = none ∧
      ((t.run [true, true]).1.map (·.1)).filter (fun x => x.sender = Vector.replicate 20 0) =
        [⟨2, 0, Vector.replicate 20 0⟩, ⟨1, 1, Vector.replicate 20 0⟩] := by
  have hl : ∀ (b : Address) (l : List PricedTx), ((AList.singleton (Vector.replicate 20 0)
      [⟨2, 0, Vector.replicate 20 0⟩, ⟨1, 1, Vector.replicate 20 0⟩] :
        AList fun _ : Address => List PricedTx)).lookup b = some l →
      b = Vector.replicate 20 0 ∧ l = [(⟨2, 0, Vector.replicate 20 0⟩ : PricedTx), ⟨1, 1, Vector.replicate 20 0⟩] := by
    intro b l h
    simpa [AList.singleton_entries] using AList.mem_lookup_iff.mp (Option.mem_def.mpr h)
  obtain ⟨t, ht, -, -, hdrain⟩ := byPriceAndNonce_spec _
    (fun b l h => by rw [(hl b l h).2]; simp)
    (fun b l h tx htx => by
      obtain ⟨rfl, rfl⟩ := hl b l h
      simp only [List.mem_cons, List.not_mem_nil, or_false] at htx
      rcases htx with rfl | rfl <;> rfl)
  obtain ⟨hnone, hyield⟩ := hdrain [true, true] (by decide) (by decide)
  refine ⟨t, ht, hnone, ?_⟩
  rw [hyield]
  rfl

end Go420coin.Types
