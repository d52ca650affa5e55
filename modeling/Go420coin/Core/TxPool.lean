import Go420coin.Core.StateTransition
import Mathlib.Data.List.AList
import Mathlib.Data.List.Sort

/-!
# Adding a transaction to the pool (`core/tx_pool.go`, `core/tx_list.go`)

`TxPool.add` rejects a known or invalid transaction, makes room in a full pool by evicting the
cheapest remote transactions (`txPricedList.Discard` and `removeTx`), and then either replaces a
pending transaction of the same nonce, if the price rises by the required bump, or puts the
transaction in the account's future queue (`enqueueTx`), which may replace a queued one.

The pool is written through pointers and its errors keep the writes made before them, so the
functions run in `EStateM` over `TxPool`.  Go maps of accounts and hashes are association lists
(`AList`), whose order no function reads.  The price heap is a list sorted by `priceHeap.Less`,
cheapest first: `heap.Push` inserts in order and `heap.Pop` takes the head; of two entries neither
of which is `Less` than the other, the list may hold them in another order than the heap's array.
The metrics, the logs, the journal and the event feed are left out; `time.Now()` is a parameter.
-/

namespace Go420coin.Core

/-! ### Transactions and their lists -/

/-- `txSlotSize`. -/
def txSlotSize : Nat := 32 * 1024

/-- `txMaxSize`. -/
def txMaxSize : Nat := 4 * txSlotSize

/-- A transaction as the pool reads it: its hash, the sender its signature recovers to
(`types.Sender`, `none` if it does not recover) and its payload; `size` is `Size()`. -/
structure PoolTx where
  hash : Hash
  sender : Option Address
  nonce : UInt64
  smokePrice : Nat
  smoke : UInt64
  value : Int
  data : List UInt8
  recipient : Option Address
  size : Nat
  deriving DecidableEq

/-- `Cost`: the value and the price of all the smoke. -/
def PoolTx.cost (tx : PoolTx) : Int := tx.smokePrice * tx.smoke.toNat + tx.value

/-- `from, _ := types.Sender(pool.signer, tx)` after validation: the zero address if the signature
does not recover. -/
def PoolTx.fromAddr (tx : PoolTx) : Address := tx.sender.getD (Vector.replicate 20 0)

/-- `numSlots`. -/
def numSlots (tx : PoolTx) : Nat := (tx.size + txSlotSize - 1) / txSlotSize

/-- Go's `int(u)` of a `uint64`. -/
def goInt (u : UInt64) : Int := u.toInt64.toInt

/-- `txList`: an account's transactions by nonce (`txSortedMap`'s `items`); `strict` lists are the
pending ones.  The index, the cache and the cost and smoke caps are left out here; `SortedTxList`
(`Core.TxList`) keeps them, and this is its `toTxList`. -/
structure TxList where
  strict : Bool
  txs : AList (fun _ : UInt64 => PoolTx)

/-- `newTxList`. -/
def newTxList (strict : Bool) : TxList := ⟨strict, ∅⟩

namespace TxList

/-- `Overlaps`. -/
def overlaps (l : TxList) (tx : PoolTx) : Bool := (l.txs.lookup tx.nonce).isSome

/-- `Empty`. -/
def empty (l : TxList) : Bool := l.txs.entries.isEmpty

/-- `Add`: whether `tx` went in and the transaction it replaced.  A transaction of the same nonce
is replaced only by a strictly higher price that is also at least `priceBump` percent higher. -/
def add (l : TxList) (tx : PoolTx) (priceBump : UInt64) : Bool × Option PoolTx × TxList :=
  match l.txs.lookup tx.nonce with
  | some old =>
    -- `big.NewInt(100 + int64(priceBump))`, times the old price, over 100
    let threshold : Int := (100 + priceBump.toInt64).toInt * old.smokePrice / 100
    if tx.smokePrice ≤ old.smokePrice ∨ (tx.smokePrice : Int) < threshold then (false, none, l)
    else (true, some old, { l with txs := l.txs.insert tx.nonce tx })
  | none => (true, none, { l with txs := l.txs.insert tx.nonce tx })

/-- `txSortedMap.Filter`: the transactions `f` holds of are removed and returned. -/
def filter (l : TxList) (f : PoolTx → Bool) : List PoolTx × TxList :=
  let removed := l.txs.entries.filter fun e => f e.2
  (removed.map (·.2), { l with txs := removed.foldl (fun m e => m.erase e.1) l.txs })

/-- `Remove`: the transaction at `tx`'s nonce goes, and from a strict list every later one too,
returned as invalidated. -/
def remove (l : TxList) (tx : PoolTx) : Bool × List PoolTx × TxList :=
  if tx.nonce ∈ l.txs then
    let l := { l with txs := l.txs.erase tx.nonce }
    if l.strict then
      let (invalids, l) := l.filter fun t => t.nonce > tx.nonce
      (true, invalids, l)
    else (true, [], l)
  else (false, [], l)

end TxList

/-! ### The lookup and the price heap -/

/-- `accountSet.containsTx`: a sender that does not recover is in no set. -/
def containsTx (locals : Finset Address) (tx : PoolTx) : Bool :=
  match tx.sender with
  | some addr => addr ∈ locals
  | none => false

/-- `txLookup`: every transaction of the pool by hash, local or remote, and the slots they take. -/
structure TxLookup where
  slots : Int
  locals : AList (fun _ : Hash => PoolTx)
  remotes : AList (fun _ : Hash => PoolTx)

namespace TxLookup

/-- `Get`: a local transaction first. -/
def get (t : TxLookup) (hash : Hash) : Option PoolTx :=
  match t.locals.lookup hash with
  | some tx => some tx
  | none => t.remotes.lookup hash

/-- `GetRemote`. -/
def getRemote (t : TxLookup) (hash : Hash) : Option PoolTx := t.remotes.lookup hash

/-- `Count`. -/
def count (t : TxLookup) : Nat := t.locals.entries.length + t.remotes.entries.length

/-- `Add`. -/
def add (t : TxLookup) (tx : PoolTx) (isLocal : Bool) : TxLookup :=
  if isLocal then { t with slots := t.slots + numSlots tx, locals := t.locals.insert tx.hash tx }
  else { t with slots := t.slots + numSlots tx, remotes := t.remotes.insert tx.hash tx }

/-- `Remove`: a hash it does not hold changes nothing. -/
def remove (t : TxLookup) (hash : Hash) : TxLookup :=
  match t.get hash with
  | none => t
  | some tx => ⟨t.slots - numSlots tx, t.locals.erase hash, t.remotes.erase hash⟩

/-- `RemoteToLocals`: the remote transactions of local senders become local; their number. -/
def remoteToLocals (t : TxLookup) (locals : Finset Address) : TxLookup × Nat :=
  let moved := t.remotes.entries.filter fun e => containsTx locals e.2
  ({ t with
      locals := moved.foldl (fun m e => m.insert e.1 e.2) t.locals
      remotes := moved.foldl (fun m e => m.erase e.1) t.remotes },
    moved.length)

end TxLookup

/-- `priceHeap.Less`: the lower price, and at one price the higher nonce, comes first. -/
def cheaper (a b : PoolTx) : Bool :=
  a.smokePrice < b.smokePrice || (a.smokePrice == b.smokePrice && a.nonce > b.nonce)

/-- The heap's order as a list: `a` may stand before `b` unless `b` is `Less`. -/
def heapBefore (a b : PoolTx) : Prop := cheaper b a = false

instance : DecidableRel heapBefore := fun a b => inferInstanceAs (Decidable (cheaper b a = false))

/-- `txPricedList`: the heap of remote transactions, with the count of stale entries.  Its `all`
pointer is the pool's lookup, passed to the methods that read it. -/
structure TxPricedList where
  remotes : List PoolTx
  stales : Int

/-- The loop of `Underpriced` that pops the stale entries, those no longer remote in the pool,
off the top of the heap. -/
def popStale (all : TxLookup) : List PoolTx → Int → List PoolTx × Int
  | [], stales => ([], stales)
  | head :: rest, stales =>
    if (all.getRemote head.hash).isNone then popStale all rest (stales - 1) else (head :: rest, stales)

/-- The loop of `Discard`: it pops entries until `slots` are freed, skipping stale ones, and
collects the dropped transactions. -/
def discardLoop (all : TxLookup) : List PoolTx → Int → Int → List PoolTx → List PoolTx × Int × Int × List PoolTx
  | [], stales, slots, drop => ([], stales, slots, drop)
  | tx :: rest, stales, slots, drop =>
    if slots > 0 then
      if (all.getRemote tx.hash).isNone then discardLoop all rest (stales - 1) slots drop
      else discardLoop all rest stales (slots - numSlots tx) (drop ++ [tx])
    else (tx :: rest, stales, slots, drop)

namespace TxPricedList

/-- `Put`: only remote transactions are tracked. -/
def put (l : TxPricedList) (tx : PoolTx) (isLocal : Bool) : TxPricedList :=
  if isLocal then l else { l with remotes := l.remotes.orderedInsert heapBefore tx }

/-- `Reheap`: the heap of the lookup's remote transactions. -/
def reheap (all : TxLookup) : TxPricedList :=
  ⟨(all.remotes.entries.map (·.2)).insertionSort heapBefore, 0⟩

/-- `Removed`: the heap is rebuilt once more than a quarter of it is stale. -/
def removed (l : TxPricedList) (all : TxLookup) (count : Int) : TxPricedList :=
  let stales := l.stales + count
  if stales ≤ (l.remotes.length / 4 : Nat) then { l with stales := stales } else reheap all

/-- `Underpriced`: whether the cheapest remote transaction costs at least as much as `tx`. -/
def underpriced (l : TxPricedList) (all : TxLookup) (tx : PoolTx) : Bool × TxPricedList :=
  let (remotes, stales) := popStale all l.remotes l.stales
  match remotes with
  | [] => (false, ⟨remotes, stales⟩)
  | cheapest :: _ => (tx.smokePrice ≤ cheapest.smokePrice, ⟨remotes, stales⟩)

/-- `Discard`: the cheapest remote transactions taking `slots`; without `force`, nothing if they
do not free enough, with the popped ones pushed back. -/
def discard (l : TxPricedList) (all : TxLookup) (slots : Int) (force : Bool) :
    List PoolTx × Bool × TxPricedList :=
  let (remotes, stales, slots, drop) := discardLoop all l.remotes l.stales slots []
  if slots > 0 && !force then
    ([], false, ⟨drop.foldl (fun h tx => h.orderedInsert heapBefore tx) remotes, stales⟩)
  else (drop, true, ⟨remotes, stales⟩)

end TxPricedList

/-! ### The pool -/

/-- `TxPoolConfig`, the fields `add` reads. -/
structure TxPoolConfig where
  priceBump : UInt64
  globalSlots : UInt64
  globalQueue : UInt64

/-- `TxPool`, the fields `add` reads and writes.  `pendingNonces` is the `txNoncer`'s map; its
fallback is `currentState`. -/
structure TxPool where
  config : TxPoolConfig
  smokePrice : Nat
  istanbul : Bool
  currentState : World
  pendingNonces : Address → Option UInt64
  currentMaxSmoke : UInt64
  locals : Finset Address
  pending : AList (fun _ : Address => TxList)
  queue : AList (fun _ : Address => TxList)
  beats : Address → Option Nat
  all : TxLookup
  priced : TxPricedList

/-- The errors of `add`; those of `core/error.go` are `TxError`s. -/
inductive PoolError where
  | alreadyKnown
  | invalidSender
  | underpriced
  | txPoolOverflow
  | replaceUnderpriced
  | smokeLimit
  | negativeValue
  | oversizedData
  | core (e : TxError)
  deriving DecidableEq, Repr

abbrev PoolM := EStateM PoolError TxPool

/-- `txNoncer.setIfLower`: an account's virtual nonce, read from the state if it has none, is
lowered to `nonce`. -/
def setIfLower (pool : TxPool) (addr : Address) (nonce : UInt64) : Address → Option UInt64 :=
  let current := (pool.pendingNonces addr).getD (pool.currentState.nonce addr)
  Function.update pool.pendingNonces addr (some (if current ≤ nonce then current else nonce))

/-- `validateTx`. -/
def validateTx (pool : TxPool) (tx : PoolTx) (isLocal : Bool) : Except PoolError Unit :=
  if tx.size > txMaxSize then .error .oversizedData
  else if tx.value < 0 then .error .negativeValue
  else if pool.currentMaxSmoke < tx.smoke then .error .smokeLimit
  else match tx.sender with
    | none => .error .invalidSender
    | some addr =>
      if !isLocal && tx.smokePrice < pool.smokePrice then .error .underpriced
      else if pool.currentState.nonce addr > tx.nonce then .error (.core .nonceTooLow)
      else if pool.currentState.balance addr < tx.cost then .error (.core .insufficientFunds)
      else match intrinsicSmoke tx.data tx.recipient.isNone true pool.istanbul with
        | .error e => .error (.core e)
        | .ok smoke => if tx.smoke < smoke then .error (.core .intrinsicSmoke) else .ok ()

variable (now : Nat)

namespace TxPool

/-- `pool.all.Remove(old.Hash())` and `pool.priced.Removed(1)`, for the transaction a new one
replaced. -/
def dropReplaced (pool : TxPool) : Option PoolTx → TxPool
  | some old =>
    let all := pool.all.remove old.hash
    { pool with all := all, priced := pool.priced.removed all 1 }
  | none => pool

/-- `pool.all.Add(tx, local)` and `pool.priced.Put(tx, local)`. -/
def track (pool : TxPool) (tx : PoolTx) (isLocal : Bool) : TxPool :=
  { pool with all := pool.all.add tx isLocal, priced := pool.priced.put tx isLocal }

end TxPool

/-- `enqueueTx`: `tx` goes into its account's future queue, which is created first if missing;
with `addAll` it also enters the lookup and the heap. -/
def enqueueTx (tx : PoolTx) (isLocal addAll : Bool) : PoolM Bool := fun pool =>
  let addr := tx.fromAddr
  let pool := if addr ∈ pool.queue then pool
    else { pool with queue := pool.queue.insert addr (newTxList false) }
  match ((pool.queue.lookup addr).getD (newTxList false)).add tx pool.config.priceBump with
  | (false, _, _) => .error .replaceUnderpriced pool
  | (true, old, list) =>
    let pool := { pool with queue := pool.queue.insert addr list }.dropReplaced old
    let pool := if addAll then pool.track tx isLocal else pool
    .ok old.isSome (if (pool.beats addr).isSome then pool
      else { pool with beats := Function.update pool.beats addr (some now) })

/-- The end of `removeTx`, for a transaction in the future queue: an emptied queue goes, with the
account's heartbeat. -/
def removeQueued (addr : Address) (tx : PoolTx) : PoolM Unit :=
  modify fun pool =>
    match pool.queue.lookup addr with
    | none => pool
    | some future =>
      let future := (future.remove tx).2.2
      if future.empty then
        { pool with queue := pool.queue.erase addr, beats := Function.update pool.beats addr none }
      else { pool with queue := pool.queue.insert addr future }

/-- `removeTx`: the transaction leaves the lookup and its account's lists; the pending ones after
it move to the future queue, whose errors are dropped, and the account's virtual nonce falls to its
nonce. -/
def removeTx (hash : Hash) (outofbound : Bool) : PoolM Unit := do
  let pool ← get
  match pool.all.get hash with
  | none => pure ()
  | some tx =>
    let addr := tx.fromAddr
    let all := pool.all.remove hash
    set { pool with all := all, priced := if outofbound then pool.priced.removed all 1 else pool.priced }
    let pool ← get
    match pool.pending.lookup addr with
    | none => removeQueued addr tx
    | some pending =>
      let (removed, invalids, pending) := pending.remove tx
      if removed then do
        set { pool with
          pending := if pending.empty then pool.pending.erase addr else pool.pending.insert addr pending }
        invalids.forM fun tx => EStateM.discardError (enqueueTx now tx false false)
        modify fun pool => { pool with pendingNonces := setIfLower pool addr tx.nonce }
      else removeQueued addr tx

/-- The block of `add` for a full pool: a remote transaction no dearer than the cheapest remote one
is refused, and otherwise the cheapest remote transactions are evicted to make room. -/
def discardUnderpriced (tx : PoolTx) (isLocal : Bool) : PoolM Unit := do
  if !isLocal then
    let pool ← get
    let (underpriced, priced) := pool.priced.underpriced pool.all tx
    set { pool with priced := priced }
    if underpriced then throw .underpriced
  let pool ← get
  let slots := pool.all.slots - goInt (pool.config.globalSlots + pool.config.globalQueue) + numSlots tx
  let (drop, success, priced) := pool.priced.discard pool.all slots isLocal
  set { pool with priced := priced }
  if !isLocal && !success then throw .txPoolOverflow
  drop.forM fun tx => removeTx now tx.hash false

/-- The replacement of a pending transaction of the same nonce, in `add`. -/
def replacePending (addr : Address) (list : TxList) (tx : PoolTx) (isLocal : Bool) : PoolM Bool := do
  let pool ← get
  let (inserted, old, list) := list.add tx pool.config.priceBump
  if !inserted then throw .replaceUnderpriced
  let pool := ({ pool with pending := pool.pending.insert addr list }.dropReplaced old).track tx isLocal
  set { pool with beats := Function.update pool.beats addr (some now) }
  pure old.isSome

/-- The end of `add` for a transaction that replaces no pending one: it is queued, and a local
transaction's sender becomes a local account, whose remote transactions turn local. -/
def addFuture (tx : PoolTx) (isLocal : Bool) (loc : Bool) : PoolM Bool := do
  let replaced ← enqueueTx now tx isLocal true
  let pool ← get
  if loc && tx.fromAddr ∉ pool.locals then
    let locals := insert tx.fromAddr pool.locals
    let (all, migrated) := pool.all.remoteToLocals locals
    set { pool with locals := locals, all := all, priced := pool.priced.removed all migrated }
  pure replaced

/-- `add`. -/
def add (tx : PoolTx) (loc : Bool) : PoolM Bool := do
  let pool ← get
  if (pool.all.get tx.hash).isSome then throw .alreadyKnown
  let isLocal := loc || containsTx pool.locals tx
  match validateTx pool tx isLocal with
  | .error e => throw e
  | .ok () => pure ()
  if pool.config.globalSlots + pool.config.globalQueue < (pool.all.count + numSlots tx).toUInt64 then
    discardUnderpriced now tx isLocal
  let pool ← get
  match pool.pending.lookup tx.fromAddr with
  | some list =>
    if list.overlaps tx then replacePending now tx.fromAddr list tx isLocal
    else addFuture now tx isLocal loc
  | none => addFuture now tx isLocal loc

end Go420coin.Core
