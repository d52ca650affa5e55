import Go420coin.Core.Types
import Go420coin.Lib.MemFilter
import Mathlib.Data.List.AList

/-!
# Snapshot layers (`core/state/snapshot/difflayer.go`, `disklayer.go`)

A snapshot tree has one disk layer, the state in the key-value store, and diff layers on top of
it, each holding what one block changed: the accounts it destructed, the accounts it wrote and
the storage slots it wrote.  A diff layer answers a read from its own data, then its destruct set
(as deleted), then its parent (`accountRLP`, `storage`).  Each diff layer also keeps a filter of
every key written between it and the disk layer it was built on, its `origin`; a read the filter
has not seen goes straight to the origin (`AccountRLP`, `Storage`).

Layers are objects that point to their parents and are changed in place, so they live in a heap:
`Heap` holds the disk and diff layer objects, and `Ref` points to one of them.  The key-value store
is shared by every disk layer.  The bloom filter is any `MemFilter` over `BloomKey`s; its hashers,
sizes and random offsets are left out.  Disk layers are fully generated: the generator, its marker
and `ErrNotCoveredYet` are left out, as are the caches, the locks, the metrics, the sorted account
and storage lists and the nil-blob sanity panics (a blob here is a byte list, nil or empty alike).
-/

namespace Go420coin.Snapshot

/-- A value as the snapshot stores it. -/
abbrev Blob := List UInt8

/-- `common.HashLength`. -/
def hashLength : Nat := 32

/-- `aggregatorMemoryLimit`. -/
def aggregatorMemoryLimit : Nat := 4 * 1024 * 1024

/-- What the bloom filter indexes: `destructBloomHasher`, `accountBloomHasher` and
`storageBloomHasher`. -/
inductive BloomKey where
  | destruct (hash : Hash)
  | account (hash : Hash)
  | storage (accountHash storageHash : Hash)
  deriving DecidableEq

/-- A `snapshot` interface value: a pointer to a disk layer or to a diff layer of the heap. -/
inductive Ref where
  | disk (n : Nat)
  | diff (n : Nat)
  deriving DecidableEq

/-- The errors of the snapshot tree; a Go panic (a failed type assertion, a stale layer flattened
or persisted into, endless recursion) is `panic`. -/
inductive SnapError where
  | stale
  | cycle
  | missing (root : Hash)
  | diskLayer (root : Hash)
  | panic
  deriving DecidableEq

/-- The snapshot in the key-value store: accounts, storage slots, and the root it is of. -/
structure Database where
  accounts : Hash → Option Blob
  storage : Hash → Hash → Option Blob
  root : Hash

/-- `diskLayer`. -/
structure DiskLayer where
  root : Hash
  stale : Bool

/-- An account's storage slots in a diff layer. -/
abbrev Slots := AList (fun _ : Hash => Blob)

/-- `diffLayer`: its origin disk layer, its parent, its memory estimate, its root, whether it was
flattened into, its data, and its filter `diffed`. -/
structure DiffLayer (φ : Type) where
  origin : Nat
  parent : Ref
  memory : Nat
  root : Hash
  stale : Bool
  destructSet : List Hash
  accountData : AList (fun _ : Hash => Blob)
  storageData : AList (fun _ : Hash => Slots)
  diffed : φ

/-- The layer objects, by position, and the store under the disk layers. -/
structure Heap (φ : Type) where
  db : Database
  disks : List DiskLayer
  diffs : List (DiffLayer φ)

/-- The keys `rebloom` adds for a layer's own data. -/
def bloomKeys (destructs : List Hash) (accounts : AList (fun _ : Hash => Blob))
    (storage : AList (fun _ : Hash => Slots)) : List BloomKey :=
  destructs.map .destruct ++ accounts.keys.map .account ++
    storage.entries.flatMap fun e => e.2.keys.map (.storage e.1)

/-- The memory `newDiffLayer` counts for a layer's data. -/
def layerMemory (destructs : List Hash) (accounts : AList (fun _ : Hash => Blob))
    (storage : AList (fun _ : Hash => Slots)) : Nat :=
  (accounts.entries.map fun e => hashLength + e.2.length).sum +
    (storage.entries.map fun e => (e.2.entries.map fun s => hashLength + s.2.length).sum).sum +
    destructs.length * hashLength

variable {φ : Type} [MemFilter φ BloomKey]

namespace Heap

/-- The diff layer at `n`; a reference the heap does not hold, which no operation makes, reads as
a stale layer. -/
def diff (hp : Heap φ) (n : Nat) : DiffLayer φ :=
  hp.diffs.getD n ⟨0, .disk 0, 0, Vector.replicate 32 0, true, [], ∅, ∅, MemFilter.empty⟩

/-- The disk layer at `n`, stale if the heap does not hold it. -/
def disk (hp : Heap φ) (n : Nat) : DiskLayer := hp.disks.getD n ⟨Vector.replicate 32 0, true⟩

/-- `Root()`. -/
def rootOf (hp : Heap φ) : Ref → Hash
  | .disk n => (hp.disk n).root
  | .diff n => (hp.diff n).root

/-- `Stale()`. -/
def staleOf (hp : Heap φ) : Ref → Bool
  | .disk n => (hp.disk n).stale
  | .diff n => (hp.diff n).stale

/-- The diff layer at `n` replaced. -/
def setDiff (hp : Heap φ) (n : Nat) (dl : DiffLayer φ) : Heap φ := { hp with diffs := hp.diffs.set n dl }

/-- A new diff layer object. -/
def alloc (hp : Heap φ) (dl : DiffLayer φ) : Heap φ × Nat := ({ hp with diffs := hp.diffs ++ [dl] }, hp.diffs.length)

/-! ### Reads -/

/-- `diskLayer.AccountRLP`: a missing account reads as nil. -/
def diskAccountRLP (hp : Heap φ) (n : Nat) (hash : Hash) : Except SnapError Blob :=
  if (hp.disk n).stale then .error .stale else .ok ((hp.db.accounts hash).getD [])

/-- `diskLayer.Storage`. -/
def diskStorage (hp : Heap φ) (n : Nat) (accountHash storageHash : Hash) : Except SnapError Blob :=
  if (hp.disk n).stale then .error .stale else .ok ((hp.db.storage accountHash storageHash).getD [])

/-- `diffLayer.accountRLP`, down at most `fuel` diff layers. -/
def accountRLP (hp : Heap φ) (hash : Hash) : Nat → Nat → Except SnapError Blob
  | 0, _ => .error .panic
  | fuel + 1, n =>
    let dl := hp.diff n
    if dl.stale then .error .stale
    else match dl.accountData.lookup hash with
      | some data => .ok data
      | none =>
        -- a destructed account reads as deleted
        if hash ∈ dl.destructSet then .ok []
        else match dl.parent with
          | .diff p => hp.accountRLP hash fuel p
          | .disk d => hp.diskAccountRLP d hash

/-- `diffLayer.storage`, down at most `fuel` diff layers. -/
def storage (hp : Heap φ) (accountHash storageHash : Hash) : Nat → Nat → Except SnapError Blob
  | 0, _ => .error .panic
  | fuel + 1, n =>
    let dl := hp.diff n
    if dl.stale then .error .stale
    else match (dl.storageData.lookup accountHash).bind (·.lookup storageHash) with
      | some data => .ok data
      | none =>
        if accountHash ∈ dl.destructSet then .ok []
        else match dl.parent with
          | .diff p => hp.storage accountHash storageHash fuel p
          | .disk d => hp.diskStorage d accountHash storageHash

/-- `diffLayer.AccountRLP`: the lookup down the layers if the filter has seen the account or its
destruction, the origin disk layer otherwise.  The fuel is the number of diff layers, enough for
any chain of parents. -/
def accountRLPBloom (hp : Heap φ) (n : Nat) (hash : Hash) : Except SnapError Blob :=
  let dl := hp.diff n
  if MemFilter.contains dl.diffed (.account hash) || MemFilter.contains dl.diffed (.destruct hash) then
    hp.accountRLP hash hp.diffs.length n
  else hp.diskAccountRLP dl.origin hash

/-- `diffLayer.Storage`. -/
def storageBloom (hp : Heap φ) (n : Nat) (accountHash storageHash : Hash) : Except SnapError Blob :=
  let dl := hp.diff n
  if MemFilter.contains dl.diffed (.storage accountHash storageHash) ||
      MemFilter.contains dl.diffed (.destruct accountHash) then
    hp.storage accountHash storageHash hp.diffs.length n
  else hp.diskStorage dl.origin accountHash storageHash

/-- `Snapshot.AccountRLP` of a layer: the disk layer's, or the diff layer's with its filter. -/
def layerAccountRLP (hp : Heap φ) (hash : Hash) : Ref → Except SnapError Blob
  | .disk d => hp.diskAccountRLP d hash
  | .diff n => hp.accountRLPBloom n hash

/-- `Snapshot.Storage` of a layer. -/
def layerStorage (hp : Heap φ) (accountHash storageHash : Hash) : Ref → Except SnapError Blob
  | .disk d => hp.diskStorage d accountHash storageHash
  | .diff n => hp.storageBloom n accountHash storageHash

/-! ### New layers -/

/-- `rebloom`: the layer gets `origin`, and a filter of its parent's keys (none over a disk
parent) and its own. -/
def rebloom (hp : Heap φ) (dl : DiffLayer φ) (origin : Nat) : DiffLayer φ :=
  let base := match dl.parent with
    | .diff p => (hp.diff p).diffed
    | .disk _ => MemFilter.empty
  { dl with
    origin := origin
    diffed := MemFilter.addAll base (bloomKeys dl.destructSet dl.accountData dl.storageData) }

/-- `newDiffLayer`: the layer over `parent`, with the origin of the parent, and its index. -/
def newDiffLayer (hp : Heap φ) (parent : Ref) (root : Hash) (destructs : List Hash)
    (accounts : AList (fun _ : Hash => Blob)) (storage : AList (fun _ : Hash => Slots)) : Heap φ × Nat :=
  let origin := match parent with
    | .disk d => d
    | .diff p => (hp.diff p).origin
  let dl : DiffLayer φ :=
    { origin := origin, parent := parent, memory := layerMemory destructs accounts storage, root := root,
      stale := false, destructSet := destructs, accountData := accounts, storageData := storage,
      diffed := MemFilter.empty }
  hp.alloc (hp.rebloom dl origin)

end Heap

end Go420coin.Snapshot
