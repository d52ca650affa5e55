import Go420coin.Snapshot.Layers

/-!
# The snapshot tree (`core/state/snapshot/snapshot.go`, `difflayer.go`)

`Update` puts a new diff layer on top of the layer of a root.  `Cap` keeps a number of diff
layers under a head and merges the rest: `flatten` merges a layer and every diff layer under it
into one, writing the upper layer's data over the lower's and marking the lower stale, and
`diffToDisk` writes a bottom diff layer into the store and makes a new disk layer.  `Cap` then
drops from the tree every layer that is stale or whose parent's root is that of a dropped layer,
and, if the disk layer changed, rebuilds the filters of the layers over it.

The layer maps are values here: the storage maps that `flatten` shares between a child and the
merged layer are copies.  The recursions of `remove` and `rebloom` in `Cap` follow the tree by
roots; they are given as much fuel as the tree has layers, which an acyclic tree never exhausts.
-/

namespace Go420coin.Snapshot

variable {φ : Type} [MemFilter φ BloomKey]

/-! ### Flattening -/

/-- The loops of `flatten` that write a child's destructs, accounts and slots over its parent's
data. -/
def mergeData (parent child : DiffLayer φ) : DiffLayer φ :=
  -- a destructed account loses its data in the parent
  let parent := child.destructSet.foldl (fun (dl : DiffLayer φ) hash =>
    { dl with
      destructSet := dl.destructSet.insert hash
      accountData := dl.accountData.erase hash
      storageData := dl.storageData.erase hash }) parent
  let parent := child.accountData.entries.foldl (fun (dl : DiffLayer φ) e =>
    { dl with accountData := dl.accountData.insert e.1 e.2 }) parent
  child.storageData.entries.foldl (fun (dl : DiffLayer φ) e =>
    match dl.storageData.lookup e.1 with
    -- storage the parent does not have is written whole, slots it has are merged one by one
    | none => { dl with storageData := dl.storageData.insert e.1 e.2 }
    | some combo =>
      let combo := e.2.entries.foldl (fun (m : Slots) s => m.insert s.1 s.2) combo
      { dl with storageData := dl.storageData.insert e.1 combo }) parent

namespace Heap

/-- `flatten`, down at most `fuel` layers: the layer at `n` and the diff layers under it merged
into a new layer over the disk layer; each layer merged into is marked stale, and a layer over
the disk layer is returned as it is. -/
def flatten (hp : Heap φ) : Nat → Nat → Except SnapError (Heap φ × Ref)
  | 0, _ => .error .panic
  | fuel + 1, n =>
    let dl := hp.diff n
    match dl.parent with
    | .disk _ => .ok (hp, .diff n)
    | .diff p =>
      match hp.flatten fuel p with
      | .error e => .error e
      | .ok (_, .disk _) => .error .panic
      | .ok (hp, .diff q) =>
        let parent := hp.diff q
        -- "parent diff layer is stale": two children flattened into one parent
        if parent.stale then .error .panic
        else
          let merged := mergeData parent dl
          let hp := hp.setDiff q { merged with stale := true }
          let (hp, c) := hp.alloc
            { origin := parent.origin, parent := parent.parent, memory := parent.memory + dl.memory,
              root := dl.root, stale := false, destructSet := merged.destructSet,
              accountData := merged.accountData, storageData := merged.storageData, diffed := dl.diffed }
          .ok (hp, .diff c)

end Heap

/-! ### Persisting -/

/-- The writes of `diffToDisk` to the store: destructed accounts lose their account and every
slot, accounts are written, slots are written or, if empty, deleted, and the root marker moves. -/
def persist (db : Database) (bottom : DiffLayer φ) : Database :=
  let db := bottom.destructSet.foldl (fun (db : Database) hash =>
    { db with
      accounts := Function.update db.accounts hash none
      storage := fun a s => if a = hash then none else db.storage a s }) db
  let db := bottom.accountData.entries.foldl (fun (db : Database) e =>
    { db with accounts := Function.update db.accounts e.1 (some e.2) }) db
  let db := bottom.storageData.entries.foldl (fun (db : Database) e =>
    e.2.entries.foldl (fun (db : Database) s =>
      { db with storage := fun a k =>
          if a = e.1 ∧ k = s.1 then (if s.2.length > 0 then some s.2 else none) else db.storage a k }) db) db
  { db with root := bottom.root }

namespace Heap

/-- `diffToDisk`: the bottom diff layer written into the store under its disk layer, which turns
stale, and the new disk layer. -/
def diffToDisk (hp : Heap φ) (n : Nat) : Except SnapError (Heap φ × Nat) :=
  let bottom := hp.diff n
  match bottom.parent with
  | .diff _ => .error .panic
  | .disk b =>
    -- "parent disk layer is stale": two children persisted into one disk layer
    if (hp.disk b).stale then .error .panic
    else
      let hp := { hp with disks := hp.disks.set b { hp.disk b with stale := true } }
      .ok ({ hp with db := persist hp.db bottom, disks := hp.disks ++ [⟨bottom.root, false⟩] },
        hp.disks.length)

/-- The descent of `cap`: `k` parents down from `n`, or nothing if the stack of diff layers is not
that deep. -/
def capDescend (hp : Heap φ) : Nat → Nat → Option Nat
  | 0, n => some n
  | k + 1, n =>
    match (hp.diff n).parent with
    | .diff p => hp.capDescend k p
    | .disk _ => none

end Heap

/-! ### The tree -/

/-- `Tree`: the layers by root, and the heap of layer objects. -/
structure Tree (φ : Type) where
  heap : Heap φ
  layers : AList (fun _ : Hash => Ref)

namespace Tree

/-- `Update`: a new diff layer over the layer of `parentRoot`.  A missing parent fails the type
assertion on the nil snapshot. -/
def update (t : Tree φ) (blockRoot parentRoot : Hash) (destructs : List Hash)
    (accounts : AList (fun _ : Hash => Blob)) (storage : AList (fun _ : Hash => Slots)) :
    Except SnapError (Tree φ) :=
  if blockRoot = parentRoot then .error .cycle
  else match t.layers.lookup parentRoot with
    | none => .error .panic
    | some parent =>
      let (hp, n) := t.heap.newDiffLayer parent blockRoot destructs accounts storage
      .ok ⟨hp, t.layers.insert blockRoot (.diff n)⟩

/-- `cap`: below the layer `n`, `layers - 2` parents down, the parent is flattened into the layers
under it and, if that is over the memory limit, written to disk.  The new disk layer, if any. -/
def cap (t : Tree φ) (n layers : Nat) : Except SnapError (Tree φ × Option Nat) :=
  match t.heap.capDescend (layers - 2) n with
  | none => .ok (t, none)
  | some n =>
    match (t.heap.diff n).parent with
    | .disk _ => .ok (t, none)
    | .diff p =>
      match t.heap.flatten t.heap.diffs.length p with
      | .error e => .error e
      | .ok (_, .disk _) => .error .panic
      | .ok (hp, .diff f) =>
        let flattened := hp.diff f
        let layers := t.layers.insert flattened.root (.diff f)
        let hp := hp.setDiff n { hp.diff n with parent := .diff f }
        match flattened.parent with
        | .diff _ => .error .panic
        | .disk _ =>
          -- with the generation finished, a small accumulator stays in memory
          if flattened.memory < aggregatorMemoryLimit then .ok (⟨hp, layers⟩, none)
          else match hp.diffToDisk f with
            | .error e => .error e
            | .ok (hp, base) =>
              let hp := hp.setDiff n { hp.diff n with parent := .disk base }
              .ok (⟨hp, layers.insert (hp.disk base).root (.disk base)⟩, some base)

/-- The `children` map of `Cap`: the roots of the diff layers, by the root of their parent. -/
def children (t : Tree φ) : Hash → List Hash :=
  t.layers.entries.foldl (fun ch e =>
    match e.2 with
    | .diff n =>
      let parentRoot := t.heap.rootOf (t.heap.diff n).parent
      Function.update ch parentRoot (ch parentRoot ++ [e.1])
    | .disk _ => ch) fun _ => []

end Tree

/-- `remove` of `Cap`: a root leaves the layers, then its children do, and its entry leaves the
children map. -/
def removeLayer : Nat → AList (fun _ : Hash => Ref) × (Hash → List Hash) → Hash →
    AList (fun _ : Hash => Ref) × (Hash → List Hash)
  | 0, acc, _ => acc
  | fuel + 1, (layers, children), root =>
    let acc := (children root).foldl (fun acc child => removeLayer fuel acc child)
      (layers.erase root, children)
    (acc.1, Function.update acc.2 root [])

/-- `rebloom` of `Cap`: the diff layer at `root` gets the new disk layer as origin and a rebuilt
filter, then so do its children. -/
def rebloomFrom (layers : AList (fun _ : Hash => Ref)) (children : Hash → List Hash) (persisted : Nat) :
    Nat → Heap φ → Hash → Heap φ
  | 0, hp, _ => hp
  | fuel + 1, hp, root =>
    let hp := match layers.lookup root with
      | some (.diff n) => hp.setDiff n (hp.rebloom (hp.diff n) persisted)
      | _ => hp
    (children root).foldl (fun hp child => rebloomFrom layers children persisted fuel hp child) hp

namespace Tree

/-- The end of `Cap`: the stale layers leave the tree with every layer linked under them by root,
and, if the disk layer changed, the filters over it are rebuilt. -/
def sweep (t : Tree φ) (persisted : Option Nat) : Tree φ :=
  let fuel := t.layers.entries.length
  let (layers, children) := t.layers.keys.foldl (fun acc root =>
      match acc.1.lookup root with
      | some ref => if t.heap.staleOf ref then removeLayer fuel acc root else acc
      | none => acc) (t.layers, t.children)
  match persisted with
  | none => ⟨t.heap, layers⟩
  | some base => ⟨rebloomFrom layers children base fuel t.heap (t.heap.disk base).root, layers⟩

/-- `Cap`: with no layer kept, everything is written to disk; with one, the diffs are merged into
one and written only over the memory limit; with more, `cap` merges what lies deeper. -/
def capTo (t : Tree φ) (root : Hash) (layers : Nat) : Except SnapError (Tree φ) :=
  match t.layers.lookup root with
  | none => .error (.missing root)
  | some (.disk _) => .error (.diskLayer root)
  | some (.diff d) =>
    match layers with
    | 0 =>
      match t.heap.flatten t.heap.diffs.length d with
      | .error e => .error e
      | .ok (_, .disk _) => .error .panic
      | .ok (hp, .diff b) =>
        match hp.diffToDisk b with
        | .error e => .error e
        | .ok (hp, base) => .ok ⟨hp, AList.singleton (hp.disk base).root (.disk base)⟩
    | 1 =>
      match t.heap.flatten t.heap.diffs.length d with
      | .error e => .error e
      | .ok (_, .disk _) => .error .panic
      | .ok (hp, .diff b) =>
        if aggregatorMemoryLimit ≤ (hp.diff b).memory then
          match hp.diffToDisk b with
          | .error e => .error e
          | .ok (hp, base) => .ok ⟨hp, AList.singleton (hp.disk base).root (.disk base)⟩
        else .ok (sweep ⟨hp, t.layers.insert (hp.diff b).root (.diff b)⟩ none)
    | layers + 2 =>
      match t.cap d (layers + 2) with
      | .error e => .error e
      | .ok (t, persisted) => .ok (sweep t persisted)

/-- `Snapshot(root).AccountRLP(hash)`, if the tree has the root. -/
def accountRLP (t : Tree φ) (root hash : Hash) : Option (Except SnapError Blob) :=
  (t.layers.lookup root).map (t.heap.layerAccountRLP hash)

/-- `Snapshot(root).Storage(accountHash, storageHash)`, if the tree has the root. -/
def storage (t : Tree φ) (root accountHash storageHash : Hash) : Option (Except SnapError Blob) :=
  (t.layers.lookup root).map (t.heap.layerStorage accountHash storageHash)

end Tree

end Go420coin.Snapshot
