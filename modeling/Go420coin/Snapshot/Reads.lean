import Go420coin.Snapshot.Tree

/-!
# Reads through the layers, and a fork that `Cap` leaves over a stale layer

The reads of a diff layer, one layer at a time: a stale layer fails, a layer answers from its own
accounts, then from its destruct set, then passes the read to its parent.  The filter of a layer
built by `rebloom` has seen its own keys and every key its parent's filter has seen; a read the
filter has not seen goes to the origin disk layer.

`Cap` drops the layers that are stale or whose parent's root is that of a dropped layer.  Links go
by object, drops go by root: when a layer with two children is flattened into the layer under it,
the merged layer takes its root, and the child that `Cap` did not follow keeps its link to the old
object, whose parent is now stale.  The fork below is the tree of `TestPostCapBasicDataAccess`
capped to two layers: the sibling `0xb3` stays in the tree, its reads that reach under its parent
fail, and its reads that its filter has not seen still answer from the disk layer.
-/

namespace Go420coin.Snapshot

variable {φ : Type} [MemFilter φ BloomKey]

/-! ### One layer at a time -/

namespace Heap

variable (hp : Heap φ) (hash : Hash) (fuel n : Nat)

theorem accountRLP_of_stale (hs : (hp.diff n).stale = true) :
    hp.accountRLP hash (fuel + 1) n = .error .stale := by
  simp [accountRLP, hs]

theorem accountRLP_of_lookup {data : Blob} (hs : (hp.diff n).stale = false)
    (hd : (hp.diff n).accountData.lookup hash = some data) :
    hp.accountRLP hash (fuel + 1) n = .ok data := by
  simp [accountRLP, hs, hd]

/-- A layer that neither wrote nor destructed the account passes the read to its diff parent. -/
theorem accountRLP_of_parent {p : Nat} (hs : (hp.diff n).stale = false)
    (hd : (hp.diff n).accountData.lookup hash = none) (hx : hash ∉ (hp.diff n).destructSet)
    (hpar : (hp.diff n).parent = .diff p) :
    hp.accountRLP hash (fuel + 1) n = hp.accountRLP hash fuel p := by
  simp [accountRLP, hs, hd, hx, hpar]

theorem accountRLPBloom_of_hit (hit : MemFilter.contains (hp.diff n).diffed (.account hash) = true) :
    hp.accountRLPBloom n hash = hp.accountRLP hash hp.diffs.length n := by
  simp [accountRLPBloom, hit]

/-- A read the filter has not seen, as an account or as a destruction, goes to the origin. -/
theorem accountRLPBloom_of_miss
    (ha : MemFilter.contains (hp.diff n).diffed (.account hash) = false)
    (hd : MemFilter.contains (hp.diff n).diffed (.destruct hash) = false) :
    hp.accountRLPBloom n hash = hp.diskAccountRLP (hp.diff n).origin hash := by
  simp [accountRLPBloom, ha, hd]

end Heap

/-! ### What a rebuilt filter has seen -/

namespace Heap

variable (hp : Heap φ) (dl : DiffLayer φ) (origin : Nat)

theorem contains_rebloom_of_key {k : BloomKey} (hk : k ∈ bloomKeys dl.destructSet dl.accountData dl.storageData) :
    MemFilter.contains (hp.rebloom dl origin).diffed k = true :=
  MemFilter.contains_addAll_of_mem _ hk

theorem contains_rebloom_of_parent {k : BloomKey} {p : Nat} (hpar : dl.parent = .diff p)
    (hk : MemFilter.contains (hp.diff p).diffed k = true) :
    MemFilter.contains (hp.rebloom dl origin).diffed k = true := by
  simp only [rebloom, hpar]
  exact MemFilter.contains_addAll_of_contains hk _

end Heap

theorem account_mem_bloomKeys {hash : Hash} {data : Blob} {destructs : List Hash}
    {accounts : AList (fun _ : Hash => Blob)} {storage : AList (fun _ : Hash => Slots)}
    (h : accounts.lookup hash = some data) : .account hash ∈ bloomKeys destructs accounts storage := by
  have hk : hash ∈ accounts.keys := AList.mem_keys.mp (AList.lookup_isSome.mp (by simp [h]))
  simp [bloomKeys, hk]

theorem lookup_singleton_self (k : Hash) (v : Blob) :
    (AList.singleton k v : AList (fun _ : Hash => Blob)).lookup k = some v := by
  rw [AList.lookup, AList.singleton_entries, List.dlookup_cons_eq]

theorem lookup_singleton_of_ne {a k : Hash} {v : Blob} (h : a ≠ k) :
    (AList.singleton k v : AList (fun _ : Hash => Blob)).lookup a = none := by
  rw [AList.lookup, AList.singleton_entries, List.dlookup_cons_ne _ _ h, List.dlookup_nil]

/-! ### A fork under the capped chain -/

/-- The root of a layer of the fork, every byte of it `b`. -/
def layerRoot (b : UInt8) : Hash := Vector.replicate 32 b

/-- What the layer of root `layerRoot b` writes: one account, keyed by that root, holding `[b]`. -/
def written (b : UInt8) : AList (fun _ : Hash => Blob) := AList.singleton (layerRoot b) [b]

/-- The tree of the disk layer `0x01` alone. -/
def diskTree (db : Database) : Tree φ :=
  ⟨⟨db, [⟨layerRoot 0x01, false⟩], []⟩, AList.singleton (layerRoot 0x01) (.disk 0)⟩

/-- `0xa1` over the disk layer, `0xa2` over `0xa1`, and `0xa3` and `0xb3` both over `0xa2`. -/
def forkTree (db : Database) : Except SnapError (Tree φ) := do
  let t ← (diskTree db).update (layerRoot 0xa1) (layerRoot 0x01) [] (written 0xa1) ∅
  let t ← t.update (layerRoot 0xa2) (layerRoot 0xa1) [] (written 0xa2) ∅
  let t ← t.update (layerRoot 0xa3) (layerRoot 0xa2) [] (written 0xa3) ∅
  t.update (layerRoot 0xb3) (layerRoot 0xa2) [] (written 0xb3) ∅

/-- The filters `Update` builds: over `0xa1`, over `0xa2`, and over `0xb3`. -/
def bloomA1 : φ := MemFilter.addAll MemFilter.empty (bloomKeys [] (written 0xa1) ∅)

def bloomA2 : φ := MemFilter.addAll (bloomA1 (φ := φ)) (bloomKeys [] (written 0xa2) ∅)

def bloomB3 : φ := MemFilter.addAll (bloomA2 (φ := φ)) (bloomKeys [] (written 0xb3) ∅)

/-- A layer of the fork as `newDiffLayer` builds it over a parent whose filter is `diffed`. -/
def forkLayer (b : UInt8) (parent : Ref) (diffed : φ) : DiffLayer φ :=
  { origin := 0, parent := parent, memory := layerMemory [] (written b) ∅, root := layerRoot b,
    stale := false, destructSet := [], accountData := written b, storageData := ∅,
    diffed := MemFilter.addAll diffed (bloomKeys [] (written b) ∅) }

/-- The fork, written out. -/
def forkHeap (db : Database) : Tree φ :=
  ⟨⟨db, [⟨layerRoot 0x01, false⟩],
    [forkLayer 0xa1 (.disk 0) MemFilter.empty, forkLayer 0xa2 (.diff 0) bloomA1,
     forkLayer 0xa3 (.diff 1) bloomA2, forkLayer 0xb3 (.diff 1) bloomA2]⟩,
   ((((AList.singleton (layerRoot 0x01) (.disk 0)).insert (layerRoot 0xa1) (.diff 0)).insert
      (layerRoot 0xa2) (.diff 1)).insert (layerRoot 0xa3) (.diff 2)).insert (layerRoot 0xb3) (.diff 3)⟩

theorem forkTree_eq (db : Database) : forkTree db = .ok (forkHeap (φ := φ) db) := rfl

/-- The fork after `Cap(0xa3, 2)`: `0xa2` merged into `0xa1`, which turns stale, the merged layer
at `4` under the root `0xa2`, `0xa3` linked to it, and `0xb3` as it was, over the old `0xa2`. -/
def cappedHeap (db : Database) : Tree φ :=
  let a1 := forkLayer 0xa1 (.disk 0) (MemFilter.empty : φ)
  let a2 := forkLayer 0xa2 (.diff 0) (bloomA1 (φ := φ))
  let merged := mergeData a1 a2
  ⟨⟨db, [⟨layerRoot 0x01, false⟩],
    [{ merged with stale := true }, a2, { forkLayer 0xa3 (.diff 1) bloomA2 with parent := .diff 4 },
     forkLayer 0xb3 (.diff 1) bloomA2,
     { origin := 0, parent := .disk 0, memory := a1.memory + a2.memory, root := layerRoot 0xa2,
       stale := false, destructSet := merged.destructSet, accountData := merged.accountData,
       storageData := merged.storageData, diffed := a2.diffed }]⟩,
   ((forkHeap (φ := φ) db).layers.insert (layerRoot 0xa2) (.diff 4)).erase (layerRoot 0xa1)⟩

theorem capTo_forkHeap (db : Database) :
    (forkHeap (φ := φ) db).capTo (layerRoot 0xa3) 2 = .ok (cappedHeap db) := rfl

/-- The filter of `0xb3` has seen the account of each layer under it. -/
theorem contains_bloomB3_of_written {b : UInt8} (hb : b = 0xa1 ∨ b = 0xa2 ∨ b = 0xb3) :
    MemFilter.contains (bloomB3 (φ := φ)) (.account (layerRoot b)) = true := by
  have hkey : ∀ f : φ, MemFilter.contains (MemFilter.addAll f (bloomKeys [] (written b) ∅)) (.account (layerRoot b)) = true :=
    fun f => MemFilter.contains_addAll_of_mem f (account_mem_bloomKeys (lookup_singleton_self _ _))
  rcases hb with rfl | rfl | rfl
  · exact MemFilter.contains_addAll_of_contains (MemFilter.contains_addAll_of_contains (hkey _) _) _
  · exact MemFilter.contains_addAll_of_contains (hkey _) _
  · exact hkey _

/-- A hash the filter of `0xb3` misses is written by no layer under it. -/
theorem ne_layerRoot_of_miss {h : Hash} (hmiss : MemFilter.contains (bloomB3 (φ := φ)) (.account h) = false)
    {b : UInt8} (hb : b = 0xa1 ∨ b = 0xa2 ∨ b = 0xb3) : h ≠ layerRoot b := by
  rintro rfl
  simp [contains_bloomB3_of_written hb] at hmiss

/-! ### What the sibling reads after the cap -/

theorem cap_breaks_sibling_read (db : Database) :
    ∃ t t' : Tree φ, forkTree db = .ok t ∧ t.capTo (layerRoot 0xa3) 2 = .ok t' ∧
      t'.layers.lookup (layerRoot 0xb3) = some (.diff 3) ∧
      t.accountRLP (layerRoot 0xb3) (layerRoot 0xa1) = some (.ok [0xa1]) ∧
      t'.accountRLP (layerRoot 0xb3) (layerRoot 0xa1) = some (.error .stale) := by
  have hit : MemFilter.contains (bloomB3 (φ := φ)) (.account (layerRoot 0xa1)) = true :=
    contains_bloomB3_of_written (.inl rfl)
  refine ⟨_, _, forkTree_eq db, capTo_forkHeap db, rfl, ?_, ?_⟩
  · -- before the cap the read goes down to `0xa1`, which wrote the account
    show some ((forkHeap db).heap.accountRLPBloom 3 _) = _
    rw [Heap.accountRLPBloom_of_hit _ _ _ hit]
    rfl
  · -- after it the same read meets `0xa1` stale
    show some ((cappedHeap db).heap.accountRLPBloom 3 _) = _
    rw [Heap.accountRLPBloom_of_hit _ _ _ hit]
    rfl

theorem cap_breaks_sibling_read_empty :
    ∃ t t' : Tree (Finset BloomKey),
      forkTree ⟨fun _ => none, fun _ _ => none, layerRoot 0x01⟩ = .ok t ∧ t.capTo (layerRoot 0xa3) 2 = .ok t' ∧
      t'.layers.lookup (layerRoot 0xb3) = some (.diff 3) ∧
      t.accountRLP (layerRoot 0xb3) (layerRoot 0xa1) = some (.ok [0xa1]) ∧
      t'.accountRLP (layerRoot 0xb3) (layerRoot 0xa1) = some (.error .stale) :=
  cap_breaks_sibling_read ⟨fun _ => none, fun _ _ => none, layerRoot 0x01⟩

theorem cap_sibling_bloom_reads_disk (db : Database) (h : Hash)
    (hmiss : MemFilter.contains (bloomB3 (φ := φ)) (.account h) = false ∧
      MemFilter.contains (bloomB3 (φ := φ)) (.destruct h) = false) :
    ∃ t t' : Tree φ, forkTree db = .ok t ∧ t.capTo (layerRoot 0xa3) 2 = .ok t' ∧
      t'.layers.lookup (layerRoot 0xb3) = some (.diff 3) ∧
      t'.heap.accountRLP h t'.heap.diffs.length 3 = .error .stale ∧
      t'.accountRLP (layerRoot 0xb3) h = some (.ok ((db.accounts h).getD [])) := by
  have hb3 : h ≠ layerRoot 0xb3 := ne_layerRoot_of_miss hmiss.1 (.inr (.inr rfl))
  have ha2 : h ≠ layerRoot 0xa2 := ne_layerRoot_of_miss hmiss.1 (.inr (.inl rfl))
  refine ⟨_, _, forkTree_eq db, capTo_forkHeap db, rfl, ?_, ?_⟩
  · -- `0xb3` and the old `0xa2` pass the read down, and `0xa1` under them is stale
    calc (cappedHeap db).heap.accountRLP h 5 3
        = (cappedHeap db).heap.accountRLP h 4 1 :=
          Heap.accountRLP_of_parent _ _ _ _ rfl (lookup_singleton_of_ne hb3) List.not_mem_nil rfl
      _ = (cappedHeap db).heap.accountRLP h 3 0 :=
          Heap.accountRLP_of_parent _ _ _ _ rfl (lookup_singleton_of_ne ha2) List.not_mem_nil rfl
      _ = .error .stale := Heap.accountRLP_of_stale _ _ _ _ rfl
  · -- the filter misses, so the read skips the layers and goes to the disk layer
    show some ((cappedHeap db).heap.accountRLPBloom 3 h) = _
    rw [Heap.accountRLPBloom_of_miss _ _ _ hmiss.1 hmiss.2]
    rfl

theorem cap_sibling_bloom_reads_disk_fresh :
    ∃ t t' : Tree (Finset BloomKey),
      forkTree ⟨fun _ => some [7], fun _ _ => none, layerRoot 0x01⟩ = .ok t ∧
      t.capTo (layerRoot 0xa3) 2 = .ok t' ∧ t'.layers.lookup (layerRoot 0xb3) = some (.diff 3) ∧
      t'.heap.accountRLP (layerRoot 0x77) t'.heap.diffs.length 3 = .error .stale ∧
      t'.accountRLP (layerRoot 0xb3) (layerRoot 0x77) = some (.ok [7]) :=
  cap_sibling_bloom_reads_disk ⟨fun _ => some [7], fun _ _ => none, layerRoot 0x01⟩ (layerRoot 0x77)
    ⟨by decide, by decide⟩

end Go420coin.Snapshot
