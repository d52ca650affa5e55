import Go420coin.P2p.Netutil
import Mathlib.Algebra.BigOperators.Group.Finset.Basic

/-!
# The discovery table (`p2p/discover/table.go`)

The table keeps the nodes it knows in buckets by their log distance to the local node.  A bucket
holds at most `bucketSize` live entries and `maxReplacements` replacements, and every address in
either list is counted, by subnet, in the bucket's `DistinctNetSet` and in the table's: `addIP`
counts an address in both (LAN addresses are not counted, a node without an address is refused),
and `removeIP` takes it out of both.

The counts follow the lists only if every path that puts a node in a list or takes it out calls
`addIP` or `removeIP` once.  `addSeenNode` and `addVerifiedNode` move a node from the replacements
to the entries with a second `addIP` and no `removeIP`: the node is then counted twice
(`addSeenNode_counts_twice`).

The node records keep their ID and IP only; `addedAt`, the liveness counters, the seed and
revalidation timers, the database and the random source are left out (the replacement `replace`
picks is an argument).
-/

namespace Go420coin.Discover

open Go420coin.P2p

/-- `enode.ID`. -/
abbrev NodeID := Vector UInt8 32

def bucketSize : Nat := 16
def maxReplacements : Nat := 10
def hashBits : Nat := 32 * 8
def nBuckets : Nat := hashBits / 15
def bucketMinDistance : Nat := hashBits - nBuckets
def bucketIPLimit : Nat := 2
def bucketSubnet : Nat := 24
def tableIPLimit : Nat := 10
def tableSubnet : Nat := 24

/-- `bits.LeadingZeros8`. -/
def leadingZeros8 (x : UInt8) : Nat := if x = 0 then 8 else 7 - x.toNat.log2

/-- The loop of `LogDist`: the leading zero bits of a byte string. -/
def leadingZeroBits : List UInt8 → Nat
  | [] => 0
  | x :: xs => if x = 0 then 8 + leadingZeroBits xs else leadingZeros8 x

/-- `enode.LogDist`. -/
def logDist (a b : NodeID) : Nat := 32 * 8 - leadingZeroBits (List.zipWith (· ^^^ ·) a.toList b.toList)

/-- A node as the table sees it: its ID and its IP. -/
structure Node where
  id : NodeID
  ip : IP
  deriving DecidableEq

/-- `bucket`. -/
structure Bucket where
  entries : List Node
  replacements : List Node
  ips : DistinctNetSet

/-- `Table`: the buckets by index, and the table-wide address counts. -/
structure Table where
  self : NodeID
  initDone : Bool
  buckets : Nat → Bucket
  ips : DistinctNetSet

/-- `pushNode`: `n` in front, keeping at most `max` nodes, and the node that fell off the end. -/
def pushNode (list : List Node) (n : Node) (max : Nat) : List Node × Option Node :=
  if list.length < max then (n :: list, none) else (n :: list.dropLast, list.getLast?)

/-- `deleteNode`: the first node with `n`'s ID taken out. -/
def deleteNode (list : List Node) (n : Node) : List Node := list.eraseP (·.id == n.id)

/-- `contains`. -/
def containsID (ns : List Node) (id : NodeID) : Bool := ns.any (·.id == id)

namespace Table

/-- `bucketAtDistance`, as an index into the buckets. -/
def bucketAtDistance (d : Nat) : Nat := if d ≤ bucketMinDistance then 0 else d - bucketMinDistance - 1

/-- The index of the bucket `bucket(id)` returns. -/
def bucketIndex (tab : Table) (id : NodeID) : Nat := bucketAtDistance (logDist tab.self id)

/-- `bucket`. -/
def bucket (tab : Table) (id : NodeID) : Bucket := tab.buckets (tab.bucketIndex id)

def setBucket (tab : Table) (i : Nat) (b : Bucket) : Table := { tab with buckets := Function.update tab.buckets i b }

/-- `addIP`: the address counted in the table and in bucket `i`, if both have room for it. -/
def addIP (tab : Table) (i : Nat) (ip : IP) : Bool × Table :=
  if ip = [] then (false, tab)
  else if isLAN ip then (true, tab)
  else match tab.ips.add ip with
    | (false, _) => (false, tab)
    | (true, tips) =>
      let b := tab.buckets i
      match b.ips.add ip with
      -- the bucket is full for the subnet: the table's count is taken back
      | (false, _) => (false, { tab with ips := tips.remove ip })
      | (true, bips) => (true, { tab with ips := tips }.setBucket i { b with ips := bips })

/-- `removeIP`. -/
def removeIP (tab : Table) (i : Nat) (ip : IP) : Table :=
  if isLAN ip then tab
  else
    let b := tab.buckets i
    { tab with ips := tab.ips.remove ip }.setBucket i { b with ips := b.ips.remove ip }

/-- `addReplacement`. -/
def addReplacement (tab : Table) (i : Nat) (n : Node) : Table :=
  if (tab.buckets i).replacements.any (·.id == n.id) then tab
  else match tab.addIP i n.ip with
    | (false, tab) => tab
    | (true, tab) =>
      let b := tab.buckets i
      let (list, removed) := pushNode b.replacements n maxReplacements
      let tab := tab.setBucket i { b with replacements := list }
      match removed with
      | some r => tab.removeIP i r.ip
      | none => tab

/-- `deleteInBucket`. -/
def deleteInBucket (tab : Table) (i : Nat) (n : Node) : Table :=
  let b := tab.buckets i
  (tab.setBucket i { b with entries := deleteNode b.entries n }).removeIP i n.ip

/-- `replace`: if `last` is still the last entry, the replacement at `pick` (taken modulo the
number of replacements, as `rand.Intn` draws it) takes its place, or it is deleted if there is no
replacement. -/
def replace (tab : Table) (i : Nat) (last : Node) (pick : Nat) : Option Node × Table :=
  let b := tab.buckets i
  match b.entries.getLast? with
  | none => (none, tab)
  | some e =>
    if e.id ≠ last.id then (none, tab)
    else if b.replacements = [] then (none, tab.deleteInBucket i last)
    else
      let r := b.replacements.getD (pick % b.replacements.length) last
      let tab := tab.setBucket i
        { b with replacements := deleteNode b.replacements r, entries := b.entries.set (b.entries.length - 1) r }
      (some r, tab.removeIP i last.ip)

/-- `bumpInBucket`: an entry with `n`'s ID moves to the front as `n`; a changed address is counted
anew, and if it does not fit the old one is counted back and nothing moves. -/
def bumpInBucket (tab : Table) (i : Nat) (n : Node) : Bool × Table :=
  match (tab.buckets i).entries.findIdx? (·.id == n.id) with
  | none => (false, tab)
  | some j =>
    let old := (tab.buckets i).entries.getD j n
    let moveToFront (tab : Table) : Table :=
      let b := tab.buckets i
      tab.setBucket i { b with entries := n :: b.entries.eraseIdx j }
    if ipEqual n.ip old.ip then (true, moveToFront tab)
    else
      let tab := tab.removeIP i old.ip
      match tab.addIP i n.ip with
      | (true, tab) => (true, moveToFront tab)
      | (false, tab) => (false, (tab.addIP i old.ip).2)

/-- `addSeenNode`: at the end of its bucket, or among the replacements if the bucket is full. -/
def addSeenNode (tab : Table) (n : Node) : Table :=
  if n.id = tab.self then tab
  else
    let i := tab.bucketIndex n.id
    if containsID (tab.buckets i).entries n.id then tab
    else if bucketSize ≤ (tab.buckets i).entries.length then tab.addReplacement i n
    else match tab.addIP i n.ip with
      | (false, tab) => tab
      | (true, tab) =>
        let b := tab.buckets i
        tab.setBucket i { b with entries := b.entries ++ [n], replacements := deleteNode b.replacements n }

/-- `addVerifiedNode`: at the front of its bucket, once the table is initialized. -/
def addVerifiedNode (tab : Table) (n : Node) : Table :=
  if !tab.initDone then tab
  else if n.id = tab.self then tab
  else
    let i := tab.bucketIndex n.id
    match tab.bumpInBucket i n with
    | (true, tab) => tab
    | (false, tab) =>
      if bucketSize ≤ (tab.buckets i).entries.length then tab.addReplacement i n
      else match tab.addIP i n.ip with
        | (false, tab) => tab
        | (true, tab) =>
          let b := tab.buckets i
          tab.setBucket i
            { b with entries := (pushNode b.entries n bucketSize).1, replacements := deleteNode b.replacements n }

/-- `delete`. -/
def delete (tab : Table) (n : Node) : Table := tab.deleteInBucket (tab.bucketIndex n.id) n

end Table

/-! ### What the counts should be -/

/-- A node `addIP` counts: one with an address that is not a LAN address. -/
def counted (n : Node) : Prop := n.ip ≠ [] ∧ isLAN n.ip = false

instance : DecidablePred counted := fun n => inferInstanceAs (Decidable (n.ip ≠ [] ∧ isLAN n.ip = false))

/-- The nodes of a bucket's two lists that its count for the subnet `k` should cover. -/
def Bucket.ipCount (b : Bucket) (k : List UInt8) : Nat :=
  (b.entries ++ b.replacements).countP fun n => counted n ∧ b.ips.key n.ip = k

/-! ### The lists and the counts, one operation at a time -/

/-- Taking out the first node with `n`'s ID, when that node is `n`, takes `n` out of every count. -/
theorem countP_deleteNode (p : Node → Bool) {n : Node} :
    ∀ {list : List Node}, list.find? (·.id == n.id) = some n →
      (deleteNode list n).countP p + (if p n then 1 else 0) = list.countP p
  | [], h => by simp at h
  | a :: l, h => by
    by_cases ha : (a.id == n.id) = true
    · -- the first match is `a`, so `a` is `n`
      rw [List.find?_cons_of_pos (p := fun x : Node => x.id == n.id) ha, Option.some_inj] at h
      subst h
      simp [deleteNode, List.eraseP_cons_of_pos (p := fun x : Node => x.id == n.id) ha, List.countP_cons]
    · rw [List.find?_cons_of_neg (p := fun x : Node => x.id == n.id) ha] at h
      have ih := countP_deleteNode p h
      simp only [deleteNode, List.eraseP_cons_of_neg (p := fun x : Node => x.id == n.id) ha, List.countP_cons] at ih ⊢
      omega

namespace Table

variable (tab : Table) (i : Nat) (b : Bucket)

@[simp] theorem setBucket_buckets_self : (tab.setBucket i b).buckets i = b := by simp [setBucket]

@[simp] theorem setBucket_ips : (tab.setBucket i b).ips = tab.ips := rfl

@[simp] theorem setBucket_self : (tab.setBucket i b).self = tab.self := rfl

@[simp] theorem setBucket_setBucket (b' : Bucket) : (tab.setBucket i b).setBucket i b' = tab.setBucket i b' := by
  simp [setBucket]

/-- The bucket a node falls in, after its bucket was replaced. -/
theorem bucket_setBucket_self (id : NodeID) (ips : DistinctNetSet) :
    ({ tab with ips := ips }.setBucket (tab.bucketIndex id) b).bucket id = b := by
  simp [bucket, bucketIndex, setBucket]

/-- `addIP` of a public address that both sets have room for counts it in both. -/
theorem addIP_of_room {ip : IP} (hne : ip ≠ []) (hlan : isLAN ip = false)
    (htab : tab.ips.members (tab.ips.key ip) < tab.ips.limit)
    (hbkt : (tab.buckets i).ips.members ((tab.buckets i).ips.key ip) < (tab.buckets i).ips.limit) :
    tab.addIP i ip =
      (true, { tab with ips := (tab.ips.add ip).2 }.setBucket i { tab.buckets i with ips := ((tab.buckets i).ips.add ip).2 }) := by
  simp [addIP, hne, hlan, DistinctNetSet.add_of_lt _ _ htab, DistinctNetSet.add_of_lt _ _ hbkt]

end Table

theorem addSeenNode_counts_twice (tab : Table) (n : Node) (hself : n.id ≠ tab.self)
    (hnew : containsID (tab.bucket n.id).entries n.id = false)
    (hroom : (tab.bucket n.id).entries.length < bucketSize)
    (hfirst : (tab.bucket n.id).replacements.find? (·.id == n.id) = some n) (hpub : counted n)
    (htab : tab.ips.members (tab.ips.key n.ip) < tab.ips.limit)
    (hbkt : (tab.bucket n.id).ips.members ((tab.bucket n.id).ips.key n.ip) < (tab.bucket n.id).ips.limit) :
    ((tab.addSeenNode n).bucket n.id).ips.members ((tab.bucket n.id).ips.key n.ip) =
        (tab.bucket n.id).ips.members ((tab.bucket n.id).ips.key n.ip) + 1 ∧
      ((tab.addSeenNode n).bucket n.id).ipCount ((tab.bucket n.id).ips.key n.ip) =
        (tab.bucket n.id).ipCount ((tab.bucket n.id).ips.key n.ip) := by
  have hrun : tab.addSeenNode n = { tab with ips := (tab.ips.add n.ip).2 }.setBucket (tab.bucketIndex n.id)
      ⟨(tab.bucket n.id).entries ++ [n], deleteNode (tab.bucket n.id).replacements n,
        ((tab.bucket n.id).ips.add n.ip).2⟩ := by
    simp only [Table.bucket] at hnew hroom hbkt
    simp [Table.addSeenNode, hself, hnew, Nat.not_le.mpr hroom, Table.addIP_of_room tab _ hpub.1 hpub.2 htab hbkt,
      Table.bucket]
  rw [hrun, Table.bucket_setBucket_self]
  constructor
  · -- `addIP` counted `n` a second time
    simp [DistinctNetSet.add_of_lt _ _ hbkt]
  · -- while `n` only moved from the replacements to the entries
    have hkey : ∀ ip, ((tab.bucket n.id).ips.add n.ip).2.key ip = (tab.bucket n.id).ips.key ip := fun ip =>
      DistinctNetSet.key_subnet_eq _ _ (DistinctNetSet.add_subnet _ _)
    have hdel := countP_deleteNode
      (fun m => decide (counted m ∧ (tab.bucket n.id).ips.key m.ip = (tab.bucket n.id).ips.key n.ip)) hfirst
    simp only [Bucket.ipCount, hkey, List.countP_append, List.countP_singleton] at hdel ⊢
    omega

/-- A node at the far end of the ID space from the zero ID, so in the last bucket, at `1.2.3.4`. -/
def farNode : Node := ⟨Vector.replicate 32 0x80, [1, 2, 3, 4]⟩

/-- The table of the zero ID whose last bucket has no entries and `farNode` as its one
replacement, counted once in its subnet, as it is after sixteen entries filled the bucket, `farNode`
was added as a replacement, and the entries were deleted. -/
def farReplacementTable : Table where
  self := Vector.replicate 32 0
  initDone := true
  buckets i := if i = 16 then ⟨[], [farNode], ⟨bucketSubnet, bucketIPLimit, fun k => if k = [0x34, 1, 2, 3] then 1 else 0⟩⟩
    else ⟨[], [], ⟨bucketSubnet, bucketIPLimit, fun _ => 0⟩⟩
  ips := ⟨tableSubnet, tableIPLimit, fun k => if k = [0x34, 1, 2, 3] then 1 else 0⟩

theorem addSeenNode_counts_twice_far :
    ((farReplacementTable.addSeenNode farNode).bucket farNode.id).ips.members [0x34, 1, 2, 3] = 2 ∧
      ((farReplacementTable.addSeenNode farNode).bucket farNode.id).ipCount [0x34, 1, 2, 3] = 1 :=
  addSeenNode_counts_twice farReplacementTable farNode (by decide) (by decide) (by decide) (by decide) (by decide)
    (by decide) (by decide)

end Go420coin.Discover
