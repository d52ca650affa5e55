import Go420coin.Trie.Map
import Go420coin.Rlp.Encode

set_option linter.dupNamespace false

/-!
# The root hash (`trie/hasher.go`, `Trie.Hash`)

`Hasher.hash` collapses a node for encoding: the key of a short node in compact form, each child
replaced by its hash, or by its collapsed self when that encodes to fewer than 32 bytes (it is then
stored inside its parent), and `nil` children of a full node written as empty values.  The root is
hashed whatever its size (`force`).  Keccak-256 is the parameter `keccak`: nothing here depends on
what it computes.  A node whose flags hold a hash is taken to be that hash; the hashes computed are
cached in the flags of the returned `cached` node, which becomes the trie's root.  Go's choice of
hashing the children in parallel does not change the result and is not modelled.

A canonical trie always has a root hash (`hash_ok`), and the hash depends on nothing but what the
trie holds: two runs of updates and deletes from the empty trie that leave the same map leave the
same root node, hence the same hash (`runOps_canonical_hash`).
-/

namespace Go420coin.Trie

/-- `nilValueNode`: what a `nil` child of a full node is written as. -/
def nilValueNode : Node := .value []

namespace Node

/-- The node has children to hash: a full or a short node. -/
def hasChildren : Node → Bool
  | .full .. | .short .. => true
  | _ => false

/-- The RLP value of a collapsed node, as `rlp.Encode` writes it: a short node is the list of its
key and its child, a full node (`fullNode.EncodeRLP`) the list of its seventeen children with
`nilValueNode` for `nil`, a hash or a value its bytes; a `nil` interface is the empty list. -/
def toValue : Node → Rlp.Value
  | .nil => .list []
  | .value v => .bytes v
  | .hash h => .bytes h
  | .short k c _ => .list [.bytes k, c.toValue]
  | .full cs _ => .list ((List.finRange 17).map fun i => if (cs i).isNil then .bytes [] else (cs i).toValue)

end Node

namespace Hasher

variable (keccak : List UInt8 → List UInt8)

/-- `hashData`: a hash node holding the Keccak-256 of the data. -/
def hashData (data : List UInt8) : Node := .hash (keccak data)

/-- `shortnodeToHash`: the hash of the node's encoding, or the node itself when the encoding is
shorter than 32 bytes and the hash is not forced. -/
def shortnodeToHash (n : Node) (force : Bool) : Node :=
  let tmp := Rlp.encodeToBytes n.toValue
  if tmp.length < 32 ∧ !force then n else hashData keccak tmp

/-- `fullnodeToHash`: as `shortnodeToHash`, since `fullNode.EncodeRLP` writes what `Node.toValue`
gives. -/
def fullnodeToHash (n : Node) (force : Bool) : Node := shortnodeToHash keccak n force

/-- The hash to cache for a hashed node: the hash, if hashing gave a `hashNode`. -/
def hashOf : Node → Option (List UInt8)
  | .hash h => some h
  | _ => none

/-- `hash`: the collapsed node (`hashed`) and the node with the computed hashes cached (`cached`). -/
def hash : Node → Bool → Node × Node
  | .short k c f, force =>
    match f.hash with
    | some h => (.hash h, .short k c f)
    | none =>
      -- `hashShortNodeChildren`: a full or short child is hashed, a value is kept
      let ch := if c.hasChildren then hash c false else (c, c)
      let hashed := shortnodeToHash keccak (.short (hexToCompact k) ch.1 f) force
      (hashed, .short k ch.2 { f with hash := hashOf hashed })
  | .full cs f, force =>
    match f.hash with
    | some h => (.hash h, .full cs f)
    | none =>
      -- `hashFullNodeChildren`: the sixteen nibble children; the value slot is kept
      let ch : Fin 17 → Node × Node := fun i =>
        if i.val < 16 then
          if (cs i).isNil then (nilValueNode, .nil) else hash (cs i) false
        else (cs i, cs i)
      let hashed := fullnodeToHash keccak (.full (fun i => (ch i).1) f) force
      (hashed, .full (fun i => (ch i).2) { f with hash := hashOf hashed })
  | n, _ => (n, n)

/-- A short node with no cached hash, hashed by force, is a hash node. -/
theorem hash_short_force (k : List UInt8) (c : Node) {f : NodeFlag} (hf : f.hash = none) :
    ∃ h, (hash keccak (.short k c f) true).1 = .hash h := by
  simp [hash, hf, shortnodeToHash, hashData]

/-- A full node with no cached hash, hashed by force, is a hash node. -/
theorem hash_full_force (cs : Fin 17 → Node) {f : NodeFlag} (hf : f.hash = none) :
    ∃ h, (hash keccak (.full cs f) true).1 = .hash h := by
  simp [hash, hf, fullnodeToHash, shortnodeToHash, hashData]

end Hasher

/-- `emptyRoot`: the root hash of the empty trie, the Keccak-256 of the encoding of the empty string. -/
def emptyRoot : List UInt8 :=
  [0x56, 0xe8, 0x1f, 0x17, 0x1b, 0xcc, 0x55, 0xa6, 0xff, 0x83, 0x45, 0xe6, 0x92, 0xc0, 0xf8, 0x6e,
   0x5b, 0x48, 0xe0, 0x1b, 0x99, 0x6c, 0xad, 0xc0, 0x01, 0x62, 0x2f, 0xb5, 0xe3, 0x63, 0xb4, 0x21]

namespace Trie

variable (keccak : List UInt8 → List UInt8)

/-- `hashRoot`: the hashed and the cached root; hashing a root resets the count of updates. -/
def hashRoot (t : Trie) : (Node × Node) × Trie :=
  match t.root with
  | .nil => ((.hash emptyRoot, .nil), t)
  | root => (Hasher.hash keccak root true, { t with unhashed := 0 })

/-- `Hash`: the root hash; the trie keeps the hashes computed.  A root that hashes to no `hashNode`
(a value node) makes Go's type assertion panic: `invalidNode`. -/
def hash (t : Trie) : Except TrieError (List UInt8) × Trie :=
  let r := t.hashRoot keccak
  let t' := { r.2 with root := r.1.2 }
  match r.1.1 with
  | .hash h => (.ok h, t')
  | _ => (.error .invalidNode, t')

variable {keccak}

/-- The root hash depends on the root node only. -/
theorem hash_fst_congr {t₁ t₂ : Trie} (h : t₁.root = t₂.root) : (t₁.hash keccak).1 = (t₂.hash keccak).1 := by
  simp only [hash, hashRoot, h]
  split <;> split <;> simp_all

/-- A canonical trie has a root hash. -/
theorem hash_ok {t : Trie} (h : Canonical t.root) : ∃ r, (t.hash keccak).1 = .ok r := by
  obtain ⟨db, root, u⟩ := t
  -- a canonical root other than `nil` is a short or full node flagged as new
  cases h with
  | nil => exact ⟨emptyRoot, rfl⟩
  | @leaf k v _ =>
    obtain ⟨r, hr⟩ := Hasher.hash_short_force keccak k (.value v) (f := newFlag) rfl
    exact ⟨r, by simp [hash, hashRoot, hr]⟩
  | @ext k cs _ _ _ =>
    obtain ⟨r, hr⟩ := Hasher.hash_short_force keccak k (.full cs newFlag) (f := newFlag) rfl
    exact ⟨r, by simp [hash, hashRoot, hr]⟩
  | @full cs _ _ _ =>
    obtain ⟨r, hr⟩ := Hasher.hash_full_force keccak cs (f := newFlag) rfl
    exact ⟨r, by simp [hash, hashRoot, hr]⟩

/-- What a run of operations from the empty trie leaves at a key that is no hex form of a byte
string: nothing. -/
private theorem lookup_runOps_of_not_hex (db : Database) (ops : List Op) {q : List UInt8}
    (hq : ∀ key, keybytesToHex key ≠ q) : ((empty db).runOps ops).root.lookup q = none := by
  rw [(runOps_spec ops Canonical.nil).2, Store.applyWrites_apply]
  have hnil : (ops.filter fun op => keybytesToHex op.key = q) = [] :=
    List.filter_eq_nil_iff.2 fun op _ => by simpa using hq op.key
  rw [hnil]
  rfl

/-- History independence: every trie built from the empty trie by updates and deletes is canonical,
and two such tries that hold the same map have the same root hash. -/
theorem runOps_canonical_hash (db : Database) (keccak : List UInt8 → List UInt8) :
    (∀ ops, Canonical ((empty db).runOps ops).root) ∧
      ∀ ops₁ ops₂, (∀ key, (((empty db).runOps ops₁).get key).1 = (((empty db).runOps ops₂).get key).1) →
        (((empty db).runOps ops₁).hash keccak).1 = (((empty db).runOps ops₂).hash keccak).1 := by
  refine ⟨fun ops => (runOps_spec ops Canonical.nil).1, fun ops₁ ops₂ hget => hash_fst_congr ?_⟩
  have hc₁ := (runOps_spec (t := empty db) ops₁ Canonical.nil).1
  have hc₂ := (runOps_spec (t := empty db) ops₂ Canonical.nil).1
  -- the two roots hold the same map: at hex forms of keys by `Get`, elsewhere nothing
  refine Canonical.eq_of_lookup_eq hc₁ hc₂ (funext fun q => ?_)
  by_cases hq : ∃ key, keybytesToHex key = q
  · obtain ⟨key, rfl⟩ := hq
    simpa [get_eq hc₁, get_eq hc₂, contents] using hget key
  · have hq' : ∀ key, keybytesToHex key ≠ q := fun key h => hq ⟨key, h⟩
    rw [lookup_runOps_of_not_hex db ops₁ hq', lookup_runOps_of_not_hex db ops₂ hq']

end Trie

end Go420coin.Trie
