import Go420coin.Trie.Hasher

set_option linter.dupNamespace false

/-!
# Committing a trie (`trie/committer.go`, `Trie.Commit`)

`Commit` hashes the trie, then walks its dirty nodes from the root: the children of a node are
committed before the node, and a node whose flags hold a hash (it encodes to 32 bytes or more, or
it is the root) is inserted into the node database under that hash while its parent keeps the hash.
The node database is here the list of the pairs `db.insert` receives, in order.  It keeps a node as
`simplifyNode` leaves it and writes it out with `rlp.EncodeToBytes`, which encodes it as the node
itself encodes (`storedPair`).
-/

namespace Go420coin.Trie

namespace Node

/-- `cache`: the cached hash and the dirty flag; a hash or a value node has no cached hash and
counts as dirty. -/
def cache : Node → Option (List UInt8) × Bool
  | .short _ _ f | .full _ f => (f.hash, f.dirty)
  | _ => (none, true)

def isHash : Node → Bool
  | .hash _ => true
  | _ => false

end Node

/-- The hash of a clean node: the cached hash, if the node has no changes to write. -/
def NodeFlag.cleanHash (f : NodeFlag) : Option (List UInt8) := if f.dirty then none else f.hash

@[simp] theorem NodeFlag.cleanHash_of_dirty {f : NodeFlag} (h : f.dirty = true) : f.cleanHash = none := by
  simp [NodeFlag.cleanHash, h]

namespace Committer

/-- `store`: a node with a cached hash is inserted into the database under it, and its parent holds
the hash; any other node stays inside its parent. -/
def store (n : Node) : Node × List (List UInt8 × Node) :=
  match n.cache.1 with
  | some h => (.hash h, [(h, n)])
  | none => (n, [])

/-- `commitChildren` on one nibble child: `nil` and a hash are kept, any other child is what
committing it gives (`committed`). -/
def commitChild (c : Node) (committed : Except TrieError (Node × List (List UInt8 × Node))) :
    Except TrieError (Node × List (List UInt8 × Node)) :=
  if c.isNil || c.isHash then pure (c, []) else committed

/-- `commit`: what the parent holds for the node, and the pairs inserted, children first.  A clean
node with a cached hash is its hash; `nil` and values are never committed (Go panics). -/
def commit : Node → Except TrieError (Node × List (List UInt8 × Node))
  | .short k c f =>
    match f.cleanHash with
    | some h => .ok (.hash h, [])
    | none => do
      -- a full child is committed; a hash or a value is kept
      let (c', w) ← match c with
        | .full .. => commit c
        | _ => .ok (c, [])
      let (r, w') := store (.short (hexToCompact k) c' f)
      pure (r, w ++ w')
  | .full cs f =>
    match f.cleanHash with
    | some h => .ok (.hash h, [])
    | none => do
      -- `commitChildren`: the sixteen nibble children in order, `nil` and hashes kept; the value
      -- slot is kept
      let kids ← (List.finRange 16).mapM fun i => commitChild (cs i.castSucc) (commit (cs i.castSucc))
      let children : Fin 17 → Node := fun i =>
        if i.val < 16 then (kids.getD i.val (.nil, [])).1 else cs i
      let (r, w') := store (.full children f)
      pure (r, (kids.map Prod.snd).flatten ++ w')
  | .hash h => .ok (.hash h, [])
  | _ => .error .invalidNode

end Committer

/-- The pair the node database writes for an inserted node: its hash and its RLP encoding. -/
def storedPair (p : List UInt8 × Node) : List UInt8 × List UInt8 :=
  (p.1, Rlp.encodeToBytes p.2.toValue)

namespace Trie

variable (keccak : List UInt8 → List UInt8)

/-- `Commit`: the root hash, the trie, whose root becomes the root's hash node, and the pairs
inserted into the node database.  An empty trie commits nothing; a clean root is not committed
again. -/
def commit (t : Trie) : Except TrieError (List UInt8) × Trie × List (List UInt8 × Node) :=
  match t.root with
  | .nil => (.ok emptyRoot, t, [])
  | _ =>
    match t.hash keccak with
    | (.error e, t) => (.error e, t, [])
    | (.ok rootHash, t) =>
      if !t.root.cache.2 then (.ok rootHash, t, [])
      else
        match Committer.commit t.root with
        | .error e => (.error e, t, [])
        | .ok (.hash h, w) => (.ok rootHash, { t with root := .hash h }, w)
        -- `h.(hashNode)` panics
        | .ok (_, w) => (.error .invalidNode, t, w)

end Trie

end Go420coin.Trie
