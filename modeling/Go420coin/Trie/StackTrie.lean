import Go420coin.Trie.Hasher

set_option linter.dupNamespace false

/-!
# The stack trie (`trie/stacktrie.go`)

A `StackTrie` builds the trie of keys that arrive in increasing order.  Each node has a kind
(`nodeType`), the chunk `key` of the key it covers, which starts at `keyOffset` in the full key, the
value `val` of a leaf, and sixteen children, of which an extension node uses the first.  `insert`
walks down the right-hand side of the trie: a branch hashes the nearest child left of the new key's
(`Unresolve elder siblings`), and a leaf or an extension whose chunk the new key leaves is split,
the old part hashed at once.  `hash` turns a node into a `hashedNode` whose `val` is its encoding
when that is shorter than 32 bytes, else its hash; in that case the encoding is `Put` into the
database under the hash.

Go's nodes point to the database; here the methods return the pairs they `Put`, in order, which
reach the database when there is one.  A `nil` child is the constructor `nil`.  A panic is an
error value: Go's slice and array indexing, the method call on a `nil` child and the explicit
`panic`s of `insert` and `TryUpdate`.  Nodes taken from the pool are reset, so they are fresh nodes.
Keccak-256 is the parameter `keccak`.
-/

namespace Go420coin.Trie

/-- The kinds of stack trie node. -/
inductive NodeType
  | emptyNode
  | branchNode
  | extNode
  | leafNode
  | hashedNode
  deriving DecidableEq, Repr

/-- A stack trie node, or a `nil` child. -/
inductive StackTrie where
  | nil
  | node (nodeType : NodeType) (val key : List UInt8) (keyOffset : Nat) (children : Fin 16 → StackTrie)

/-- What stops a stack trie: a panic, or the error `Commit` returns. -/
inductive StackTrieError
  /-- an index or a slice bound out of range -/
  | indexOutOfRange
  /-- a method called on a `nil` child -/
  | nilDereference
  /-- `panic("Trying to insert into existing key")` -/
  | existingKey
  /-- `panic("trying to insert into hash")` -/
  | insertIntoHash
  /-- `panic("deletion not supported")` -/
  | deletionNotSupported
  /-- `ErrCommitDisabled` -/
  | commitDisabled
  deriving DecidableEq, Repr

namespace StackTrie

/-- Sixteen `nil` children. -/
def noChildren : Fin 16 → StackTrie := fun _ => .nil

/-- `NewStackTrie`: an empty node. -/
def empty : StackTrie := .node .emptyNode [] [] 0 noChildren

def isNil : StackTrie → Bool
  | .nil => true
  | .node .. => false

def isHashed : StackTrie → Bool
  | .node .hashedNode .. => true
  | _ => false

def val : StackTrie → List UInt8
  | .nil => []
  | .node _ v .. => v

/-- `newLeaf`: a leaf over the key from `ko` on.  (Every caller has just read the key at an offset
at or past `ko - 1`, so the slice `key[ko:]` is in range.) -/
def newLeaf (ko : Nat) (key val : List UInt8) : StackTrie :=
  .node .leafNode val (key.drop ko) ko noChildren

/-- `newExt`: an extension over the key from `ko` on, with the given child. -/
def newExt (ko : Nat) (key : List UInt8) (child : StackTrie) : StackTrie :=
  .node .extNode [] (key.drop ko) ko (Function.update noChildren 0 child)

/-- `getDiffIndex`, on the node's key chunk and the full key from `keyOffset` on: how far they agree
within the chunk.  Reading the key past its end panics. -/
def getDiffIndex : List UInt8 → List UInt8 → Except StackTrieError Nat
  | [], _ => .ok 0
  | _ :: _, [] => .error .indexOutOfRange
  | a :: k, b :: key => if a = b then (getDiffIndex k key).map (· + 1) else .ok 0

/-- `key[i]`. -/
def byteAt (key : List UInt8) (i : Nat) : Except StackTrieError UInt8 :=
  match key[i]? with
  | some b => .ok b
  | none => .error .indexOutOfRange

/-- A byte used as an index into the sixteen children. -/
def childIndex (b : UInt8) : Except StackTrieError (Fin 16) :=
  if h : b.toNat < 16 then .ok ⟨b.toNat, h⟩ else .error .indexOutOfRange

/-! ### Hashing -/

section Hash

variable (keccak : List UInt8 → List UInt8)

/-- What a branch or an extension holds for a hashed child: the child's encoding when shorter than
32 bytes (`rawNode`), else its hash (`hashNode`). -/
def childItem (val : List UInt8) : Rlp.Item :=
  if val.length < 32 then .raw val else .value (.bytes val)

/-- The end of `hash` for a node that encodes to `tmp`: a `hashedNode` holding `tmp` when it is
shorter than 32 bytes, else its hash, `Put` into the database with `tmp`. -/
def toHashed (keyOffset : Nat) (children : Fin 16 → StackTrie) (tmp : List UInt8) :
    StackTrie × List (List UInt8 × List UInt8) :=
  if tmp.length < 32 then (.node .hashedNode tmp [] keyOffset children, [])
  else (.node .hashedNode (keccak tmp) [] keyOffset children, [(keccak tmp, tmp)])

/-- `hash`: the hashed node and the pairs written. -/
def hash : StackTrie → Except StackTrieError (StackTrie × List (List UInt8 × List UInt8))
  | .nil => .error .nilDereference
  | .node .hashedNode v k o cs => .ok (.node .hashedNode v k o cs, [])
  | .node .emptyNode _ _ o cs => .ok (.node .hashedNode emptyRoot [] o cs, [])
  | .node .leafNode v k o cs =>
    .ok (toHashed keccak o cs (Rlp.encodeToBytes (.list [.bytes (hexToCompactInPlace (k ++ [16])), .bytes v])))
  | .node .extNode _ k o cs => do
    let (c, w) ← hash (cs 0)
    let (st, w') := toHashed keccak o (Function.update cs 0 .nil)
      (Rlp.encodeItems [.value (.bytes (hexToCompact k)), childItem c.val])
    pure (st, w ++ w')
  | .node .branchNode _ _ o cs => do
    -- the children in order: `nilValueNode` for `nil`, else the hashed child
    let hs ← (List.finRange 16).mapM fun i =>
      if (cs i).isNil then pure (Rlp.Item.value (.bytes []), [])
      else do
        let (c, w) ← hash (cs i)
        pure (childItem c.val, w)
    let (st, w') := toHashed keccak o noChildren (Rlp.encodeItems (hs.map Prod.fst ++ [.value (.bytes [])]))
    pure (st, (hs.map Prod.snd).flatten ++ w')

/-- The nearest child left of `idx` that is not `nil`, scanning down from `idx - 1`. -/
def elderSibling (cs : Fin 16 → StackTrie) : Nat → Option (Fin 16)
  | 0 => none
  | i + 1 =>
    if h : i < 16 then
      if (cs ⟨i, h⟩).isNil then elderSibling cs i else some ⟨i, h⟩
    else elderSibling cs i

/-- `Unresolve elder siblings`: hash the nearest child left of `idx`, unless it is hashed already. -/
def hashElder (cs : Fin 16 → StackTrie) (idx : Nat) :
    Except StackTrieError ((Fin 16 → StackTrie) × List (List UInt8 × List UInt8)) :=
  match elderSibling cs idx with
  | none => .ok (cs, [])
  | some i =>
    if (cs i).isHashed then .ok (cs, [])
    else do
      let (c, w) ← hash keccak (cs i)
      pure (Function.update cs i c, w)

end Hash

/-! ### Inserting -/

/-- The `emptyNode` case of `insert`: the node becomes a leaf over the rest of the key. -/
def insertEmpty (keyOffset : Nat) (children : Fin 16 → StackTrie) (key value : List UInt8) : StackTrie :=
  .node .leafNode value (key.drop keyOffset) keyOffset children

/-- Where the `extNode` and `leafNode` cases split their node, `d` nibbles into its chunk: the part
of the old node past the split, `orig`, becomes child `origIdx` and the new leaf child `newIdx` of
the node itself turned into a branch when `d = 0`, else of a new branch at offset `keyOffset + d`
below the node, which keeps the first `d` nibbles of its chunk as an extension.  `val` is what the
node keeps in `val`. -/
def split (d : Nat) (val key : List UInt8) (keyOffset : Nat) (children : Fin 16 → StackTrie)
    (origIdx newIdx : Fin 16) (orig leaf : StackTrie) : StackTrie :=
  if d = 0 then
    .node .branchNode val [] keyOffset
      (Function.update (Function.update (Function.update children 0 .nil) origIdx orig) newIdx leaf)
  else
    .node .extNode val (key.take d) keyOffset (Function.update children 0
      (.node .branchNode [] [] (keyOffset + d)
        (Function.update (Function.update noChildren origIdx orig) newIdx leaf)))

variable (keccak : List UInt8 → List UInt8)

/-- `insert` of the hex key `key` (without the terminator): the new node and the pairs written. -/
def insert : StackTrie → List UInt8 → List UInt8 → Except StackTrieError (StackTrie × List (List UInt8 × List UInt8))
  | .nil, _, _ => .error .nilDereference
  | .node .branchNode v k o cs, key, value => do
    let idx ← childIndex (← byteAt key o)
    let (cs', w) ← hashElder keccak cs idx.val
    -- the elder sibling is left of `idx`: the child at `idx` is the one before hashing
    if (cs idx).isNil then
      pure (.node .branchNode v k o (Function.update cs' idx (insertEmpty (o + 1) noChildren key value)), w)
    else do
      let (c, w') ← insert (cs idx) key value
      pure (.node .branchNode v k o (Function.update cs' idx c), w ++ w')
  | .node .extNode v k o cs, key, value => do
    let d ← getDiffIndex k (key.drop o)
    if d = k.length then do
      let (c, w) ← insert (cs 0) key value
      pure (.node .extNode v k o (Function.update cs 0 c), w)
    else do
      let (n, w) ← hash keccak (if d < k.length - 1 then newExt (d + 1) k (cs 0) else cs 0)
      let origIdx ← childIndex (← byteAt k d)
      let newIdx ← childIndex (← byteAt key (d + o))
      pure (split d v k o cs origIdx newIdx n (newLeaf (o + d + 1) key value), w)
  | .node .leafNode v k o cs, key, value => do
    let d ← getDiffIndex k (key.drop o)
    if k.length ≤ d then throw .existingKey
    let origIdx ← childIndex (← byteAt k d)
    let (n, w) ← hash keccak (newLeaf (d + 1) k v)
    let newIdx ← childIndex (← byteAt key (d + o))
    pure (split d [] k o cs origIdx newIdx n (newLeaf (o + d + 1) key value), w)
  | .node .emptyNode _ _ o cs, key, value => .ok (insertEmpty o cs key value, [])
  | .node .hashedNode .., _, _ => .error .insertIntoHash

/-- `TryUpdate`: insert the hex key of `key` without its terminator.  An empty value panics.
(`Update` only logs the errors `TryUpdate` returns, and it returns none.) -/
def tryUpdate (st : StackTrie) (key value : List UInt8) :
    Except StackTrieError (StackTrie × List (List UInt8 × List UInt8)) :=
  if value = [] then .error .deletionNotSupported
  else st.insert keccak (keybytesToHex key).dropLast value

/-- `Update` with each pair in turn. -/
def updateAll (st : StackTrie) : List (List UInt8 × List UInt8) →
    Except StackTrieError (StackTrie × List (List UInt8 × List UInt8))
  | [] => .ok (st, [])
  | (k, v) :: kvs => do
    let (st, w) ← st.tryUpdate keccak k v
    let (st, w') ← updateAll st kvs
    pure (st, w ++ w')

/-- `Hash`: the root hash.  A root whose encoding is shorter than 32 bytes is hashed here; a `val`
of 32 bytes is a hash already. -/
def rootHash (st : StackTrie) : Except StackTrieError (List UInt8 × StackTrie × List (List UInt8 × List UInt8)) := do
  let (st, w) ← st.hash keccak
  pure (if st.val.length ≠ 32 then keccak st.val else st.val, st, w)

/-- `Commit`: as `Hash`, and a root whose encoding is shorter than 32 bytes is also `Put` under its
hash.  Without a database (`hasDb = false`) it returns `ErrCommitDisabled`. -/
def commit (hasDb : Bool) (st : StackTrie) :
    Except StackTrieError (List UInt8 × StackTrie × List (List UInt8 × List UInt8)) :=
  if !hasDb then .error .commitDisabled
  else do
    let (st, w) ← st.hash keccak
    if st.val.length ≠ 32 then
      pure (keccak st.val, st, w ++ [(keccak st.val, st.val)])
    else pure (st.val, st, w)

end StackTrie

end Go420coin.Trie
