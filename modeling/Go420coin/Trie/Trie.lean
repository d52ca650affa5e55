import Go420coin.Trie.Encoding

set_option linter.dupNamespace false

/-!
# Merkle Patricia tries (`trie/node.go`, `trie/trie.go`)

A `Node` is one of Go's five node kinds: no node (`nil`), a branch of sixteen nibble children and a
value slot (`full`), an extension or leaf with a key fragment (`short`), a reference to a node stored
in the database (`hash`), and a value.  Keys are walked in HEX form.

`Node.tryGet`, `Node.insert` and `Node.delete` are the recursive methods `tryGet`, `insert` and
`delete` of a `Trie`.  They recurse on the node; where Go loads a `hashNode` from the database and
continues in the loaded node, the model continues with one unit of `fuel` less, so that a database
whose nodes lead back to themselves makes the model stop (`outOfFuel`) where Go would not return.  A
trie built in memory holds no `hashNode`, and the `Trie` methods give as much fuel as the key has
nibbles, more than any database written by a trie needs.

Go's runtime panics on an index out of range and on a node of the wrong kind are the errors
`indexOutOfRange` and `invalidNode`.
-/

namespace Go420coin.Trie

/-- `nodeFlag`: the cached hash of a node, and whether it holds changes not yet written. -/
structure NodeFlag where
  hash : Option (List UInt8)
  dirty : Bool
  deriving Repr, DecidableEq

/-- `node`: `fullNode`, `shortNode`, `hashNode`, `valueNode`, or no node. -/
inductive Node where
  | nil
  | full (children : Fin 17 → Node) (flags : NodeFlag)
  | short (key : List UInt8) (val : Node) (flags : NodeFlag)
  | hash (h : List UInt8)
  | value (v : List UInt8)

/-- `newFlag`: the flags of a node just created. -/
def newFlag : NodeFlag := ⟨none, true⟩

namespace Node

/-- The node is Go's `nil`. -/
def isNil : Node → Bool
  | .nil => true
  | _ => false

end Node

/-- A trie's database, as far as the trie reads it: the node stored under a hash. -/
structure Database where
  node : List UInt8 → Option Node

/-- The errors of trie operations.  `missingNode` is `MissingNodeError`. -/
inductive TrieError where
  | missingNode (nodeHash path : List UInt8)
  | indexOutOfRange
  | invalidNode
  | outOfFuel
  deriving Repr, DecidableEq

/-- `resolveHash`: load a node from the database. -/
def resolveHash (db : Database) (n path : List UInt8) : Except TrieError Node :=
  match db.node n with
  | some node => .ok node
  | none => .error (.missingNode n path)

/-- `resolve`: load a `hashNode`, keep any other node. -/
def resolve (db : Database) (n : Node) (path : List UInt8) : Except TrieError Node :=
  match n with
  | .hash h => resolveHash db h path
  | n => .ok n

namespace Node

/-! ### `tryGet` -/

/-- The result of `tryGet`: the value found, the node with loaded children, whether any was loaded. -/
abbrev GetResult := Except TrieError (Option (List UInt8) × Node × Bool)

/-- One level of `tryGet`; `resolved` goes on in a node loaded from the database. -/
def tryGetWith (db : Database) (resolved : Node → List UInt8 → Nat → GetResult) :
    Node → List UInt8 → Nat → GetResult
  | .nil, _, _ => .ok (none, .nil, false)
  | .value v, _, _ => .ok (some v, .value v, false)
  | .short k c f, key, pos =>
    if key.length < pos + k.length ∨ k ≠ (key.drop pos).take k.length then .ok (none, .short k c f, false)
    else
      match tryGetWith db resolved c key (pos + k.length) with
      | .error e => .error e
      | .ok (v, newnode, didResolve) =>
        .ok (v, if didResolve then .short k newnode f else .short k c f, didResolve)
  | .full cs f, key, pos =>
    match key[pos]? with
    | none => .error .indexOutOfRange
    | some b =>
      if h : b.toNat < 17 then
        match tryGetWith db resolved (cs ⟨b.toNat, h⟩) key (pos + 1) with
        | .error e => .error e
        | .ok (v, newnode, didResolve) =>
          .ok (v, if didResolve then .full (Function.update cs ⟨b.toNat, h⟩ newnode) f else .full cs f,
            didResolve)
      else .error .indexOutOfRange
  | .hash h, key, pos =>
    match resolveHash db h (key.take pos) with
    | .error e => .error e
    | .ok child =>
      match resolved child key pos with
      | .error e => .error e
      | .ok (v, newnode, _) => .ok (v, newnode, true)

/-- `tryGet`, loading at most `fuel` nodes from the database along the path. -/
def tryGet (db : Database) : Nat → Node → List UInt8 → Nat → GetResult
  | 0, n, key, pos => tryGetWith db (fun _ _ _ => .error .outOfFuel) n key pos
  | fuel + 1, n, key, pos => tryGetWith db (tryGet db fuel) n key pos

/-! The levels of `tryGet` without a load use the same fuel, which these unfold to. -/

theorem tryGet_nil (db : Database) (fuel : Nat) (key : List UInt8) (pos : Nat) :
    tryGet db fuel .nil key pos = .ok (none, .nil, false) := by
  cases fuel <;> rfl

theorem tryGet_value (db : Database) (fuel : Nat) (v key : List UInt8) (pos : Nat) :
    tryGet db fuel (.value v) key pos = .ok (some v, .value v, false) := by
  cases fuel <;> rfl

theorem tryGet_short (db : Database) (fuel : Nat) (k : List UInt8) (c : Node) (f : NodeFlag) (key : List UInt8)
    (pos : Nat) :
    tryGet db fuel (.short k c f) key pos =
      if key.length < pos + k.length ∨ k ≠ (key.drop pos).take k.length then .ok (none, .short k c f, false)
      else
        match tryGet db fuel c key (pos + k.length) with
        | .error e => .error e
        | .ok (v, newnode, didResolve) =>
          .ok (v, if didResolve then .short k newnode f else .short k c f, didResolve) := by
  cases fuel <;> rfl

theorem tryGet_full (db : Database) (fuel : Nat) (cs : Fin 17 → Node) (f : NodeFlag) (key : List UInt8)
    (pos : Nat) :
    tryGet db fuel (.full cs f) key pos =
      match key[pos]? with
      | none => .error .indexOutOfRange
      | some b =>
        if h : b.toNat < 17 then
          match tryGet db fuel (cs ⟨b.toNat, h⟩) key (pos + 1) with
          | .error e => .error e
          | .ok (v, newnode, didResolve) =>
            .ok (v, if didResolve then .full (Function.update cs ⟨b.toNat, h⟩ newnode) f else .full cs f,
              didResolve)
        else .error .indexOutOfRange := by
  cases fuel <;> simp only [tryGet, tryGetWith]

theorem tryGet_hash_succ (db : Database) (fuel : Nat) (x key : List UInt8) (pos : Nat) :
    tryGet db (fuel + 1) (.hash x) key pos =
      match resolveHash db x (key.take pos) with
      | .error e => .error e
      | .ok child =>
        match tryGet db fuel child key pos with
        | .error e => .error e
        | .ok (v, newnode, _) => .ok (v, newnode, true) := rfl

/-! ### `insert` -/

/-- The result of `insert` and `delete`: whether the trie changed, and the new node. -/
abbrev UpdateResult := Except TrieError (Bool × Node)

/-- `insert` into no node (`t.insert(nil, path, key, value)`): the value itself where the key ends,
else a new short node leading to it. -/
def insertNil (key : List UInt8) (val : Node) : Node :=
  if key = [] then val else .short key val newFlag

/-- One level of `insert`; `resolved` goes on in a node loaded from the database. -/
def insertWith (db : Database) (resolved : Node → List UInt8 → List UInt8 → Node → UpdateResult) :
    Node → List UInt8 → List UInt8 → Node → UpdateResult
  | n, _, [], val =>
    match n with
    | .value v =>
      match val with
      | .value w => .ok (v != w, val)
      | _ => .error .invalidNode
    | _ => .ok (true, val)
  | .short k c f, path, key, val =>
    let matchlen := prefixLen key k
    if matchlen = k.length then
      match insertWith db resolved c (path ++ key.take matchlen) (key.drop matchlen) val with
      | .error e => .error e
      | .ok (false, _) => .ok (false, .short k c f)
      | .ok (true, nn) => .ok (true, .short k nn newFlag)
    else
      match k[matchlen]?, key[matchlen]? with
      | some a, some b =>
        if ha : a.toNat < 17 then
          if hb : b.toNat < 17 then
            let children : Fin 17 → Node := fun _ => .nil
            let children := Function.update children ⟨a.toNat, ha⟩ (insertNil (k.drop (matchlen + 1)) c)
            let children := Function.update children ⟨b.toNat, hb⟩ (insertNil (key.drop (matchlen + 1)) val)
            let branch := Node.full children newFlag
            if matchlen = 0 then .ok (true, branch)
            else .ok (true, .short (key.take matchlen) branch newFlag)
          else .error .indexOutOfRange
        else .error .indexOutOfRange
      | _, _ => .error .indexOutOfRange
  | .full cs f, path, b :: rest, val =>
    if h : b.toNat < 17 then
      match insertWith db resolved (cs ⟨b.toNat, h⟩) (path ++ [b]) rest val with
      | .error e => .error e
      | .ok (false, _) => .ok (false, .full cs f)
      | .ok (true, nn) => .ok (true, .full (Function.update cs ⟨b.toNat, h⟩ nn) newFlag)
    else .error .indexOutOfRange
  | .nil, _, key, val => .ok (true, .short key val newFlag)
  | .hash h, path, key, val =>
    match resolveHash db h path with
    | .error e => .error e
    | .ok rn =>
      match resolved rn path key val with
      | .error e => .error e
      | .ok (false, _) => .ok (false, rn)
      | .ok (true, nn) => .ok (true, nn)
  | .value _, _, _ :: _, _ => .error .invalidNode

/-- `insert`, loading at most `fuel` nodes from the database along the path. -/
def insert (db : Database) : Nat → Node → List UInt8 → List UInt8 → Node → UpdateResult
  | 0, n, path, key, val => insertWith db (fun _ _ _ _ => .error .outOfFuel) n path key val
  | fuel + 1, n, path, key, val => insertWith db (insert db fuel) n path key val

/-! ### `delete` -/

/-- The children of a full node that are not `nil`, in order: `delete` collapses a full node left with
one of them. -/
def liveChildren (cs : Fin 17 → Node) : List (Fin 17) :=
  (List.finRange 17).filter (fun i => !(cs i).isNil)

/-- The end of `delete` on a full node, once the child on the key's path has changed: a full node left
with one child that is not `nil` becomes a one-nibble short node over it, merged with that child
when it is a short node (the child is loaded from the database for this check). -/
def reduceFull (db : Database) (path : List UInt8) (cs : Fin 17 → Node) : UpdateResult :=
  match liveChildren cs with
  | [pos] =>
    if pos.val ≠ 16 then
      match resolve db (cs pos) path with
      | .error e => .error e
      | .ok (.short ck cv _) => .ok (true, .short (pos.val.toUInt8 :: ck) cv newFlag)
      | .ok _ => .ok (true, .short [pos.val.toUInt8] (cs pos) newFlag)
    else .ok (true, .short [pos.val.toUInt8] (cs pos) newFlag)
  | _ => .ok (true, .full cs newFlag)

/-- One level of `delete`; `resolved` goes on in a node loaded from the database. -/
def deleteWith (db : Database) (resolved : Node → List UInt8 → List UInt8 → UpdateResult) :
    Node → List UInt8 → List UInt8 → UpdateResult
  | .short k c f, path, key =>
    let matchlen := prefixLen key k
    if matchlen < k.length then .ok (false, .short k c f)
    else if matchlen = key.length then .ok (true, .nil)
    else
      match deleteWith db resolved c (path ++ key.take k.length) (key.drop k.length) with
      | .error e => .error e
      | .ok (false, _) => .ok (false, .short k c f)
      | .ok (true, .short ck cv _) => .ok (true, .short (k ++ ck) cv newFlag)
      | .ok (true, child) => .ok (true, .short k child newFlag)
  | .full _ _, _, [] => .error .indexOutOfRange
  | .full cs f, path, b :: rest =>
    if h : b.toNat < 17 then
      match deleteWith db resolved (cs ⟨b.toNat, h⟩) (path ++ [b]) rest with
      | .error e => .error e
      | .ok (false, _) => .ok (false, .full cs f)
      | .ok (true, nn) => reduceFull db path (Function.update cs ⟨b.toNat, h⟩ nn)
    else .error .indexOutOfRange
  | .value _, _, _ => .ok (true, .nil)
  | .nil, _, _ => .ok (false, .nil)
  | .hash h, path, key =>
    match resolveHash db h path with
    | .error e => .error e
    | .ok rn =>
      match resolved rn path key with
      | .error e => .error e
      | .ok (false, _) => .ok (false, rn)
      | .ok (true, nn) => .ok (true, nn)

/-- `delete`, loading at most `fuel` nodes from the database along the path. -/
def delete (db : Database) : Nat → Node → List UInt8 → List UInt8 → UpdateResult
  | 0, n, path, key => deleteWith db (fun _ _ _ => .error .outOfFuel) n path key
  | fuel + 1, n, path, key => deleteWith db (delete db fuel) n path key

end Node

/-! ### The trie -/

/-- `Trie`: the database, the root node, and the number of updates since the last hashing. -/
structure Trie where
  db : Database
  root : Node
  unhashed : Nat

namespace Trie

/-- A trie with no nodes on top of a database (`New` with the empty root). -/
def empty (db : Database) : Trie := ⟨db, .nil, 0⟩

/-- `TryGet`: the value stored for a key; nodes loaded on the way are kept in the trie. -/
def tryGet (t : Trie) (key : List UInt8) : Except TrieError (Option (List UInt8)) × Trie :=
  let k := keybytesToHex key
  match Node.tryGet t.db (k.length + 1) t.root k 0 with
  | .error e => (.error e, t)
  | .ok (value, newroot, didResolve) => (.ok value, if didResolve then { t with root := newroot } else t)

/-- `Get`: `TryGet` with the error logged and dropped. -/
def get (t : Trie) (key : List UInt8) : Option (List UInt8) × Trie :=
  match t.tryGet key with
  | (.ok value, t) => (value, t)
  | (.error _, t) => (none, t)

/-- `TryUpdate`: store a value for a key, or delete the key when the value is empty. -/
def tryUpdate (t : Trie) (key value : List UInt8) : Except TrieError Unit × Trie :=
  let t := { t with unhashed := t.unhashed + 1 }
  let k := keybytesToHex key
  if value.length ≠ 0 then
    match Node.insert t.db (k.length + 1) t.root [] k (.value value) with
    | .error e => (.error e, t)
    | .ok (_, n) => (.ok (), { t with root := n })
  else
    match Node.delete t.db (k.length + 1) t.root [] k with
    | .error e => (.error e, t)
    | .ok (_, n) => (.ok (), { t with root := n })

/-- `Update`: `TryUpdate` with the error logged and dropped. -/
def update (t : Trie) (key value : List UInt8) : Trie :=
  (t.tryUpdate key value).2

/-- `TryDelete`: remove a key. -/
def tryDelete (t : Trie) (key : List UInt8) : Except TrieError Unit × Trie :=
  let t := { t with unhashed := t.unhashed + 1 }
  let k := keybytesToHex key
  match Node.delete t.db (k.length + 1) t.root [] k with
  | .error e => (.error e, t)
  | .ok (_, n) => (.ok (), { t with root := n })

/-- `Delete`: `TryDelete` with the error logged and dropped. -/
def delete (t : Trie) (key : List UInt8) : Trie :=
  (t.tryDelete key).2

/-- `Reset`: drop all nodes. -/
def reset (t : Trie) : Trie := { t with root := .nil, unhashed := 0 }

end Trie

end Go420coin.Trie
