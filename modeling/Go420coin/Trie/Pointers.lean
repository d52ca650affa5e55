import Go420coin.Lib.Arena
import Go420coin.Trie.Hasher

set_option linter.dupNamespace false

/-!
# Trie nodes behind pointers (`trie/trie.go`, `trie/hasher.go`, `trie/node.go`)

The value model of `Trie.lean` treats nodes as immutable values, so that sharing them cannot be
observed.  Here the nodes are Go's: every `fullNode` and `shortNode` is an object in a heap (an `Arena`
of `Cell`s) reached through pointers, and the methods write into objects as the Go code does.
`n.copy()` allocates a new object with the fields of `n` (`copy`); `n.flags = …`, `n.Val = …`,
`n.Children[i] = …` and `cached.flags.hash = …` change an object in place (`Arena.modify`).  A `Ref`
is a value of Go's `node` interface: `nil`, a pointer, a `hashNode` or a `valueNode`.  No method
writes into the bytes of a hash node, a value node or a key (`delete` merges keys with `concat`, into
a new slice), so those are kept as values.

Each method walks the nodes one at a time, `fuel` bounding the walk: a heap whose pointers lead back
to themselves makes the model stop (`outOfFuel`) where Go would not return, and the results below hold
for every `fuel`.  A node loaded from the database is decoded into new objects (`store`), as
`mustDecodeNode` and `expandNode` build them.  The hasher's collapsed copies are fresh objects that
no trie ever points to; they are kept as values of the value model, which `shortnodeToHash` encodes.
A panic of Go is an error, as in the value model.

* `Rep h r n`: in the heap `h` the reference `r` stands for the node `n` of the value model.
* Every method writes only to objects it allocated itself, so the heap grows (`tryGet_grows`,
  `insert_grows`, `delete_grows`, `hash_grows`): the objects that existed before are there unchanged,
  and a reference stands for what it stood for (`Rep.mono`).  The partial results an `insert` or a
  `delete` builds before an error (the branch of a split short node, written before the second
  insertion fails) sit in new objects too.
* What `TryGet` and `Hash` return depends on the node the root stands for and on nothing else in the
  heap (`tryGet_congr`, `hash_congr`).
* `tryGet` returns what the value model's `tryGet` returns on the node a reference stands for, and the
  node it hands back stands for the value model's (`tryGet_sim`), unless it runs out of fuel; on a node
  built in memory it does not, given two units more than the key has nibbles (`tryGet_ne_outOfFuel`).
  So `TryGet` returns the value the trie holds at the key (`Trie.tryGet_lookup`).

Hence: operations on a copy of a trie, which shares its root, leave the original's `Get` results and
`Hash` as they were (`copy_ops_keep_trie`), and a `TryUpdate`, `TryDelete` or `TryGet` that fails leaves
its own trie's root, and every node below it, as they were (`failed_ops_keep_trie`).
-/

namespace Go420coin.Trie.Pointers

/-- A value of Go's `node` interface: `nil`, a pointer to a `fullNode` or a `shortNode`, a `hashNode`
or a `valueNode`. -/
inductive Ref where
  | nil
  | ptr (p : Nat)
  | hash (h : List UInt8)
  | value (v : List UInt8)
  deriving DecidableEq, Repr

/-- The objects behind the pointers: `fullNode` and `shortNode`. -/
inductive Cell where
  | full (children : Fin 17 → Ref) (flags : NodeFlag)
  | short (key : List UInt8) (val : Ref) (flags : NodeFlag)

/-- The heap of trie nodes. -/
abbrev Heap := Arena Cell

namespace Cell

/-- `n.Val = r`. -/
def setVal (r : Ref) : Cell → Cell
  | .short k _ f => .short k r f
  | c => c

/-- `n.Children[i] = r`. -/
def setChild (i : Fin 17) (r : Ref) : Cell → Cell
  | .full cs f => .full (Function.update cs i r) f
  | c => c

/-- `n.flags = f`. -/
def setFlags (f : NodeFlag) : Cell → Cell
  | .full cs _ => .full cs f
  | .short k v _ => .short k v f

/-- `n.flags.hash = x`. -/
def setHash (x : Option (List UInt8)) : Cell → Cell
  | .full cs f => .full cs { f with hash := x }
  | .short k v f => .short k v { f with hash := x }

end Cell

/-- `n.copy()`: a new object with the fields of the one at `p`.  (A pointer to no object is never
followed from a trie's root; the address returned is then a free one.) -/
def copy (h : Heap) (p : Nat) : Nat × Heap :=
  match h.get p with
  | some c => h.alloc c
  | none => (h.next, h)

/-! ### What a reference stands for -/

/-- `Rep h r n`: in the heap `h` the reference `r` stands for the node `n` of the value model: its
pointers lead, down to the leaves, to objects with the keys, flags and children of `n`. -/
inductive Rep (h : Heap) : Ref → Node → Prop
  | nil : Rep h .nil .nil
  | hash (x : List UInt8) : Rep h (.hash x) (.hash x)
  | value (v : List UInt8) : Rep h (.value v) (.value v)
  | short {p : Nat} {k : List UInt8} {v : Ref} {f : NodeFlag} {c : Node} :
      h.get p = some (.short k v f) → Rep h v c → Rep h (.ptr p) (.short k c f)
  | full {p : Nat} {cs : Fin 17 → Ref} {f : NodeFlag} {ns : Fin 17 → Node} :
      h.get p = some (.full cs f) → (∀ i, Rep h (cs i) (ns i)) → Rep h (.ptr p) (.full ns f)

/-- The node a reference stands for, read through at most `fuel` pointers (`nil` past that, and at a
pointer to no object). -/
def read (h : Heap) : Nat → Ref → Node
  | _, .nil => .nil
  | _, .hash x => .hash x
  | _, .value v => .value v
  | 0, .ptr _ => .nil
  | fuel + 1, .ptr p =>
    match h.get p with
    | some (.short k v f) => .short k (read h fuel v) f
    | some (.full cs f) => .full (fun i => read h fuel (cs i)) f
    | none => .nil

/-- `mustDecodeNode`: the node stored under a hash becomes new objects, one for every full and short
node of it, children first (the order of the allocations is immaterial). -/
def store : Heap → Node → Ref × Heap
  | h, .nil => (.nil, h)
  | h, .hash x => (.hash x, h)
  | h, .value v => (.value v, h)
  | h, .short k c f =>
    let child := store h c
    let obj := child.2.alloc (.short k child.1 f)
    (.ptr obj.1, obj.2)
  | h, .full cs f =>
    let children := (List.finRange 17).foldl
      (fun (acc : (Fin 17 → Ref) × Heap) i =>
        let child := store acc.2 (cs i)
        (Function.update acc.1 i child.1, child.2))
      (fun _ => .nil, h)
    let obj := children.2.alloc (.full children.1 f)
    (.ptr obj.1, obj.2)

/-- `resolveHash`: the node stored under a hash, decoded into new objects. -/
def resolveHash (db : Database) (h : Heap) (n path : List UInt8) : Except TrieError (Ref × Heap) :=
  match db.node n with
  | some node => .ok (store h node)
  | none => .error (.missingNode n path)

/-- `resolve`: load a `hashNode`, keep any other node. -/
def resolve (db : Database) (h : Heap) (n : Ref) (path : List UInt8) : Except TrieError (Ref × Heap) :=
  match n with
  | .hash x => resolveHash db h x path
  | n => .ok (n, h)

/-! ### `tryGet` -/

/-- What `tryGet` returns: `value, newnode, didResolve, err`. -/
structure GetResult where
  value : Option (List UInt8)
  newnode : Ref
  didResolve : Bool
  err : Option TrieError

/-- What `TryGet` passes on to its caller: the value, whether nodes were loaded, the error. -/
def GetResult.out (r : GetResult) : Option (List UInt8) × Bool × Option TrieError :=
  (r.value, r.didResolve, r.err)

/-- `tryGet`, walking at most `fuel` nodes.  A node above a loaded one is copied, and the copy takes
the node returned for its child. -/
def tryGet (db : Database) : Nat → Heap → Ref → List UInt8 → Nat → GetResult × Heap
  | 0, h, n, _, _ => (⟨none, n, false, some .outOfFuel⟩, h)
  | _ + 1, h, .nil, _, _ => (⟨none, .nil, false, none⟩, h)
  | _ + 1, h, .value v, _, _ => (⟨some v, .value v, false, none⟩, h)
  | fuel + 1, h, .ptr p, key, pos =>
    match h.get p with
    | some (.short k c _) =>
      if key.length < pos + k.length ∨ k ≠ (key.drop pos).take k.length then (⟨none, .ptr p, false, none⟩, h)
      else
        let res := tryGet db fuel h c key (pos + k.length)
        if res.1.err = none ∧ res.1.didResolve = true then
          -- `n = n.copy(); n.Val = newnode`
          let cp := copy res.2 p
          (⟨res.1.value, .ptr cp.1, true, none⟩, cp.2.modify cp.1 (Cell.setVal res.1.newnode))
        else (⟨res.1.value, .ptr p, res.1.didResolve, res.1.err⟩, res.2)
    | some (.full cs _) =>
      match key[pos]? with
      | none => (⟨none, .ptr p, false, some .indexOutOfRange⟩, h)
      | some b =>
        if hb : b.toNat < 17 then
          let res := tryGet db fuel h (cs ⟨b.toNat, hb⟩) key (pos + 1)
          if res.1.err = none ∧ res.1.didResolve = true then
            -- `n = n.copy(); n.Children[key[pos]] = newnode`
            let cp := copy res.2 p
            (⟨res.1.value, .ptr cp.1, true, none⟩, cp.2.modify cp.1 (Cell.setChild ⟨b.toNat, hb⟩ res.1.newnode))
          else (⟨res.1.value, .ptr p, res.1.didResolve, res.1.err⟩, res.2)
        else (⟨none, .ptr p, false, some .indexOutOfRange⟩, h)
    | none => (⟨none, .ptr p, false, some .invalidNode⟩, h)
  | fuel + 1, h, .hash x, key, pos =>
    match resolveHash db h x (key.take pos) with
    | .error e => (⟨none, .hash x, true, some e⟩, h)
    | .ok child =>
      let res := tryGet db fuel child.2 child.1 key pos
      (⟨res.1.value, res.1.newnode, true, res.1.err⟩, res.2)

/-! ### `insert` and `delete` -/

/-- What `insert` and `delete` return: `dirty, node, err`. -/
structure UpdateResult where
  dirty : Bool
  node : Ref
  err : Option TrieError

/-- The recursive call of `insert`: into a node, at a prefix and a key, a value. -/
abbrev Inserter := Heap → Ref → List UInt8 → List UInt8 → Ref → UpdateResult × Heap

/-- `insert` into the short node at `p`, with key `k` and child `c`; `ins` inserts into a child.  Where
the keys differ a new full node takes both children; each is written into it as soon as it is built,
before the error check. -/
def insertShort (ins : Inserter) (h : Heap) (p : Nat) (k : List UInt8) (c : Ref) (prefix_ key : List UInt8)
    (value : Ref) : UpdateResult × Heap :=
  let matchlen := prefixLen key k
  if matchlen = k.length then
    let res := ins h c (prefix_ ++ key.take matchlen) (key.drop matchlen) value
    if !res.1.dirty ∨ res.1.err.isSome then (⟨false, .ptr p, res.1.err⟩, res.2)
    else
      let obj := res.2.alloc (.short k res.1.node newFlag)
      (⟨true, .ptr obj.1, none⟩, obj.2)
  else
    -- `branch := &fullNode{flags: t.newFlag()}`
    let branch := h.alloc (.full (fun _ => .nil) newFlag)
    match k[matchlen]? with
    | none => (⟨false, .nil, some .indexOutOfRange⟩, branch.2)
    | some a =>
      let res₁ := ins branch.2 .nil (prefix_ ++ k.take (matchlen + 1)) (k.drop (matchlen + 1)) c
      if ha : a.toNat < 17 then
        let h₁ := res₁.2.modify branch.1 (Cell.setChild ⟨a.toNat, ha⟩ res₁.1.node)
        if res₁.1.err.isSome then (⟨false, .nil, res₁.1.err⟩, h₁)
        else
          match key[matchlen]? with
          | none => (⟨false, .nil, some .indexOutOfRange⟩, h₁)
          | some b =>
            let res₂ := ins h₁ .nil (prefix_ ++ key.take (matchlen + 1)) (key.drop (matchlen + 1)) value
            if hb : b.toNat < 17 then
              let h₂ := res₂.2.modify branch.1 (Cell.setChild ⟨b.toNat, hb⟩ res₂.1.node)
              if res₂.1.err.isSome then (⟨false, .nil, res₂.1.err⟩, h₂)
              else if matchlen = 0 then (⟨true, .ptr branch.1, none⟩, h₂)
              else
                let obj := h₂.alloc (.short (key.take matchlen) (.ptr branch.1) newFlag)
                (⟨true, .ptr obj.1, none⟩, obj.2)
            else (⟨false, .nil, some .indexOutOfRange⟩, res₂.2)
      else (⟨false, .nil, some .indexOutOfRange⟩, res₁.2)

/-- `insert` into the full node at `p` with children `cs`: into the child on the key's path, then into
a copy of the node. -/
def insertFull (ins : Inserter) (h : Heap) (p : Nat) (cs : Fin 17 → Ref) (prefix_ key : List UInt8)
    (value : Ref) : UpdateResult × Heap :=
  match key with
  | [] => (⟨false, .ptr p, some .indexOutOfRange⟩, h)
  | b :: rest =>
    if hb : b.toNat < 17 then
      let res := ins h (cs ⟨b.toNat, hb⟩) (prefix_ ++ [b]) rest value
      if !res.1.dirty ∨ res.1.err.isSome then (⟨false, .ptr p, res.1.err⟩, res.2)
      else
        -- `n = n.copy(); n.flags = t.newFlag(); n.Children[key[0]] = nn`
        let cp := copy res.2 p
        let h₁ := cp.2.modify cp.1 (Cell.setFlags newFlag)
        (⟨true, .ptr cp.1, none⟩, h₁.modify cp.1 (Cell.setChild ⟨b.toNat, hb⟩ res.1.node))
    else (⟨false, .ptr p, some .indexOutOfRange⟩, h)

/-- `insert`, walking at most `fuel` nodes. -/
def insert (db : Database) : Nat → Inserter
  | 0, h, n, _, _, _ => (⟨false, n, some .outOfFuel⟩, h)
  | fuel + 1, h, n, prefix_, key, value =>
    if key = [] then
      match n, value with
      | .value v, .value w => (⟨v != w, value, none⟩, h)
      -- `value.(valueNode)` panics
      | .value _, _ => (⟨false, n, some .invalidNode⟩, h)
      | _, _ => (⟨true, value, none⟩, h)
    else
      match n with
      | .ptr p =>
        match h.get p with
        | some (.short k c _) => insertShort (insert db fuel) h p k c prefix_ key value
        | some (.full cs _) => insertFull (insert db fuel) h p cs prefix_ key value
        | none => (⟨false, n, some .invalidNode⟩, h)
      | .nil =>
        let obj := h.alloc (.short key value newFlag)
        (⟨true, .ptr obj.1, none⟩, obj.2)
      | .hash x =>
        match resolveHash db h x prefix_ with
        | .error e => (⟨false, .nil, some e⟩, h)
        | .ok rn =>
          let res := insert db fuel rn.2 rn.1 prefix_ key value
          if !res.1.dirty ∨ res.1.err.isSome then (⟨false, rn.1, res.1.err⟩, res.2)
          else (⟨true, res.1.node, none⟩, res.2)
      | .value _ => (⟨false, n, some .invalidNode⟩, h)

/-- The recursive call of `delete`: from a node, at a prefix, a key. -/
abbrev Deleter := Heap → Ref → List UInt8 → List UInt8 → UpdateResult × Heap

/-- `delete` from the short node at `p`, with key `k` and child `c`: a child that became a short node
is merged into a new node under the concatenated key. -/
def deleteShort (del : Deleter) (h : Heap) (p : Nat) (k : List UInt8) (c : Ref) (prefix_ key : List UInt8) :
    UpdateResult × Heap :=
  let matchlen := prefixLen key k
  if matchlen < k.length then (⟨false, .ptr p, none⟩, h)
  else if matchlen = key.length then (⟨true, .nil, none⟩, h)
  else
    let res := del h c (prefix_ ++ key.take k.length) (key.drop k.length)
    if !res.1.dirty ∨ res.1.err.isSome then (⟨false, .ptr p, res.1.err⟩, res.2)
    else
      let merged : Cell :=
        match res.1.node with
        | .ptr q =>
          match res.2.get q with
          | some (.short ck cv _) => .short (k ++ ck) cv newFlag
          | _ => .short k res.1.node newFlag
        | child => .short k child newFlag
      let obj := res.2.alloc merged
      (⟨true, .ptr obj.1, none⟩, obj.2)

/-- The children of a full node that are not `nil`, in order. -/
def liveRefs (cs : Fin 17 → Ref) : List (Fin 17) :=
  (List.finRange 17).filter fun i => cs i != .nil

/-- The end of `delete` on the copied full node at `q`: left with one child that is not `nil`, it
becomes a one-nibble short node over it, merged with that child when it is a short node (the child
is loaded from the database for this check). -/
def reduceFull (db : Database) (h : Heap) (q : Nat) (prefix_ : List UInt8) : UpdateResult × Heap :=
  match h.get q with
  | some (.full cs _) =>
    match liveRefs cs with
    | [pos] =>
      let single := h.alloc (.short [pos.val.toUInt8] (cs pos) newFlag)
      if pos.val ≠ 16 then
        match resolve db h (cs pos) prefix_ with
        | .error e => (⟨false, .nil, some e⟩, h)
        | .ok cnode =>
          match cnode.1 with
          | .ptr c =>
            match cnode.2.get c with
            | some (.short ck cv _) =>
              let obj := cnode.2.alloc (.short (pos.val.toUInt8 :: ck) cv newFlag)
              (⟨true, .ptr obj.1, none⟩, obj.2)
            | _ =>
              let obj := cnode.2.alloc (.short [pos.val.toUInt8] (cs pos) newFlag)
              (⟨true, .ptr obj.1, none⟩, obj.2)
          | _ =>
            let obj := cnode.2.alloc (.short [pos.val.toUInt8] (cs pos) newFlag)
            (⟨true, .ptr obj.1, none⟩, obj.2)
      else (⟨true, .ptr single.1, none⟩, single.2)
    | _ => (⟨true, .ptr q, none⟩, h)
  | _ => (⟨true, .ptr q, none⟩, h)

/-- `delete` from the full node at `p` with children `cs`: from the child on the key's path, then from a
copy of the node, which `reduceFull` may collapse. -/
def deleteFull (db : Database) (del : Deleter) (h : Heap) (p : Nat) (cs : Fin 17 → Ref)
    (prefix_ key : List UInt8) : UpdateResult × Heap :=
  match key with
  | [] => (⟨false, .ptr p, some .indexOutOfRange⟩, h)
  | b :: rest =>
    if hb : b.toNat < 17 then
      let res := del h (cs ⟨b.toNat, hb⟩) (prefix_ ++ [b]) rest
      if !res.1.dirty ∨ res.1.err.isSome then (⟨false, .ptr p, res.1.err⟩, res.2)
      else
        -- `n = n.copy(); n.flags = t.newFlag(); n.Children[key[0]] = nn`
        let cp := copy res.2 p
        let h₁ := cp.2.modify cp.1 (Cell.setFlags newFlag)
        reduceFull db (h₁.modify cp.1 (Cell.setChild ⟨b.toNat, hb⟩ res.1.node)) cp.1 prefix_
    else (⟨false, .ptr p, some .indexOutOfRange⟩, h)

/-- `delete`, walking at most `fuel` nodes. -/
def delete (db : Database) : Nat → Deleter
  | 0, h, n, _, _ => (⟨false, n, some .outOfFuel⟩, h)
  | fuel + 1, h, .ptr p, prefix_, key =>
    match h.get p with
    | some (.short k c _) => deleteShort (delete db fuel) h p k c prefix_ key
    | some (.full cs _) => deleteFull db (delete db fuel) h p cs prefix_ key
    | none => (⟨false, .ptr p, some .invalidNode⟩, h)
  | _ + 1, h, .value _, _, _ => (⟨true, .nil, none⟩, h)
  | _ + 1, h, .nil, _, _ => (⟨false, .nil, none⟩, h)
  | fuel + 1, h, .hash x, prefix_, key =>
    match resolveHash db h x prefix_ with
    | .error e => (⟨false, .nil, some e⟩, h)
    | .ok rn =>
      let res := delete db fuel rn.2 rn.1 prefix_ key
      if !res.1.dirty ∨ res.1.err.isSome then (⟨false, rn.1, res.1.err⟩, res.2)
      else (⟨true, res.1.node, none⟩, res.2)

/-! ### The hasher -/

/-- The sixteen nibble children of a full node, which `hashFullNodeChildren` hashes. -/
def nibbles : List (Fin 17) := (List.finRange 16).map Fin.castSucc

/-- The loop of `hashFullNodeChildren` over the children at `is`, with `hashChild` hashing one: the
collapsed children, and the cached ones written into the copy at `q`. -/
def hashChildren (hashChild : Heap → Ref → (Node × Ref) × Heap) (cs : Fin 17 → Ref) (q : Nat) :
    List (Fin 17) → (Fin 17 → Node) → Heap → (Fin 17 → Node) × Heap
  | [], collapsed, h => (collapsed, h)
  | i :: is, collapsed, h =>
    if cs i = .nil then hashChildren hashChild cs q is (Function.update collapsed i nilValueNode) h
    else
      let res := hashChild h (cs i)
      hashChildren hashChild cs q is (Function.update collapsed i res.1.1)
        (res.2.modify q (Cell.setChild i res.1.2))

section Hasher

variable (keccak : List UInt8 → List UInt8)

/-- `hasher.hash`, walking at most `fuel` nodes: the collapsed node, and the reference to the copy of
the node whose flags cache the hash computed. -/
def hash : Nat → Heap → Ref → Bool → (Node × Ref) × Heap
  | 0, h, n, _ => ((read h 0 n, n), h)
  | fuel + 1, h, .ptr p, force =>
    match h.get p with
    | some (.short k v f) =>
      match f.hash with
      | some x => ((.hash x, .ptr p), h)
      | none =>
        -- `hashShortNodeChildren`: `cached := n.copy()`; a full or short child is hashed
        let cp := copy h p
        let child : Node × Heap :=
          match v with
          | .ptr _ =>
            let res := hash fuel cp.2 v false
            (res.1.1, res.2.modify cp.1 (Cell.setVal res.1.2))
          | v => (read cp.2 0 v, cp.2)
        let hashed := Hasher.shortnodeToHash keccak (.short (hexToCompact k) child.1 f) force
        ((hashed, .ptr cp.1), child.2.modify cp.1 (Cell.setHash (Hasher.hashOf hashed)))
    | some (.full cs f) =>
      match f.hash with
      | some x => ((.hash x, .ptr p), h)
      | none =>
        -- `hashFullNodeChildren`: `cached := n.copy()`; the value slot is kept
        let cp := copy h p
        let children := hashChildren (fun h c => hash fuel h c false) cs cp.1 nibbles
          (fun i => read cp.2 fuel (cs i)) cp.2
        let hashed := Hasher.fullnodeToHash keccak (.full children.1 f) force
        ((hashed, .ptr cp.1), children.2.modify cp.1 (Cell.setHash (Hasher.hashOf hashed)))
    | none => ((.nil, .ptr p), h)
  -- value and hash nodes are left as they are
  | _ + 1, h, n, _ => ((read h 0 n, n), h)

end Hasher

/-! ### The heap only grows -/

@[simp] theorem copy_fst (h : Heap) (p : Nat) : (copy h p).1 = h.next := by
  unfold copy
  split <;> rfl

theorem grows_copy (h : Heap) (p : Nat) : h.Grows (copy h p).2 := by
  unfold copy
  split
  · exact Arena.grows_alloc h _
  · exact Arena.Grows.refl h

/-- A copy made after `h₀` and then written into: the writes go to the new object. -/
theorem grows_copy_modify {h₀ h : Heap} (hg : h₀.Grows h) (p : Nat) (f : Cell → Cell) :
    h₀.Grows ((copy h p).2.modify (copy h p).1 f) :=
  (hg.trans (grows_copy h p)).modify (by rw [copy_fst]; exact hg.next_le) f

/-- `n = n.copy(); n.flags = t.newFlag(); n.Children[i] = r`, after `h₀`: both writes go to the copy. -/
theorem grows_copy_setChild {h₀ h : Heap} (hg : h₀.Grows h) (p : Nat) (i : Fin 17) (r : Ref) :
    h₀.Grows (((copy h p).2.modify (copy h p).1 (Cell.setFlags newFlag)).modify (copy h p).1 (Cell.setChild i r)) :=
  (grows_copy_modify hg p _).modify (by rw [copy_fst]; exact hg.next_le) _

/-- What a reference stands for, it stands for in every heap the heap grows into. -/
theorem Rep.mono {h h' : Heap} (hg : h.Grows h') (hb : h.Bounded) {r : Ref} {n : Node} (hr : Rep h r n) :
    Rep h' r n := by
  induction hr with
  | nil => exact .nil
  | hash x => exact .hash x
  | value v => exact .value v
  | short hp _ ih => exact .short (hg.get_of_bounded hb hp) ih
  | full hp _ ih => exact .full (hg.get_of_bounded hb hp) ih

/-- A reference is `nil` exactly when it stands for no node. -/
theorem Rep.eq_nil_iff {h : Heap} {r : Ref} {n : Node} (hr : Rep h r n) : r = .nil ↔ n = .nil := by
  cases hr <;> simp

/-- Two references that stand for one node read alike. -/
theorem read_congr {h₁ h₂ : Heap} (fuel : Nat) : ∀ {r₁ r₂ : Ref} {n : Node}, Rep h₁ r₁ n → Rep h₂ r₂ n →
    read h₁ fuel r₁ = read h₂ fuel r₂ := by
  induction fuel with
  | zero =>
    intro r₁ r₂ n h₁r h₂r
    cases h₁r <;> cases h₂r <;> rfl
  | succ fuel ih =>
    intro r₁ r₂ n h₁r h₂r
    cases h₁r with
    | nil => cases h₂r; rfl
    | hash x => cases h₂r; rfl
    | value v => cases h₂r; rfl
    | short hp hc =>
      cases h₂r with
      | short hp' hc' => simp only [read, hp, hp', ih hc hc']
    | full hp hc =>
      cases h₂r with
      | full hp' hc' =>
        simp only [read, hp, hp']
        exact congrArg (Node.full · _) (funext fun i => ih (hc i) (hc' i))

/-- The loop of `store` over the children of a full node, storing with `g`: every child it has
stored, and every one that was already stored, stands for its node. -/
private theorem foldl_store (g : Heap → Node → Ref × Heap) {cs : Fin 17 → Node}
    (hg : ∀ i (h : Heap), h.Bounded → h.Grows (g h (cs i)).2 ∧ Rep (g h (cs i)).2 (g h (cs i)).1 (cs i)) :
    ∀ (is : List (Fin 17)) (acc : (Fin 17 → Ref) × Heap), acc.2.Bounded →
      acc.2.Grows (is.foldl (fun (acc : (Fin 17 → Ref) × Heap) i =>
          (Function.update acc.1 i (g acc.2 (cs i)).1, (g acc.2 (cs i)).2)) acc).2 ∧
      ∀ i, (i ∈ is ∨ Rep acc.2 (acc.1 i) (cs i)) →
        Rep (is.foldl (fun (acc : (Fin 17 → Ref) × Heap) i =>
          (Function.update acc.1 i (g acc.2 (cs i)).1, (g acc.2 (cs i)).2)) acc).2
          ((is.foldl (fun (acc : (Fin 17 → Ref) × Heap) i =>
          (Function.update acc.1 i (g acc.2 (cs i)).1, (g acc.2 (cs i)).2)) acc).1 i) (cs i)
  | [], acc, _ => ⟨.refl _, fun i hi => hi.resolve_left List.not_mem_nil⟩
  | j :: is, acc, hb => by
    obtain ⟨hgj, hrep⟩ := hg j acc.2 hb
    obtain ⟨hg', hrest⟩ := foldl_store g hg is (Function.update acc.1 j (g acc.2 (cs j)).1, (g acc.2 (cs j)).2)
      (hgj.bounded hb)
    refine ⟨hgj.trans hg', fun i hi => hrest i ?_⟩
    by_cases hij : i = j
    · subst hij
      exact .inr (by simpa using hrep)
    · rcases hi with hi | hi
      · exact .inl ((List.mem_cons.1 hi).resolve_left hij)
      · exact .inr (by simpa [Function.update_of_ne hij] using hi.mono hgj hb)

/-- `store` allocates the node's objects, and the reference it returns stands for the node. -/
theorem store_spec : ∀ (n : Node) (h : Heap), h.Bounded → h.Grows (store h n).2 ∧ Rep (store h n).2 (store h n).1 n
  | .nil, h, _ => ⟨.refl h, .nil⟩
  | .hash x, h, _ => ⟨.refl h, .hash x⟩
  | .value v, h, _ => ⟨.refl h, .value v⟩
  | .short k c f, h, hb => by
    obtain ⟨hg, hrep⟩ := store_spec c h hb
    have hg' := Arena.grows_alloc (store h c).2 (.short k (store h c).1 f)
    exact ⟨hg.trans hg', .short (Arena.get_alloc_self _ _) (hrep.mono hg' (hg.bounded hb))⟩
  | .full cs f, h, hb => by
    obtain ⟨hg, hrep⟩ := foldl_store store (fun i h hb => store_spec (cs i) h hb) (List.finRange 17)
      (fun _ => .nil, h) hb
    simp only [store]
    refine ⟨hg.trans (Arena.grows_alloc _ _), .full (Arena.get_alloc_self _ _) fun i => ?_⟩
    exact (hrep i (.inl (List.mem_finRange i))).mono (Arena.grows_alloc _ _) (hg.bounded hb)

theorem resolveHash_spec {db : Database} {h : Heap} {x path : List UInt8} {child : Ref × Heap}
    (hres : resolveHash db h x path = .ok child) (hb : h.Bounded) :
    h.Grows child.2 ∧ ∃ n, db.node x = some n ∧ Rep child.2 child.1 n := by
  unfold resolveHash at hres
  split at hres
  · rename_i n hn
    cases hres
    exact ⟨(store_spec n h hb).1, n, hn, (store_spec n h hb).2⟩
  · cases hres

/-- `tryGet` writes only into the copies it makes. -/
theorem tryGet_grows (db : Database) : ∀ (fuel : Nat) (h : Heap), h.Bounded → ∀ (r : Ref) (key : List UInt8) (pos : Nat),
    h.Grows (tryGet db fuel h r key pos).2
  | 0, h, _, _, _, _ => .refl h
  | _ + 1, h, _, .nil, _, _ => .refl h
  | _ + 1, h, _, .value _, _, _ => .refl h
  | fuel + 1, h, hb, .ptr p, key, pos => by
    simp only [tryGet]
    split
    · -- a short node
      split_ifs
      · exact .refl h
      · exact grows_copy_modify (tryGet_grows db fuel h hb _ key _) p _
      · exact tryGet_grows db fuel h hb _ key _
    · -- a full node
      split
      · exact .refl h
      · split_ifs
        · exact grows_copy_modify (tryGet_grows db fuel h hb _ key _) p _
        · exact tryGet_grows db fuel h hb _ key _
        · exact .refl h
    · exact .refl h
  | fuel + 1, h, hb, .hash x, key, pos => by
    simp only [tryGet]
    split
    · exact .refl h
    · rename_i child hres
      have hg := (resolveHash_spec hres hb).1
      exact hg.trans (tryGet_grows db fuel child.2 (hg.bounded hb) child.1 key pos)

/-- `insert` into a short node writes only into the new branch and the objects it allocates, given
that the insertions into children do. -/
theorem insertShort_grows {ins : Inserter}
    (hins : ∀ h : Heap, h.Bounded → ∀ n pre key value, h.Grows (ins h n pre key value).2) {h : Heap}
    (hb : h.Bounded) (p : Nat) (k : List UInt8) (c : Ref) (prefix_ key : List UInt8) (value : Ref) :
    h.Grows (insertShort ins h p k c prefix_ key value).2 := by
  unfold insertShort
  dsimp only
  split
  · -- the node's whole key matches: insert into its child
    have hg := hins h hb c (prefix_ ++ key.take (prefixLen key k)) (key.drop (prefixLen key k)) value
    split
    · exact hg
    · exact hg.trans (Arena.grows_alloc _ _)
  · -- the branch is a new object: both children are written into it, errors or not
    set branch := h.alloc (.full (fun _ => .nil) newFlag)
    have hg₀ : h.Grows branch.2 := Arena.grows_alloc h _
    have hfresh : h.next ≤ branch.1 := Nat.le_refl _
    split
    · exact hg₀
    · rename_i a _
      set res₁ := ins branch.2 .nil (prefix_ ++ k.take (prefixLen key k + 1)) (k.drop (prefixLen key k + 1)) c
      have hg₁ : h.Grows res₁.2 := hg₀.trans (hins _ (hg₀.bounded hb) _ _ _ _)
      split
      · rename_i ha
        set h₁ := res₁.2.modify branch.1 (Cell.setChild ⟨a.toNat, ha⟩ res₁.1.node)
        have hw₁ : h.Grows h₁ := hg₁.modify hfresh _
        split
        · exact hw₁
        · split
          · exact hw₁
          · rename_i b _
            set res₂ := ins h₁ .nil (prefix_ ++ key.take (prefixLen key k + 1)) (key.drop (prefixLen key k + 1)) value
            have hg₂ : h.Grows res₂.2 := hw₁.trans (hins _ (hw₁.bounded hb) _ _ _ _)
            split
            · rename_i hb'
              have hw₂ : h.Grows (res₂.2.modify branch.1 (Cell.setChild ⟨b.toNat, hb'⟩ res₂.1.node)) :=
                hg₂.modify hfresh _
              split
              · exact hw₂
              · split
                · exact hw₂
                · exact hw₂.trans (Arena.grows_alloc _ _)
            · exact hg₂
      · exact hg₁

/-- `insert` into a full node writes only into its copy, given that the insertions into children
write only into what they allocate. -/
theorem insertFull_grows {ins : Inserter}
    (hins : ∀ h : Heap, h.Bounded → ∀ n pre key value, h.Grows (ins h n pre key value).2) {h : Heap}
    (hb : h.Bounded) (p : Nat) (cs : Fin 17 → Ref) (prefix_ key : List UInt8) (value : Ref) :
    h.Grows (insertFull ins h p cs prefix_ key value).2 := by
  unfold insertFull
  split
  · exact .refl h
  · rename_i b rest
    dsimp only
    split
    · rename_i hb'
      have hg := hins h hb (cs ⟨b.toNat, hb'⟩) (prefix_ ++ [b]) rest value
      split
      · exact hg
      · exact grows_copy_setChild hg p _ _
    · exact .refl h

/-- `insert` writes only into objects it allocated. -/
theorem insert_grows (db : Database) : ∀ (fuel : Nat) (h : Heap), h.Bounded →
    ∀ (n : Ref) (prefix_ key : List UInt8) (value : Ref), h.Grows (insert db fuel h n prefix_ key value).2
  | 0, h, _, _, _, _, _ => .refl h
  | fuel + 1, h, hb, n, prefix_, key, value => by
    unfold insert
    dsimp only
    split
    · split <;> exact .refl h
    · split
      · split
        · exact insertShort_grows (insert_grows db fuel) hb _ _ _ prefix_ key value
        · exact insertFull_grows (insert_grows db fuel) hb _ _ prefix_ key value
        · exact .refl h
      · exact Arena.grows_alloc h _
      · split
        · exact .refl h
        · rename_i rn hres
          have hg := (resolveHash_spec hres hb).1
          have hg' := hg.trans (insert_grows db fuel rn.2 (hg.bounded hb) rn.1 prefix_ key value)
          split <;> exact hg'
      · exact .refl h

theorem resolve_grows {db : Database} {h : Heap} {r : Ref} {path : List UInt8} {cnode : Ref × Heap}
    (hres : resolve db h r path = .ok cnode) (hb : h.Bounded) : h.Grows cnode.2 := by
  unfold resolve at hres
  split at hres
  · exact (resolveHash_spec hres hb).1
  · cases hres
    exact .refl h

/-- `delete` from a short node allocates the merged node only, given that the deletions from children
write only into what they allocate. -/
theorem deleteShort_grows {del : Deleter} (hdel : ∀ h : Heap, h.Bounded → ∀ n pre key, h.Grows (del h n pre key).2)
    {h : Heap} (hb : h.Bounded) (p : Nat) (k : List UInt8) (c : Ref) (prefix_ key : List UInt8) :
    h.Grows (deleteShort del h p k c prefix_ key).2 := by
  unfold deleteShort
  dsimp only
  split
  · exact .refl h
  · split
    · exact .refl h
    · have hg := hdel h hb c (prefix_ ++ key.take k.length) (key.drop k.length)
      split
      · exact hg
      · exact hg.trans (Arena.grows_alloc _ _)

/-- Collapsing a full node allocates the new short node only. -/
theorem reduceFull_grows (db : Database) {h : Heap} (hb : h.Bounded) (q : Nat) (prefix_ : List UInt8) :
    h.Grows (reduceFull db h q prefix_).2 := by
  unfold reduceFull
  dsimp only
  split
  · split
    · split
      · split
        · exact .refl h
        · rename_i cnode hres
          have hg := resolve_grows hres hb
          split
          · split <;> exact hg.trans (Arena.grows_alloc _ _)
          · exact hg.trans (Arena.grows_alloc _ _)
      · exact Arena.grows_alloc h _
    · exact .refl h
  · exact .refl h

/-- `delete` from a full node writes only into its copy and the objects allocated after it. -/
theorem deleteFull_grows (db : Database) {del : Deleter}
    (hdel : ∀ h : Heap, h.Bounded → ∀ n pre key, h.Grows (del h n pre key).2) {h : Heap} (hb : h.Bounded)
    (p : Nat) (cs : Fin 17 → Ref) (prefix_ key : List UInt8) :
    h.Grows (deleteFull db del h p cs prefix_ key).2 := by
  unfold deleteFull
  split
  · exact .refl h
  · rename_i b rest
    dsimp only
    split
    · rename_i hb'
      have hg := hdel h hb (cs ⟨b.toNat, hb'⟩) (prefix_ ++ [b]) rest
      split
      · exact hg
      · -- the two writes go to the copy, and `reduceFull` allocates after it
        have hw := grows_copy_setChild hg p ⟨b.toNat, hb'⟩ (del h (cs ⟨b.toNat, hb'⟩) (prefix_ ++ [b]) rest).1.node
        exact hw.trans (reduceFull_grows db (hw.bounded hb) _ prefix_)
    · exact .refl h

/-- `delete` writes only into objects it allocated. -/
theorem delete_grows (db : Database) : ∀ (fuel : Nat) (h : Heap), h.Bounded →
    ∀ (n : Ref) (prefix_ key : List UInt8), h.Grows (delete db fuel h n prefix_ key).2
  | 0, h, _, _, _, _ => .refl h
  | _ + 1, h, _, .nil, _, _ => .refl h
  | _ + 1, h, _, .value _, _, _ => .refl h
  | fuel + 1, h, hb, .ptr p, prefix_, key => by
    unfold delete
    split
    · exact deleteShort_grows (delete_grows db fuel) hb p _ _ prefix_ key
    · exact deleteFull_grows db (delete_grows db fuel) hb p _ prefix_ key
    · exact .refl h
  | fuel + 1, h, hb, .hash x, prefix_, key => by
    unfold delete
    dsimp only
    split
    · exact .refl h
    · rename_i rn hres
      have hg := (resolveHash_spec hres hb).1
      have hg' := hg.trans (delete_grows db fuel rn.2 (hg.bounded hb) rn.1 prefix_ key)
      split <;> exact hg'

/-- The loop of `hashFullNodeChildren` writes only into the copy at `q`, made after `h₀`, given that
hashing a child writes only into what it allocates. -/
theorem hashChildren_grows {hashChild : Heap → Ref → (Node × Ref) × Heap}
    (hc : ∀ h : Heap, h.Bounded → ∀ r, h.Grows (hashChild h r).2) (cs : Fin 17 → Ref) {h₀ : Heap} {q : Nat}
    (hq : h₀.next ≤ q) (hb : h₀.Bounded) :
    ∀ (is : List (Fin 17)) (collapsed : Fin 17 → Node) (h : Heap), h₀.Grows h →
      h₀.Grows (hashChildren hashChild cs q is collapsed h).2
  | [], _, _, hg => hg
  | i :: is, collapsed, h, hg => by
    unfold hashChildren
    split
    · exact hashChildren_grows hc cs hq hb is _ h hg
    · have hg' := hg.trans (hc h (hg.bounded hb) (cs i))
      exact hashChildren_grows hc cs hq hb is _ _ (hg'.modify hq _)

section Hasher

variable (keccak : List UInt8 → List UInt8)

/-- The hasher writes only into the copies it makes. -/
theorem hash_grows : ∀ (fuel : Nat) (h : Heap), h.Bounded → ∀ (r : Ref) (force : Bool),
    h.Grows (hash keccak fuel h r force).2
  | 0, h, _, _, _ => .refl h
  | _ + 1, h, _, .nil, _ => .refl h
  | _ + 1, h, _, .hash _, _ => .refl h
  | _ + 1, h, _, .value _, _ => .refl h
  | fuel + 1, h, hb, .ptr p, force => by
    have hcp := grows_copy h p
    have hfresh : h.next ≤ (copy h p).1 := by rw [copy_fst]
    unfold hash
    dsimp only
    split
    · -- a short node: its child is hashed into the copy
      split
      · exact .refl h
      · split
        · exact ((hcp.trans (hash_grows fuel _ (hcp.bounded hb) _ false)).modify hfresh _).modify hfresh _
        · exact hcp.modify hfresh _
    · -- a full node: the loop writes the cached children into the copy
      split
      · exact .refl h
      · exact (hashChildren_grows (fun h hb r => hash_grows fuel h hb r false) _ hfresh hb nibbles _ _ hcp).modify
          hfresh _
    · exact .refl h

end Hasher

/-! ### Reading depends on the node a reference stands for -/

/-- A node above the child `tryGet` went into passes the child's value, `didResolve` and error on,
copied or not. -/
theorem out_of_child (r : GetResult) (a b : Ref) (h h' : Heap) :
    (if r.err = none ∧ r.didResolve = true then ((⟨r.value, a, true, none⟩ : GetResult), h)
      else (⟨r.value, b, r.didResolve, r.err⟩, h')).1.out = r.out := by
  split_ifs with hc
  · simp [GetResult.out, hc.1, hc.2]
  · rfl

/-- `tryGet` through two references that stand for one node, each in its own heap, returns the same
value, the same `didResolve` and the same error. -/
theorem tryGet_congr (db : Database) : ∀ (fuel : Nat) {h₁ h₂ : Heap} {r₁ r₂ : Ref} {n : Node},
    h₁.Bounded → h₂.Bounded → Rep h₁ r₁ n → Rep h₂ r₂ n → ∀ key pos,
    (tryGet db fuel h₁ r₁ key pos).1.out = (tryGet db fuel h₂ r₂ key pos).1.out
  | 0, _, _, _, _, _, _, _, _, _, _, _ => rfl
  | fuel + 1, h₁, h₂, _, _, _, hb₁, hb₂, hr₁, hr₂, key, pos => by
    cases hr₁ with
    | nil => cases hr₂; rfl
    | value v => cases hr₂; rfl
    | hash x =>
      cases hr₂
      -- both load the node stored under `x` into new objects, and go on in it
      cases hnode : db.node x with
      | none => simp [tryGet, resolveHash, hnode]
      | some node =>
        obtain ⟨hg₁, hs₁⟩ := store_spec node h₁ hb₁
        obtain ⟨hg₂, hs₂⟩ := store_spec node h₂ hb₂
        have ih := tryGet_congr db fuel (hg₁.bounded hb₁) (hg₂.bounded hb₂) hs₁ hs₂ key pos
        simp only [GetResult.out, Prod.mk.injEq] at ih
        simp [tryGet, resolveHash, hnode, GetResult.out, ih.1, ih.2.2]
    | @short p k v f c hp hc =>
      cases hr₂ with
      | short hp' hc' =>
        simp only [tryGet, hp, hp']
        -- the key check reads the node's key only
        by_cases hk : key.length < pos + k.length ∨ k ≠ (key.drop pos).take k.length
        · rw [if_pos hk, if_pos hk]
          rfl
        · rw [if_neg hk, if_neg hk, out_of_child, out_of_child]
          exact tryGet_congr db fuel hb₁ hb₂ hc hc' key _
    | full hp hc =>
      cases hr₂ with
      | full hp' hc' =>
        simp only [tryGet, hp, hp']
        cases key[pos]? with
        | none => rfl
        | some b =>
          dsimp only
          by_cases hb : b.toNat < 17
          · rw [dif_pos hb, dif_pos hb, out_of_child, out_of_child]
            exact tryGet_congr db fuel hb₁ hb₂ (hc _) (hc' _) key _
          · rw [dif_neg hb, dif_neg hb]
            rfl

/-- The loop of `hashFullNodeChildren` over the children of two full nodes that stand for the same
node collapses them alike, given that hashing a child does.  The children stand for their nodes in the
heaps `h₀₁` and `h₀₂` from before the copies at `q₁` and `q₂`, which the loop writes into. -/
theorem hashChildren_congr {hashChild : Heap → Ref → (Node × Ref) × Heap}
    (hgrows : ∀ h : Heap, h.Bounded → ∀ r, h.Grows (hashChild h r).2)
    (hc : ∀ {h₁ h₂ : Heap} {r₁ r₂ : Ref} {n : Node}, h₁.Bounded → h₂.Bounded → Rep h₁ r₁ n → Rep h₂ r₂ n →
      (hashChild h₁ r₁).1.1 = (hashChild h₂ r₂).1.1)
    {cs₁ cs₂ : Fin 17 → Ref} {ns : Fin 17 → Node} {q₁ q₂ : Nat} {h₀₁ h₀₂ : Heap} (hb₁ : h₀₁.Bounded)
    (hb₂ : h₀₂.Bounded) (hq₁ : h₀₁.next ≤ q₁) (hq₂ : h₀₂.next ≤ q₂) (hr₁ : ∀ i, Rep h₀₁ (cs₁ i) (ns i))
    (hr₂ : ∀ i, Rep h₀₂ (cs₂ i) (ns i)) :
    ∀ (is : List (Fin 17)) (collapsed : Fin 17 → Node) {h₁ h₂ : Heap}, h₀₁.Grows h₁ → h₀₂.Grows h₂ →
      (hashChildren hashChild cs₁ q₁ is collapsed h₁).1 = (hashChildren hashChild cs₂ q₂ is collapsed h₂).1
  | [], _, _, _, _, _ => rfl
  | i :: is, collapsed, h₁, h₂, hg₁, hg₂ => by
    -- a child is `nil` exactly where the node has no child
    have hnil : cs₁ i = .nil ↔ cs₂ i = .nil := (hr₁ i).eq_nil_iff.trans (hr₂ i).eq_nil_iff.symm
    unfold hashChildren
    by_cases h₀ : cs₁ i = .nil
    · rw [if_pos h₀, if_pos (hnil.1 h₀)]
      exact hashChildren_congr hgrows hc hb₁ hb₂ hq₁ hq₂ hr₁ hr₂ is _ hg₁ hg₂
    · rw [if_neg h₀, if_neg (mt hnil.2 h₀)]
      dsimp only
      rw [hc (hg₁.bounded hb₁) (hg₂.bounded hb₂) ((hr₁ i).mono hg₁ hb₁) ((hr₂ i).mono hg₂ hb₂)]
      exact hashChildren_congr hgrows hc hb₁ hb₂ hq₁ hq₂ hr₁ hr₂ is _
        ((hg₁.trans (hgrows h₁ (hg₁.bounded hb₁) (cs₁ i))).modify hq₁ _)
        ((hg₂.trans (hgrows h₂ (hg₂.bounded hb₂) (cs₂ i))).modify hq₂ _)

section Hasher

variable (keccak : List UInt8 → List UInt8)

/-- Hashing two references that stand for one node, each in its own heap, collapses them alike. -/
theorem hash_congr : ∀ (fuel : Nat) {h₁ h₂ : Heap} {r₁ r₂ : Ref} {n : Node}, h₁.Bounded → h₂.Bounded →
    Rep h₁ r₁ n → Rep h₂ r₂ n → ∀ force, (hash keccak fuel h₁ r₁ force).1.1 = (hash keccak fuel h₂ r₂ force).1.1
  | 0, _, _, _, _, _, _, _, hr₁, hr₂, _ => read_congr 0 hr₁ hr₂
  | fuel + 1, h₁, h₂, _, _, _, hb₁, hb₂, hr₁, hr₂, force => by
    cases hr₁ with
    | nil => cases hr₂; rfl
    | hash x => cases hr₂; rfl
    | value v => cases hr₂; rfl
    | @short p k v f c hp hc =>
      cases hr₂ with
      | @short p' _ v' _ _ hp' hc' =>
        have hcp₁ := grows_copy h₁ p
        have hcp₂ := grows_copy h₂ p'
        simp only [hash, hp, hp']
        cases f.hash with
        | some x => rfl
        | none =>
          dsimp only
          -- the child is hashed when it is a full or a short node, else kept: alike on both sides
          cases hc with
          | nil => cases hc'; rfl
          | hash x => cases hc'; rfl
          | value w => cases hc'; rfl
          | short hq hc₀ =>
            cases hc' with
            | short hq' hc₀' =>
              rw [hash_congr fuel (hcp₁.bounded hb₁) (hcp₂.bounded hb₂) ((Rep.short hq hc₀).mono hcp₁ hb₁)
                ((Rep.short hq' hc₀').mono hcp₂ hb₂) false]
          | full hq hc₀ =>
            cases hc' with
            | full hq' hc₀' =>
              rw [hash_congr fuel (hcp₁.bounded hb₁) (hcp₂.bounded hb₂) ((Rep.full hq hc₀).mono hcp₁ hb₁)
                ((Rep.full hq' hc₀').mono hcp₂ hb₂) false]
    | @full p cs f ns hp hc =>
      cases hr₂ with
      | @full p' cs' _ _ hp' hc' =>
        have hcp₁ := grows_copy h₁ p
        have hcp₂ := grows_copy h₂ p'
        simp only [hash, hp, hp']
        cases f.hash with
        | some x => rfl
        | none =>
          dsimp only
          -- the copies start from the node's children, and the loop collapses them alike
          have hinit : (fun i => read (copy h₁ p).2 fuel (cs i)) = fun i => read (copy h₂ p').2 fuel (cs' i) :=
            funext fun i => read_congr fuel ((hc i).mono hcp₁ hb₁) ((hc' i).mono hcp₂ hb₂)
          have hq₁ : h₁.next ≤ (copy h₁ p).1 := by rw [copy_fst]
          have hq₂ : h₂.next ≤ (copy h₂ p').1 := by rw [copy_fst]
          rw [hinit, hashChildren_congr (fun h hb r => hash_grows keccak fuel h hb r false)
            (fun hb₁ hb₂ hr₁ hr₂ => hash_congr fuel hb₁ hb₂ hr₁ hr₂ false) hb₁ hb₂ hq₁ hq₂ hc hc' nibbles _ hcp₁ hcp₂]

end Hasher

/-! ### `tryGet` against the value model -/

/-- The heap model's `tryGet` result `res` is the value model's `r`: the same error, or the same value
and `didResolve`, with the node handed back standing, in the heap after, for the value model's. -/
def GetSim (res : GetResult × Heap) : Node.GetResult → Prop
  | .error e => res.1.err = some e
  | .ok (v, newnode, didResolve) =>
    res.1.err = none ∧ res.1.value = v ∧ res.1.didResolve = didResolve ∧ Rep res.2 res.1.newnode newnode

/-- The value model's `tryGet` at a node above a child whose result is `r`: the node `above` makes of
the new child when nodes were loaded below, else the node `old` itself. -/
def aboveResult (above : Node → Node) (old : Node) : Node.GetResult → Node.GetResult
  | .error e => .error e
  | .ok (v, newnode, didResolve) => .ok (v, if didResolve then above newnode else old, didResolve)

/-- The value model's `tryGet` at a loaded node whose result is `r`: the load is reported. -/
def loadResult : Node.GetResult → Node.GetResult
  | .error e => .error e
  | .ok (v, newnode, _) => .ok (v, newnode, true)

/-- A node above the child `tryGet` went into passes the child's error on. -/
theorem err_of_child (r : GetResult) (a b : Ref) (h h' : Heap) :
    (if r.err = none ∧ r.didResolve = true then ((⟨r.value, a, true, none⟩ : GetResult), h)
      else (⟨r.value, b, r.didResolve, r.err⟩, h')).1.err = r.err :=
  congrArg (·.2.2) (out_of_child r a b h h')

/-- The copy of the object at `p`, written into by `w`, holds what `w` makes of the object. -/
theorem get_copy_modify {h : Heap} {p : Nat} {c : Cell} (hp : h.get p = some c) (w : Cell → Cell) :
    ((copy h p).2.modify (copy h p).1 w).get (copy h p).1 = some (w c) := by
  simp [copy, hp]

/-- `n = n.copy(); n.Val = r` on a short node: the copy stands for the node with the new child. -/
theorem rep_copy_setVal {h : Heap} (hb : h.Bounded) {p : Nat} {k : List UInt8} {v : Ref} {f : NodeFlag}
    (hp : h.get p = some (.short k v f)) {h' : Heap} (hg : h.Grows h') {r : Ref} {n : Node} (hr : Rep h' r n) :
    Rep ((copy h' p).2.modify (copy h' p).1 (Cell.setVal r)) (.ptr (copy h' p).1) (.short k n f) :=
  .short (get_copy_modify (hg.get_of_bounded hb hp) _) (hr.mono (grows_copy_modify (.refl h') p _) (hg.bounded hb))

/-- `n = n.copy(); n.Children[i] = r` on a full node: the copy stands for the node with child `i`
replaced. -/
theorem rep_copy_setChild {h : Heap} (hb : h.Bounded) {p : Nat} {cs : Fin 17 → Ref} {f : NodeFlag}
    {ns : Fin 17 → Node} (hp : h.get p = some (.full cs f)) (hc : ∀ i, Rep h (cs i) (ns i)) (i : Fin 17)
    {h' : Heap} (hg : h.Grows h') {r : Ref} {n : Node} (hr : Rep h' r n) :
    Rep ((copy h' p).2.modify (copy h' p).1 (Cell.setChild i r)) (.ptr (copy h' p).1)
      (.full (Function.update ns i n) f) := by
  have hw := grows_copy_modify (.refl h') p (Cell.setChild i r)
  refine .full (get_copy_modify (hg.get_of_bounded hb hp) _) fun j => ?_
  -- the new child at `i`, the old ones elsewhere
  by_cases hj : j = i
  · subst hj
    simpa using hr.mono hw (hg.bounded hb)
  · simpa [Function.update_of_ne hj] using ((hc j).mono hg hb).mono hw (hg.bounded hb)

/-- A node above the child `tryGet` went into, as the value model has it: a copy with the new child when
nodes were loaded below and no error came back, else the node itself.  `write` puts a child into the
copy, and `above` is the value model's node with that child. -/
theorem getSim_above {h : Heap} (hb : h.Bounded) {p : Nat} {old : Node} (hold : Rep h (.ptr p) old)
    (write : Ref → Cell → Cell) (above : Node → Node)
    (hwrite : ∀ {h' : Heap}, h.Grows h' → ∀ {r : Ref} {n : Node}, Rep h' r n →
      Rep ((copy h' p).2.modify (copy h' p).1 (write r)) (.ptr (copy h' p).1) (above n))
    {res : GetResult × Heap} (hg : h.Grows res.2) {r : Node.GetResult} (hsim : GetSim res r) :
    GetSim (if res.1.err = none ∧ res.1.didResolve = true then
        ((⟨res.1.value, .ptr (copy res.2 p).1, true, none⟩ : GetResult),
          (copy res.2 p).2.modify (copy res.2 p).1 (write res.1.newnode))
      else (⟨res.1.value, .ptr p, res.1.didResolve, res.1.err⟩, res.2)) (aboveResult above old r) := by
  rcases r with e | ⟨v, newnode, didResolve⟩
  · -- an error below passes on
    have he : res.1.err = some e := hsim
    simp only [GetSim, aboveResult]
    rw [err_of_child, he]
  · obtain ⟨herr, hv, hdr, hrep⟩ := hsim
    cases didResolve with
    | false =>
      -- nothing loaded below: the node itself, in the heap after
      rw [if_neg (by simp [hdr])]
      exact ⟨herr, hv, hdr, hold.mono hg hb⟩
    | true =>
      rw [if_pos ⟨herr, hdr⟩]
      exact ⟨rfl, hv, rfl, hwrite hg hrep⟩

/-- A node loaded from the database: `tryGet` goes on in it and reports the load. -/
theorem getSim_load {res : GetResult × Heap} {r : Node.GetResult} (hsim : GetSim res r) :
    GetSim (⟨res.1.value, res.1.newnode, true, res.1.err⟩, res.2) (loadResult r) := by
  rcases r with e | ⟨v, newnode, didResolve⟩
  · exact hsim
  · obtain ⟨herr, hv, -, hrep⟩ := hsim
    exact ⟨herr, hv, rfl, hrep⟩

/-- **The heap model refines the value model's `tryGet`.**  Through a reference that stands for a node,
`tryGet` returns what the value model's `tryGet` returns on the node, and the node it hands back stands
for the value model's, unless it runs out of fuel first: it spends a unit on every node, the value
model only on a load.  Induction on the fuel, one case for each kind of node. -/
theorem tryGet_sim (db : Database) : ∀ (fuel f : Nat), fuel ≤ f + 1 → ∀ {h : Heap} {r : Ref} {n : Node},
    h.Bounded → Rep h r n → ∀ key pos, (tryGet db fuel h r key pos).1.err ≠ some .outOfFuel →
      GetSim (tryGet db fuel h r key pos) (Node.tryGet db f n key pos)
  | 0, _, _, _, _, _, _, _, _, _, hfuel => absurd rfl hfuel
  | fuel + 1, f, hf, h, _, _, hb, hr, key, pos, hfuel => by
    cases hr with
    | nil =>
      rw [Node.tryGet_nil]
      exact ⟨rfl, rfl, rfl, .nil⟩
    | value v =>
      rw [Node.tryGet_value]
      exact ⟨rfl, rfl, rfl, .value v⟩
    | hash x =>
      cases hnode : db.node x with
      | none =>
        -- both report the missing node
        have hv : Node.tryGet db f (.hash x) key pos = .error (.missingNode x (key.take pos)) := by
          cases f <;> simp [Node.tryGet, Node.tryGetWith, Go420coin.Trie.resolveHash, hnode]
        rw [hv]
        simp [GetSim, tryGet, resolveHash, hnode]
      | some node =>
        -- both go on in the loaded node
        obtain ⟨hg, hs⟩ := store_spec node h hb
        have hres : resolveHash db h x (key.take pos) = .ok (store h node) := by simp [resolveHash, hnode]
        simp only [tryGet, hres] at hfuel ⊢
        cases f with
        | zero =>
          -- a single unit of fuel leaves none for the loaded node
          obtain rfl : fuel = 0 := by omega
          exact absurd rfl hfuel
        | succ f =>
          have hv : Go420coin.Trie.resolveHash db x (key.take pos) = .ok node := by
            simp [Go420coin.Trie.resolveHash, hnode]
          rw [Node.tryGet_hash_succ, hv]
          exact getSim_load (tryGet_sim db fuel f (by omega) (hg.bounded hb) hs key pos hfuel)
    | @short p k v fl c hp hc =>
      rw [Node.tryGet_short]
      simp only [tryGet, hp] at hfuel ⊢
      by_cases hk : key.length < pos + k.length ∨ k ≠ (key.drop pos).take k.length
      · rw [if_pos hk, if_pos hk]
        exact ⟨rfl, rfl, rfl, .short hp hc⟩
      · rw [if_neg hk, if_neg hk]
        rw [if_neg hk, err_of_child] at hfuel
        exact getSim_above hb (.short hp hc) Cell.setVal (.short k · fl) (rep_copy_setVal hb hp)
          (tryGet_grows db fuel h hb v key _) (tryGet_sim db fuel f (by omega) hb hc key _ hfuel)
    | @full p cs fl ns hp hc =>
      rw [Node.tryGet_full]
      simp only [tryGet, hp] at hfuel ⊢
      cases hkey : key[pos]? with
      | none => rfl
      | some b =>
        rw [hkey] at hfuel
        dsimp only at hfuel ⊢
        by_cases hb17 : b.toNat < 17
        · rw [dif_pos hb17, dif_pos hb17]
          rw [dif_pos hb17, err_of_child] at hfuel
          exact getSim_above hb (.full hp hc) (Cell.setChild ⟨b.toNat, hb17⟩)
            (fun n => .full (Function.update ns ⟨b.toNat, hb17⟩ n) fl) (rep_copy_setChild hb hp hc _)
            (tryGet_grows db fuel h hb _ key _) (tryGet_sim db fuel f (by omega) hb (hc _) key _ hfuel)
        · rw [dif_neg hb17, dif_neg hb17]
          rfl

/-- The value slot, nothing or a value, answers at once. -/
theorem tryGet_slot_err (db : Database) {n : Node} (hn : IsSlot n) {h : Heap} {r : Ref} (hr : Rep h r n)
    (key : List UInt8) (pos : Nat) {fuel : Nat} (hfuel : 1 ≤ fuel) : (tryGet db fuel h r key pos).1.err = none := by
  obtain ⟨fuel, rfl⟩ : ∃ f, fuel = f + 1 := ⟨fuel - 1, by omega⟩
  rcases hn with rfl | ⟨v, rfl⟩ <;> cases hr <;> rfl

/-- On a node built in memory `tryGet` does not run out of fuel given two units more than the key has
nibbles left: each node on the path but the value takes a nibble at least.  Induction on the node's
canonical form. -/
theorem tryGet_ne_outOfFuel (db : Database) {n : Node} (hn : Canonical n) :
    ∀ {h : Heap} {r : Ref}, Rep h r n → ∀ (key : List UInt8) (pos fuel : Nat), key.length - pos + 2 ≤ fuel →
      (tryGet db fuel h r key pos).1.err ≠ some .outOfFuel := by
  induction hn with
  | nil =>
    intro h r hr key pos fuel hfuel
    cases hr
    obtain ⟨fuel, rfl⟩ : ∃ f, fuel = f + 1 := ⟨fuel - 1, by omega⟩
    simp [tryGet]
  | leaf =>
    intro h r hr key pos fuel hfuel
    cases hr with
    | short hp hc =>
      obtain ⟨fuel, rfl⟩ : ∃ f, fuel = f + 1 := ⟨fuel - 1, by omega⟩
      simp only [tryGet, hp]
      split
      · simp
      · rw [err_of_child, tryGet_slot_err db (.value _) hc key _ (by omega)]
        simp
  | @ext k cs hk _ _ ih =>
    intro h r hr key pos fuel hfuel
    cases hr with
    | short hp hc =>
      obtain ⟨fuel, rfl⟩ : ∃ f, fuel = f + 1 := ⟨fuel - 1, by omega⟩
      simp only [tryGet, hp]
      split
      · simp
      · rename_i hmatch
        rw [err_of_child]
        -- the key covers the node's, which takes a nibble at least
        have hlen : pos + k.length ≤ key.length := by
          have := (not_or.1 hmatch).1
          omega
        have hk1 : 0 < k.length := List.length_pos_of_ne_nil hk
        exact ih hc key _ fuel (by omega)
  | @full cs _ hslot _ ih =>
    intro h r hr key pos fuel hfuel
    cases hr with
    | full hp hc =>
      obtain ⟨fuel, rfl⟩ : ∃ f, fuel = f + 1 := ⟨fuel - 1, by omega⟩
      simp only [tryGet, hp]
      cases hkey : key[pos]? with
      | none => simp
      | some b =>
        dsimp only
        split
        · rename_i hb17
          rw [err_of_child]
          have hpos : pos < key.length := (List.getElem?_eq_some_iff.1 hkey).1
          -- the value slot answers at once; any other child is canonical
          by_cases h16 : (⟨b.toNat, hb17⟩ : Fin 17).val = 16
          · have hi : (⟨b.toNat, hb17⟩ : Fin 17) = 16 := Fin.ext h16
            rw [tryGet_slot_err db (hi ▸ hslot) (hc _) key _ (by omega)]
            simp
          · exact ih _ h16 (hc _) key (pos + 1) fuel (by omega)
        · simp

/-! ### The trie -/

/-- A `Trie` value: its root and the number of updates since the last hashing.  Copying a trie copies
these two fields; the nodes stay shared. -/
structure Trie where
  root : Ref
  unhashed : Nat

namespace Trie

variable (db : Database) (fuel : Nat)

/-- `TryGet`: the root becomes the node returned when nodes were loaded and no error occurred. -/
def tryGet (h : Heap) (t : Trie) (key : List UInt8) : (Except TrieError (Option (List UInt8)) × Trie) × Heap :=
  let res := Pointers.tryGet db fuel h t.root (keybytesToHex key) 0
  let t' := if res.1.err = none ∧ res.1.didResolve = true then { t with root := res.1.newnode } else t
  match res.1.err with
  | some e => ((.error e, t'), res.2)
  | none => ((.ok res.1.value, t'), res.2)

/-- `TryUpdate`: `insert`, or `delete` for an empty value; the root is set only when no error came back. -/
def tryUpdate (h : Heap) (t : Trie) (key value : List UInt8) : (Except TrieError Unit × Trie) × Heap :=
  let t := { t with unhashed := t.unhashed + 1 }
  let k := keybytesToHex key
  let res := if value.length ≠ 0 then insert db fuel h t.root [] k (.value value) else delete db fuel h t.root [] k
  match res.1.err with
  | some e => ((.error e, t), res.2)
  | none => ((.ok (), { t with root := res.1.node }), res.2)

/-- `TryDelete`. -/
def tryDelete (h : Heap) (t : Trie) (key : List UInt8) : (Except TrieError Unit × Trie) × Heap :=
  let t := { t with unhashed := t.unhashed + 1 }
  let res := delete db fuel h t.root [] (keybytesToHex key)
  match res.1.err with
  | some e => ((.error e, t), res.2)
  | none => ((.ok (), { t with root := res.1.node }), res.2)

/-- `Hash`: `hashRoot`, after which the cached root replaces the root.  A root that hashes to no
`hashNode` makes Go's type assertion panic: `invalidNode`. -/
def hash (keccak : List UInt8 → List UInt8) (h : Heap) (t : Trie) : (Except TrieError (List UInt8) × Trie) × Heap :=
  match t.root with
  | .nil => ((.ok emptyRoot, t), h)
  | root =>
    let res := Pointers.hash keccak fuel h root true
    let t' := { t with root := res.1.2, unhashed := 0 }
    match res.1.1 with
    | .hash x => ((.ok x, t'), res.2)
    | _ => ((.error .invalidNode, t'), res.2)

/-- The calls a holder of a trie makes: `Update` (a delete for an empty value), `Delete`, `Get`,
`Hash`. -/
inductive Op where
  | update (key value : List UInt8)
  | delete (key : List UInt8)
  | get (key : List UInt8)
  | hash

/-- One call; `Update`, `Delete` and `Get` log and drop the error. -/
def step (keccak : List UInt8 → List UInt8) (s : Heap × Trie) : Op → Heap × Trie
  | .update key value => let r := tryUpdate db fuel s.1 s.2 key value; (r.2, r.1.2)
  | .delete key => let r := tryDelete db fuel s.1 s.2 key; (r.2, r.1.2)
  | .get key => let r := tryGet db fuel s.1 s.2 key; (r.2, r.1.2)
  | .hash => let r := hash fuel keccak s.1 s.2; (r.2, r.1.2)

/-- A run of calls on one trie. -/
def run (keccak : List UInt8 → List UInt8) (s : Heap × Trie) (ops : List Op) : Heap × Trie :=
  ops.foldl (step db fuel keccak) s

/-! ### Every call grows the heap -/

theorem tryGet_grows {h : Heap} (hb : h.Bounded) (t : Trie) (key : List UInt8) :
    h.Grows (tryGet db fuel h t key).2 := by
  unfold tryGet
  dsimp only
  split <;> exact Pointers.tryGet_grows db fuel h hb _ _ _

theorem tryUpdate_grows {h : Heap} (hb : h.Bounded) (t : Trie) (key value : List UInt8) :
    h.Grows (tryUpdate db fuel h t key value).2 := by
  have hg : h.Grows (if value.length ≠ 0 then insert db fuel h t.root [] (keybytesToHex key) (.value value)
      else delete db fuel h t.root [] (keybytesToHex key)).2 := by
    split
    · exact insert_grows db fuel h hb _ _ _ _
    · exact delete_grows db fuel h hb _ _ _
  unfold tryUpdate
  dsimp only
  split <;> exact hg

theorem tryDelete_grows {h : Heap} (hb : h.Bounded) (t : Trie) (key : List UInt8) :
    h.Grows (tryDelete db fuel h t key).2 := by
  unfold tryDelete
  dsimp only
  split <;> exact delete_grows db fuel h hb _ _ _

theorem hash_grows (keccak : List UInt8 → List UInt8) {h : Heap} (hb : h.Bounded) (t : Trie) :
    h.Grows (hash fuel keccak h t).2 := by
  unfold hash
  split
  · exact .refl h
  · dsimp only
    split <;> exact Pointers.hash_grows keccak fuel h hb _ true

theorem step_grows (keccak : List UInt8 → List UInt8) {s : Heap × Trie} (hb : s.1.Bounded) (op : Op) :
    s.1.Grows (step db fuel keccak s op).1 := by
  cases op with
  | update key value => exact tryUpdate_grows db fuel hb s.2 key value
  | delete key => exact tryDelete_grows db fuel hb s.2 key
  | get key => exact tryGet_grows db fuel hb s.2 key
  | hash => exact hash_grows fuel keccak hb s.2

/-- A run of calls grows the heap: induction on the calls, each growing it (`step_grows`). -/
theorem run_grows (keccak : List UInt8 → List UInt8) :
    ∀ (ops : List Op) {s : Heap × Trie}, s.1.Bounded → s.1.Grows (run db fuel keccak s ops).1
  | [], _, _ => .refl _
  | op :: ops, s, hb => by
    have hg := step_grows db fuel keccak hb op
    exact hg.trans (run_grows keccak ops (hg.bounded hb))

/-! ### What `TryGet` and `Hash` return -/

/-- `TryGet` on two tries whose roots stand for one node returns the same. -/
theorem tryGet_fst_congr {h₁ h₂ : Heap} {t₁ t₂ : Trie} {n : Node} (hb₁ : h₁.Bounded) (hb₂ : h₂.Bounded)
    (hr₁ : Rep h₁ t₁.root n) (hr₂ : Rep h₂ t₂.root n) (key : List UInt8) :
    (tryGet db fuel h₁ t₁ key).1.1 = (tryGet db fuel h₂ t₂ key).1.1 := by
  have h := Pointers.tryGet_congr db fuel hb₁ hb₂ hr₁ hr₂ (keybytesToHex key) 0
  simp only [GetResult.out, Prod.mk.injEq] at h
  unfold tryGet
  dsimp only
  rw [h.2.2]
  split <;> simp [h.1]

/-- `Hash` of two tries whose roots stand for one node returns the same. -/
theorem hash_fst_congr (keccak : List UInt8 → List UInt8) {h₁ h₂ : Heap} {t₁ t₂ : Trie} {n : Node}
    (hb₁ : h₁.Bounded) (hb₂ : h₂.Bounded) (hr₁ : Rep h₁ t₁.root n) (hr₂ : Rep h₂ t₂.root n) :
    (hash fuel keccak h₁ t₁).1.1 = (hash fuel keccak h₂ t₂).1.1 := by
  -- the roots are `nil` together
  have hnil : t₁.root = .nil ↔ t₂.root = .nil := hr₁.eq_nil_iff.trans hr₂.eq_nil_iff.symm
  by_cases h₀ : t₁.root = .nil
  · simp [hash, h₀, hnil.1 h₀]
  · have hc := Pointers.hash_congr keccak fuel hb₁ hb₂ hr₁ hr₂ true
    unfold hash
    split
    · rename_i heq
      exact absurd heq h₀
    · split
      · rename_i heq
        exact absurd (hnil.2 heq) h₀
      · dsimp only
        rw [hc]
        split <;> rfl

/-- **`TryGet` returns what the trie holds.**  On a root that stands for a node built in memory, with two
units of fuel more than the key has nibbles, `TryGet` returns the value the node holds at the key, as
the value model does, loads nothing and leaves the trie as it was. -/
theorem tryGet_lookup {h : Heap} (hb : h.Bounded) {t : Trie} {n : Node} (hr : Rep h t.root n) (hn : Canonical n)
    (key : List UInt8) (hfuel : (keybytesToHex key).length + 2 ≤ fuel) :
    (tryGet db fuel h t key).1 = (.ok (n.lookup (keybytesToHex key)), t) := by
  have hne := tryGet_ne_outOfFuel db hn hr (keybytesToHex key) 0 fuel (by omega)
  have hsim := tryGet_sim db fuel fuel (by omega) hb hr _ 0 hne
  rw [Node.tryGet_eq db fuel hn (hexKey_keybytesToHex key)] at hsim
  obtain ⟨herr, hv, hdr, -⟩ := hsim
  unfold tryGet
  simp [herr, hv, hdr]

/-- A heap with one leaf, of key `[1, 2, 16]` and value `[7]`, at address 0. -/
def leafHeap : Heap := ((Arena.empty : Heap).alloc (.short [1, 2, 16] (.value [7]) newFlag)).2

-- The leaf holds `[7]` at the key `0x12`.
example : (Node.short [1, 2, 16] (.value [7]) newFlag).lookup (keybytesToHex [0x12]) = some [7] := by decide

/-- `TryGet` of the key `0x12` in the trie rooted at that leaf. -/
theorem tryGet_lookup_leaf :
    leafHeap.Bounded ∧ Rep leafHeap (.ptr 0) (.short [1, 2, 16] (.value [7]) newFlag) ∧
      Canonical (.short [1, 2, 16] (.value [7]) newFlag) ∧ (keybytesToHex [0x12]).length + 2 ≤ 5 ∧
      (tryGet ⟨fun _ => none⟩ 5 leafHeap ⟨.ptr 0, 0⟩ [0x12]).1 =
        (.ok ((Node.short [1, 2, 16] (.value [7]) newFlag).lookup (keybytesToHex [0x12])), ⟨.ptr 0, 0⟩) :=
  have hb : leafHeap.Bounded := Arena.bounded_empty.alloc _
  have hr : Rep leafHeap (.ptr 0) (.short [1, 2, 16] (.value [7]) newFlag) :=
    .short (Arena.get_alloc_self _ _) (.value _)
  have hn : Canonical (.short [1, 2, 16] (.value [7]) newFlag) :=
    .leaf (.nibble (by decide) (.nibble (by decide) .term))
  ⟨hb, hr, hn, by decide, tryGet_lookup ⟨fun _ => none⟩ 5 hb hr hn [0x12] (by decide)⟩

/-! ### A failed call keeps the root -/

/-- A failed `TryUpdate` sets no root. -/
theorem root_tryUpdate_of_error {h : Heap} {t : Trie} {key value : List UInt8} {e : TrieError}
    (herr : (tryUpdate db fuel h t key value).1.1 = .error e) : (tryUpdate db fuel h t key value).1.2.root = t.root := by
  revert herr
  unfold tryUpdate
  dsimp only
  split <;> simp

/-- A failed `TryDelete` sets no root. -/
theorem root_tryDelete_of_error {h : Heap} {t : Trie} {key : List UInt8} {e : TrieError}
    (herr : (tryDelete db fuel h t key).1.1 = .error e) : (tryDelete db fuel h t key).1.2.root = t.root := by
  revert herr
  unfold tryDelete
  dsimp only
  split <;> simp

/-- A failed `TryGet` leaves the trie as it was. -/
theorem tryGet_of_error {h : Heap} {t : Trie} {key : List UInt8} {e : TrieError}
    (herr : (tryGet db fuel h t key).1.1 = .error e) : (tryGet db fuel h t key).1.2 = t := by
  revert herr
  unfold tryGet
  dsimp only
  split
  · rename_i e' he
    simp [he]
  · simp

end Trie

/-! ### Persistence and error atomicity -/

/-- After a call, the trie `t'` in the heap `h'` is `t` as it stood in `h`: the same root, standing for
the same node `n`, with `TryGet` and `Hash` returning what they returned before. -/
structure Unchanged (db : Database) (keccak : List UInt8 → List UInt8) (h : Heap) (t : Trie) (n : Node)
    (h' : Heap) (t' : Trie) : Prop where
  root : t'.root = t.root
  rep : Rep h' t'.root n
  tryGet : ∀ fuel key, (Trie.tryGet db fuel h' t' key).1.1 = (Trie.tryGet db fuel h t key).1.1
  hash : ∀ fuel, (Trie.hash fuel keccak h' t').1.1 = (Trie.hash fuel keccak h t).1.1

/-- A trie keeps its root in a heap that grew: it is unchanged. -/
theorem unchanged_of_grows (db : Database) (keccak : List UInt8 → List UInt8) {h h' : Heap} {t t' : Trie}
    {n : Node} (hb : h.Bounded) (hr : Rep h t.root n) (hg : h.Grows h') (hroot : t'.root = t.root) :
    Unchanged db keccak h t n h' t' := by
  have hr' : Rep h' t'.root n := hroot ▸ hr.mono hg hb
  exact ⟨hroot, hr', fun fuel key => Trie.tryGet_fst_congr db fuel (hg.bounded hb) hb hr' hr key,
    fun fuel => Trie.hash_fst_congr fuel keccak (hg.bounded hb) hb hr' hr⟩

/-- **Persistence.**  A run of `Update`, `Delete`, `Get` and `Hash` calls on a copy of the trie `t`, which
shares `t`'s root, leaves `t` as it was: its root stands for the same node, and `TryGet` and `Hash` on
`t` return what they returned before the run.  Every call copies a node before writing into it. -/
theorem copy_ops_keep_trie (db : Database) (keccak : List UInt8 → List UInt8) (fuel : Nat) {h : Heap}
    {t : Trie} {n : Node} (hb : h.Bounded) (hr : Rep h t.root n) (ops : List Trie.Op) :
    Unchanged db keccak h t n (Trie.run db fuel keccak (h, t) ops).1 t :=
  unchanged_of_grows db keccak hb hr (@Trie.run_grows db fuel keccak ops (h, t) hb) rfl

/-- A heap with one short node, of key `[1, 16]` and value `[7]`, at address 0. -/
def sampleHeap : Heap := (Arena.empty.alloc (.short [1, 16] (.value [7]) newFlag)).2

/-- The runs on a copy of the trie rooted at that node: an update that splits the node, a delete, a
get and a hash. -/
theorem copy_ops_keep_trie_sample :
    sampleHeap.Bounded ∧ Rep sampleHeap (.ptr 0) (.short [1, 16] (.value [7]) newFlag) ∧
      Unchanged ⟨fun _ => none⟩ (fun b => b) sampleHeap ⟨.ptr 0, 0⟩ (.short [1, 16] (.value [7]) newFlag)
        (Trie.run ⟨fun _ => none⟩ 8 (fun b => b) (sampleHeap, ⟨.ptr 0, 0⟩)
          [.update [0x12] [3], .delete [0x1f], .get [0x10], .hash]).1 ⟨.ptr 0, 0⟩ :=
  have hb : sampleHeap.Bounded := Arena.bounded_empty.alloc _
  have hr : Rep sampleHeap (.ptr 0) (.short [1, 16] (.value [7]) newFlag) :=
    .short (Arena.get_alloc_self _ _) (.value _)
  ⟨hb, hr, copy_ops_keep_trie ⟨fun _ => none⟩ (fun b => b) 8 hb hr _⟩

/-- **Error atomicity.**  A `TryUpdate`, `TryDelete` or `TryGet` that fails leaves its trie unchanged.
The trie sets its root only when no error came back, and on the way `insert`, `delete` and `tryGet`
wrote only into objects they allocated, the partial results built before the error among them. -/
theorem failed_ops_keep_trie (db : Database) (keccak : List UInt8 → List UInt8) (fuel : Nat) {h : Heap}
    {t : Trie} {n : Node} (hb : h.Bounded) (hr : Rep h t.root n) (key value : List UInt8) :
    (∀ e, (Trie.tryUpdate db fuel h t key value).1.1 = .error e →
      Unchanged db keccak h t n (Trie.tryUpdate db fuel h t key value).2 (Trie.tryUpdate db fuel h t key value).1.2) ∧
    (∀ e, (Trie.tryDelete db fuel h t key).1.1 = .error e →
      Unchanged db keccak h t n (Trie.tryDelete db fuel h t key).2 (Trie.tryDelete db fuel h t key).1.2) ∧
    (∀ e, (Trie.tryGet db fuel h t key).1.1 = .error e →
      Unchanged db keccak h t n (Trie.tryGet db fuel h t key).2 (Trie.tryGet db fuel h t key).1.2) := by
  refine ⟨fun e herr => ?_, fun e herr => ?_, fun e herr => ?_⟩
  · exact unchanged_of_grows db keccak hb hr (Trie.tryUpdate_grows db fuel hb t key value)
      (Trie.root_tryUpdate_of_error db fuel herr)
  · exact unchanged_of_grows db keccak hb hr (Trie.tryDelete_grows db fuel hb t key)
      (Trie.root_tryDelete_of_error db fuel herr)
  · exact unchanged_of_grows db keccak hb hr (Trie.tryGet_grows db fuel hb t key)
      (by rw [Trie.tryGet_of_error db fuel herr])

/-- A heap with one short node, of key `[1]`, whose child is a hash node the database does not hold. -/
def missingHeap : Heap := (Arena.empty.alloc (.short [1] (.hash [9]) newFlag)).2

-- The update below the short node loads its child and fails with a `MissingNodeError` at the path `[1]`.
example : (Trie.tryUpdate ⟨fun _ => none⟩ 8 missingHeap ⟨.ptr 0, 0⟩ [0x12] [3]).1.1 =
    .error (.missingNode [9] [1]) := by decide

/-- The failed update of that trie, under its short node. -/
theorem failed_ops_keep_trie_missing :
    missingHeap.Bounded ∧ Rep missingHeap (.ptr 0) (.short [1] (.hash [9]) newFlag) ∧
      ((∀ e, (Trie.tryUpdate ⟨fun _ => none⟩ 8 missingHeap ⟨.ptr 0, 0⟩ [0x12] [3]).1.1 = .error e →
        Unchanged ⟨fun _ => none⟩ (fun b => b) missingHeap ⟨.ptr 0, 0⟩ (.short [1] (.hash [9]) newFlag)
          (Trie.tryUpdate ⟨fun _ => none⟩ 8 missingHeap ⟨.ptr 0, 0⟩ [0x12] [3]).2
          (Trie.tryUpdate ⟨fun _ => none⟩ 8 missingHeap ⟨.ptr 0, 0⟩ [0x12] [3]).1.2) ∧
      (∀ e, (Trie.tryDelete ⟨fun _ => none⟩ 8 missingHeap ⟨.ptr 0, 0⟩ [0x12]).1.1 = .error e →
        Unchanged ⟨fun _ => none⟩ (fun b => b) missingHeap ⟨.ptr 0, 0⟩ (.short [1] (.hash [9]) newFlag)
          (Trie.tryDelete ⟨fun _ => none⟩ 8 missingHeap ⟨.ptr 0, 0⟩ [0x12]).2
          (Trie.tryDelete ⟨fun _ => none⟩ 8 missingHeap ⟨.ptr 0, 0⟩ [0x12]).1.2) ∧
      (∀ e, (Trie.tryGet ⟨fun _ => none⟩ 8 missingHeap ⟨.ptr 0, 0⟩ [0x12]).1.1 = .error e →
        Unchanged ⟨fun _ => none⟩ (fun b => b) missingHeap ⟨.ptr 0, 0⟩ (.short [1] (.hash [9]) newFlag)
          (Trie.tryGet ⟨fun _ => none⟩ 8 missingHeap ⟨.ptr 0, 0⟩ [0x12]).2
          (Trie.tryGet ⟨fun _ => none⟩ 8 missingHeap ⟨.ptr 0, 0⟩ [0x12]).1.2)) :=
  have hb : missingHeap.Bounded := Arena.bounded_empty.alloc _
  have hr : Rep missingHeap (.ptr 0) (.short [1] (.hash [9]) newFlag) :=
    .short (Arena.get_alloc_self _ _) (.hash _)
  ⟨hb, hr, failed_ops_keep_trie ⟨fun _ => none⟩ (fun b => b) 8 hb hr [0x12] [3]⟩

end Go420coin.Trie.Pointers
