import Go420coin.Trie.NodeEncoding
import Go420coin.Rlp.Raw

set_option linter.dupNamespace false

/-!
# Decoding stored nodes (`trie/node.go`)

`decodeNode` reads a node back from its RLP encoding: a list of two items is a short node
(`decodeShort`: the key in compact form, then the value when the key ends in the terminator, else a
child reference), a list of seventeen a full node (`decodeFull`: sixteen child references, then the
value).  A child reference (`decodeRef`) is the empty string for no child, a string of 32 bytes for
a hash node, or a list: a node embedded in its parent, which `decodeNode` reads in turn.

An embedded node lies inside the list of its parent, so the recursion ends.  The model counts it
with fuel, and the fuel of `decodeNode` never runs out: `decodeNode` satisfies the recursive
equation of the source, with `decodeNode` itself for the embedded nodes (`decodeNode_eq`).
-/

namespace Go420coin.Trie

/-- The errors of `decodeNode`. -/
inductive DecodeError where
  /-- an error passed on as it is: `io.ErrUnexpectedEOF`, or one of `rlp.Split`'s -/
  | rlp (e : Rlp.Error)
  /-- `decode error: %v`, from `rlp.SplitList` -/
  | decode (e : Rlp.Error)
  | invalidCount (c : Nat)
  | invalidValueNode (e : Rlp.Error)
  | oversized (size : Nat)
  | invalidStringSize (size : Nat)
  /-- `decodeError`: an error and the path to the child it comes from, innermost first -/
  | path (what : DecodeError) (stack : List String)
  deriving Repr, DecidableEq

/-- `wrapError`: add the context to the path of a `decodeError`, or start one. -/
def wrapError : DecodeError → String → DecodeError
  | .path what stack, ctx => .path what (stack ++ [ctx])
  | err, ctx => .path err [ctx]

/-- `hashLen`: the length of a hash. -/
def hashLen : Nat := 32

section Decode

variable (decodeNested : List UInt8 → Except DecodeError Node)

/-- `decodeRef`: the child reference at the start of `buf`, and the bytes after it.  An embedded node
is read by `decodeNested`, from `buf` on. -/
def decodeRef (buf : List UInt8) : Except DecodeError (Node × List UInt8) :=
  match Rlp.split buf with
  | .error e => .error (.rlp e)
  | .ok (kind, val, rest) =>
    if kind = .list then
      -- "The encoding must be smaller than a hash in order to be valid."
      let size := buf.length - rest.length
      if size > hashLen then .error (.oversized size)
      else (decodeNested buf).map fun n => (n, rest)
    else if kind = .string ∧ val.length = 0 then .ok (.nil, rest)
    else if kind = .string ∧ val.length = 32 then .ok (.hash val, rest)
    else .error (.invalidStringSize val.length)

/-- `decodeShort`: the key in compact form, then the value if the key ends in the terminator, else a
child reference. -/
def decodeShort (hash : Option (List UInt8)) (elems : List UInt8) : Except DecodeError Node :=
  match Rlp.splitString elems with
  | .error e => .error (.rlp e)
  | .ok (kbuf, rest) =>
    let flag : NodeFlag := ⟨hash, false⟩
    let key := compactToHex kbuf
    if hasTerm key then
      match Rlp.splitString rest with
      | .error e => .error (.invalidValueNode e)
      | .ok (val, _) => .ok (.short key (.value val) flag)
    else
      match decodeRef decodeNested rest with
      | .error e => .error (wrapError e "val")
      | .ok (r, _) => .ok (.short key r flag)

/-- The loop of `decodeFull` from child `i` on, with `k` children to go: the child references one
after another, an error wrapped with the index of its child. -/
def decodeChildren : Nat → Nat → List UInt8 → Except DecodeError (List Node × List UInt8)
  | _, 0, elems => .ok ([], elems)
  | i, k + 1, elems =>
    match decodeRef decodeNested elems with
    | .error e => .error (wrapError e ("[" ++ toString i ++ "]"))
    | .ok (cld, rest) =>
      match decodeChildren (i + 1) k rest with
      | .error e => .error e
      | .ok (cs, elems) => .ok (cld :: cs, elems)

/-- `decodeFull`: sixteen child references, then the value, kept if it is not empty. -/
def decodeFull (hash : Option (List UInt8)) (elems : List UInt8) : Except DecodeError Node :=
  match decodeChildren decodeNested 0 16 elems with
  | .error e => .error e
  | .ok (children, elems) =>
    match Rlp.splitString elems with
    | .error e => .error (.rlp e)
    | .ok (val, _) =>
      .ok (.full (fun i => if i.val < 16 then children.getD i.val .nil
        else if val.length > 0 then .value val else .nil) ⟨hash, false⟩)

end Decode

/-- `decodeNode`, with `fuel` levels of embedded nodes.  The count is `0` when `CountValues` fails. -/
def decodeNodeWith : Nat → Option (List UInt8) → List UInt8 → Except DecodeError Node
  | 0, _, _ => .error (.rlp .unexpectedEOF)
  | fuel + 1, hash, buf =>
    if buf.length = 0 then .error (.rlp .unexpectedEOF)
    else
      match Rlp.splitList buf with
      | .error e => .error (.decode e)
      | .ok (elems, _) =>
        let c := match Rlp.countValues elems with
          | .ok c => c
          | .error _ => 0
        if c = 2 then (decodeShort (decodeNodeWith fuel none) hash elems).mapError (wrapError · "short")
        else if c = 17 then (decodeFull (decodeNodeWith fuel none) hash elems).mapError (wrapError · "full")
        else .error (.invalidCount c)

/-- `decodeNode`: the node encoded at the start of `buf`, its flags holding `hash`.  Each embedded node
is shorter than its parent, so `buf.length` levels are enough. -/
def decodeNode (hash : Option (List UInt8)) (buf : List UInt8) : Except DecodeError Node :=
  decodeNodeWith buf.length hash buf

/-! ### What a stored node decodes to -/

section Decoded

variable (keccak : List UInt8 → List UInt8)

/-- How a decoded parent holds its child `c`, given what `c` decodes to on its own (`d`): a node with
children by the hash of its encoding from 32 bytes on, and as `d` below that, where the parent embeds
it; anything else as it is. -/
def refOf (c d : Node) : Node :=
  if c.hasChildren then (if (encoding keccak c).length < 32 then d else .hash (keccak (encoding keccak c))) else c

/-- What decoding the hasher's encoding of a node gives back: the same keys and values, flags that
hold the given hash and are clean, and each child as `refOf` holds it. -/
def decoded (hash : Option (List UInt8)) : Node → Node
  | .short k c _ => .short k (refOf keccak c (decoded none c)) ⟨hash, false⟩
  | .full cs _ => .full (fun i => if i.val < 16 then refOf keccak (cs i) (decoded none (cs i)) else cs i) ⟨hash, false⟩
  | n => n

end Decoded

/-- Every value the node holds is non-empty: `Update` with an empty value deletes its key. -/
def NonEmptyValues (n : Node) : Prop := ∀ q v, n.lookup q = some v → v ≠ []

/-- The node and every node under it. -/
def Node.subnodes : Node → List Node
  | .short k c f => .short k c f :: c.subnodes
  | .full cs f => .full cs f :: (List.finRange 17).flatMap fun i => (cs i).subnodes
  | n => [n]

/-! ### The fuel is enough -/

section Congr

variable {dec₁ dec₂ : List UInt8 → Except DecodeError Node}

theorem decodeRef_rest_lt {dec : List UInt8 → Except DecodeError Node} {buf rest : List UInt8} {n : Node}
    (h : decodeRef dec buf = .ok (n, rest)) : rest.length < buf.length := by
  unfold decodeRef at h
  rcases hs : Rlp.split buf with e | ⟨kind, val, r⟩
  · rw [hs] at h
    cases h
  · rw [hs] at h
    have hr := Rlp.split_rest_lt hs
    dsimp only at h
    split_ifs at h
    · rcases hd : dec buf with e | m <;> rw [hd] at h <;> cases h
      exact hr
    all_goals cases h; exact hr

theorem decodeRef_congr {buf : List UInt8} (h : dec₁ buf = dec₂ buf) : decodeRef dec₁ buf = decodeRef dec₂ buf := by
  unfold decodeRef
  rw [h]

/-- `decodeShort` reads embedded nodes from within `elems` only. -/
theorem decodeShort_congr {elems : List UInt8} (h : ∀ b : List UInt8, b.length ≤ elems.length → dec₁ b = dec₂ b)
    (hash : Option (List UInt8)) : decodeShort dec₁ hash elems = decodeShort dec₂ hash elems := by
  unfold decodeShort
  rcases hs : Rlp.splitString elems with e | ⟨kbuf, rest⟩
  · rfl
  · dsimp only
    rw [decodeRef_congr (h rest (Rlp.splitString_rest_lt hs).le)]

theorem decodeChildren_congr : ∀ (i k : Nat) {elems : List UInt8},
    (∀ b : List UInt8, b.length ≤ elems.length → dec₁ b = dec₂ b) →
      decodeChildren dec₁ i k elems = decodeChildren dec₂ i k elems
  | _, 0, _, _ => rfl
  | i, k + 1, elems, h => by
    simp only [decodeChildren]
    rw [decodeRef_congr (h elems le_rfl)]
    rcases hr : decodeRef dec₂ elems with e | ⟨cld, rest⟩
    · rfl
    · dsimp only
      rw [decodeChildren_congr (i + 1) k fun b hb => h b (hb.trans (decodeRef_rest_lt hr).le)]

theorem decodeFull_congr {elems : List UInt8} (h : ∀ b : List UInt8, b.length ≤ elems.length → dec₁ b = dec₂ b)
    (hash : Option (List UInt8)) : decodeFull dec₁ hash elems = decodeFull dec₂ hash elems := by
  unfold decodeFull
  rw [decodeChildren_congr 0 16 h]

/-- Fuel beyond the length of the input changes nothing. -/
theorem decodeNodeWith_congr : ∀ {f g : Nat} (hash : Option (List UInt8)) {buf : List UInt8},
    buf.length ≤ f → buf.length ≤ g → decodeNodeWith f hash buf = decodeNodeWith g hash buf
  | 0, 0, _, _, _, _ => rfl
  | 0, _ + 1, _, buf, hf, _ => by
    have hb : buf.length = 0 := by omega
    simp [decodeNodeWith, hb]
  | _ + 1, 0, _, buf, _, hg => by
    have hb : buf.length = 0 := by omega
    simp [decodeNodeWith, hb]
  | f + 1, g + 1, hash, buf, hf, hg => by
    simp only [decodeNodeWith]
    split_ifs with h0
    · rfl
    rcases hs : Rlp.splitList buf with e | ⟨elems, rest⟩
    · rfl
    · -- the embedded nodes lie within the contents of the list, shorter than the input
      have hlt := Rlp.splitList_content_lt hs
      have hagree : ∀ b : List UInt8, b.length ≤ elems.length → decodeNodeWith f none b = decodeNodeWith g none b :=
        fun b hb => decodeNodeWith_congr none (by omega) (by omega)
      dsimp only
      rw [decodeShort_congr hagree, decodeFull_congr hagree]

/-- `decodeNode` is the function of the source: its recursion, with `decodeNode` itself for the embedded
nodes. -/
theorem decodeNode_eq (hash : Option (List UInt8)) (buf : List UInt8) :
    decodeNode hash buf =
      if buf.length = 0 then .error (.rlp .unexpectedEOF)
      else
        match Rlp.splitList buf with
        | .error e => .error (.decode e)
        | .ok (elems, _) =>
          let c := match Rlp.countValues elems with
            | .ok c => c
            | .error _ => 0
          if c = 2 then (decodeShort (decodeNode none) hash elems).mapError (wrapError · "short")
          else if c = 17 then (decodeFull (decodeNode none) hash elems).mapError (wrapError · "full")
          else .error (.invalidCount c) := by
  rcases buf with _ | ⟨x, r⟩
  · rfl
  · have hagree : ∀ elems : List UInt8, elems.length < (x :: r).length →
        ∀ b : List UInt8, b.length ≤ elems.length → decodeNodeWith r.length none b = decodeNode none b :=
      fun elems he b hb => decodeNodeWith_congr none (by simp at he; omega) le_rfl
    have h0 : ¬ (x :: r).length = 0 := by simp
    rw [decodeNode, List.length_cons, decodeNodeWith, if_neg h0, if_neg (Nat.succ_ne_zero _)]
    rcases hs : Rlp.splitList (x :: r) with e | ⟨elems, rest⟩
    · rfl
    · have he := hagree elems (Rlp.splitList_content_lt hs)
      dsimp only
      rw [decodeShort_congr he, decodeFull_congr he]

end Congr

/-! ### Decoding encoded values -/

section Encoded

variable {dec : List UInt8 → Except DecodeError Node}

private theorem fits_of_mem_list {vs : List Rlp.Value} (hf : (Rlp.Value.list vs).fits) : ∀ v ∈ vs, v.fits := by
  simp only [Rlp.Value.fits, Bool.and_eq_true] at hf
  exact Rlp.fitsList_iff.1 hf.2

/-- `decodeNode` of an encoded list: a short node for two items, a full node for seventeen. -/
theorem decodeNode_encode_list {vs : List Rlp.Value} (hf : (Rlp.Value.list vs).fits) (hash : Option (List UInt8))
    (rest : List UInt8) :
    decodeNode hash (Rlp.encode (.list vs) ++ rest) =
      if vs.length = 2 then (decodeShort (decodeNode none) hash (Rlp.encodeList vs)).mapError (wrapError · "short")
      else if vs.length = 17 then (decodeFull (decodeNode none) hash (Rlp.encodeList vs)).mapError (wrapError · "full")
      else .error (.invalidCount vs.length) := by
  have hne : (Rlp.encode (.list vs) ++ rest).length ≠ 0 := by
    have := Rlp.length_lengthPrefix_pos 0xC0 (Rlp.encodeList vs).length
    simp only [Rlp.encode, List.length_append]
    omega
  rw [decodeNode_eq, if_neg hne, Rlp.splitList_encode hf rest]
  dsimp only
  rw [Rlp.countValues_encodeList (fits_of_mem_list hf)]

theorem decodeRef_encode_empty (rest : List UInt8) : decodeRef dec (Rlp.encode (.bytes []) ++ rest) = .ok (.nil, rest) := by
  rw [decodeRef, Rlp.split_encode_string (by simp) (by simp) rest]
  rfl

theorem decodeRef_encode_hash {h : List UInt8} (hl : h.length = 32) (rest : List UInt8) :
    decodeRef dec (Rlp.encode (.bytes h) ++ rest) = .ok (.hash h, rest) := by
  rw [decodeRef, Rlp.split_encode_string (by omega) (by simp [hl]) rest]
  simp [hl]

/-- A list is read as an embedded node from where it starts if it takes at most `hashLen` bytes,
and refused as oversized if it takes more. -/
theorem decodeRef_list {buf content rest : List UInt8} (h : Rlp.split buf = .ok (.list, content, rest)) :
    decodeRef dec buf =
      if hashLen < buf.length - rest.length then .error (.oversized (buf.length - rest.length))
      else (dec buf).map fun n => (n, rest) := by
  rw [decodeRef, h]
  rfl

/-- A short node whose key is a hex key holds a value. -/
theorem decodeShort_leaf {k v : List UInt8} (hk : HexKey k) (hkl : (hexToCompact k).length < 2 ^ 64)
    (hvl : v.length < 2 ^ 64) (hash : Option (List UInt8)) :
    decodeShort dec hash (Rlp.encodeList [.bytes (hexToCompact k), .bytes v]) = .ok (.short k (.value v) ⟨hash, false⟩) := by
  simp only [Rlp.encodeList]
  rw [decodeShort, Rlp.splitString_encode hkl]
  dsimp only
  rw [compactToHex_hexToCompact_hexKey hk, if_pos hk.hasTerm_eq_true, Rlp.splitString_encode hvl]

/-- A short node whose key is a run of nibbles holds a child reference. -/
theorem decodeShort_ext {k : List UInt8} (hk : Nibbles k) (hkl : (hexToCompact k).length < 2 ^ 64) {cv : Rlp.Value}
    {r : Node} (hr : decodeRef dec (Rlp.encode cv ++ []) = .ok (r, [])) (hash : Option (List UInt8)) :
    decodeShort dec hash (Rlp.encodeList [.bytes (hexToCompact k), cv]) = .ok (.short k r ⟨hash, false⟩) := by
  simp only [Rlp.encodeList]
  rw [decodeShort, Rlp.splitString_encode hkl]
  dsimp only
  rw [compactToHex_hexToCompact_nibbles hk, if_neg (by simp [hk.hasTerm_eq_false]), hr]

/-- `decodeFull`'s loop reads one child reference after another. -/
theorem decodeChildren_encodeList : ∀ {vs : List Rlp.Value} {ns : List Node} (i : Nat) (rest : List UInt8),
    List.Forall₂ (fun v n => ∀ rest, decodeRef dec (Rlp.encode v ++ rest) = .ok (n, rest)) vs ns →
      decodeChildren dec i vs.length (Rlp.encodeList vs ++ rest) = .ok (ns, rest)
  | [], [], _, _, .nil => rfl
  | _ :: _, _ :: _, i, rest, .cons hv hvs => by
    rw [List.length_cons, decodeChildren, Rlp.encodeList, List.append_assoc, hv]
    dsimp only
    rw [decodeChildren_encodeList (i + 1) rest hvs]

/-- A full node: sixteen child references, then the value slot. -/
theorem decodeFull_encode {ws : List Rlp.Value} {ns : List Node}
    (hws : List.Forall₂ (fun v n => ∀ rest, decodeRef dec (Rlp.encode v ++ rest) = .ok (n, rest)) ws ns)
    (hlen : ws.length = 16) {slot : Node} (hslot : IsSlot slot) (hne : NonEmptyValues slot)
    (hsf : slot.slotValue.fits) (hash : Option (List UInt8)) :
    decodeFull dec hash (Rlp.encodeList (ws ++ [slot.slotValue])) =
      .ok (.full (fun i => if i.val < 16 then ns.getD i.val .nil else slot) ⟨hash, false⟩) := by
  rw [decodeFull, Rlp.encodeList_append, ← hlen, decodeChildren_encodeList 0 _ hws]
  dsimp only
  rcases hslot with rfl | ⟨v, rfl⟩
  · -- no value: the empty string
    rw [Node.slotValue_nil, Rlp.encodeList, Rlp.encodeList, Rlp.splitString_encode (by simp)]
    rfl
  · -- a value, which is not empty
    have hv : v ≠ [] := hne [] v (by simp [ListMap.single])
    have hvl : v.length < 2 ^ 64 := by simpa [Node.slotValue, Node.toValue, Node.isNil, Rlp.Value.fits] using hsf
    rw [show (Node.value v).slotValue = .bytes v from rfl, Rlp.encodeList, Rlp.encodeList, Rlp.splitString_encode hvl]
    simp [List.length_pos_iff, hv]

end Encoded

/-! ### The round trip -/

section RoundTrip

variable {keccak : List UInt8 → List UInt8}

theorem Canonical.hasChildren {n : Node} (hc : Canonical n) (hn : n ≠ .nil) : n.hasChildren := by
  cases hc with
  | nil => exact absurd rfl hn
  | leaf | ext | full => rfl

/-- The collapsed form of a canonical node is a list. -/
theorem exists_toValue_collapse {n : Node} (hc : Canonical n) (hn : n ≠ .nil) :
    ∃ vs, (collapse keccak n).toValue = .list vs := by
  cases hc with
  | nil => exact absurd rfl hn
  | leaf | ext => exact ⟨_, toValue_collapse_short ..⟩
  | full => exact ⟨_, toValue_collapse_full ..⟩

theorem NonEmptyValues.short {k : List UInt8} {c : Node} {f : NodeFlag} (h : NonEmptyValues (.short k c f)) :
    NonEmptyValues c :=
  fun q v hq => h (k ++ q) v (by simpa using hq)

theorem NonEmptyValues.full {cs : Fin 17 → Node} {f : NodeFlag} (h : NonEmptyValues (.full cs f)) (i : Fin 17) :
    NonEmptyValues (cs i) :=
  fun q v hq => h (i.val.toUInt8 :: q) v (by rwa [Node.lookup_full_fin])

/-- A parent's encoding holds a canonical child by the hash of the child's encoding from 32 bytes on,
and below that embeds it, to be decoded as `dec` decodes it. -/
theorem decodeRef_child (hk : ∀ d, (keccak d).length = 32) {c : Node} (hc : Canonical c) (hn : c ≠ .nil)
    (hfit : (collapse keccak c).toValue.fits) {dec : List UInt8 → Except DecodeError Node} {d : Node}
    {rest : List UInt8} (hd : (encoding keccak c).length < 32 → dec (encoding keccak c ++ rest) = .ok d) :
    decodeRef dec (Rlp.encode (Hasher.hash keccak c false).1.toValue ++ rest) = .ok (refOf keccak c d, rest) := by
  have hch := hc.hasChildren hn
  rcases hash_toValue_cases hc hn hfit with ⟨h32, he, henc⟩ | ⟨h32, he⟩
  · -- embedded: the list of its collapsed form, shorter than a hash
    obtain ⟨vs, hvs⟩ : ∃ vs, (collapse keccak c).toValue = .list vs := exists_toValue_collapse hc hn
    rw [hvs] at henc hfit
    have hsz : (Rlp.encode (.list vs) ++ rest).length - rest.length = (encoding keccak c).length := by
      rw [henc, List.length_append]
      omega
    rw [he, hvs, decodeRef_list (Rlp.split_encode_list hfit rest), hsz, if_neg (by unfold hashLen; omega), ← henc,
      hd h32]
    simp only [refOf, hch, h32, if_true]
    rfl
  · -- hashed: a string of 32 bytes
    rw [he, show (Node.hash (keccak (encoding keccak c))).toValue = .bytes (keccak (encoding keccak c)) from rfl,
      decodeRef_encode_hash (hk _) rest]
    simp [refOf, hch, show ¬ (encoding keccak c).length < 32 by omega]

/-- The hasher's encoding of a canonical node is read back as the node with the same keys, the same
values and the child references the encoding holds.  Induction on the node: an embedded child is
decoded from within its parent's list, by the induction hypothesis for any bytes after it. -/
theorem decodeNode_encoding (hk : ∀ d, (keccak d).length = 32) {n : Node} (hc : Canonical n) (hs : Small n)
    (hv : NonEmptyValues n) (hn : n ≠ .nil) (hash : Option (List UInt8)) (rest : List UInt8) :
    decodeNode hash (encoding keccak n ++ rest) = .ok (decoded keccak hash n) := by
  induction hc generalizing hash rest with
  | nil => exact absurd rfl hn
  | @leaf k v hkey =>
    have hfit := fits_collapse hk (.leaf hkey) hs
    rw [encoding, Rlp.encodeToBytes_eq_encode hfit, toValue_collapse_short]
    rw [toValue_collapse_short] at hfit
    simp only [Node.hasChildren, Bool.false_eq_true, if_false, Node.toValue] at hfit ⊢
    obtain ⟨hkl, hvl⟩ : (hexToCompact k).length < 2 ^ 64 ∧ v.length < 2 ^ 64 := by
      have hl := fits_of_mem_list hfit
      exact ⟨by simpa [Rlp.Value.fits] using hl (.bytes (hexToCompact k)) (by simp),
        by simpa [Rlp.Value.fits] using hl (.bytes v) (by simp)⟩
    rw [decodeNode_encode_list hfit, if_pos (by simp), decodeShort_leaf hkey hkl hvl]
    rfl
  | @ext k cs hne hnib hfull ih =>
    have hfit := fits_collapse hk (.ext hne hnib hfull) hs
    have hchild := decodeRef_child hk hfull (by simp) (fits_collapse hk hfull hs.short)
      fun _ => ih hs.short hv.short (by simp) none []
    rw [encoding, Rlp.encodeToBytes_eq_encode hfit, toValue_collapse_short]
    rw [toValue_collapse_short] at hfit
    simp only [Node.hasChildren, if_true] at hfit ⊢
    have hkl : (hexToCompact k).length < 2 ^ 64 := by
      simpa [Rlp.Value.fits] using fits_of_mem_list hfit (.bytes (hexToCompact k)) (by simp)
    rw [decodeNode_encode_list hfit, if_pos (by simp), decodeShort_ext hnib hkl hchild]
    rfl
  | @full cs hcs hslot hlive ih =>
    have hfit := fits_collapse hk (.full hcs hslot hlive) hs
    -- each nibble child: nothing, the hash of its encoding, or the child embedded
    have hkids : List.Forall₂ (fun v n => ∀ rest, decodeRef (decodeNode none) (Rlp.encode v ++ rest) = .ok (n, rest))
        ((List.finRange 16).map fun i => (collapsedChild keccak cs i).slotValue)
        ((List.finRange 16).map fun i => refOf keccak (cs i.castSucc) (decoded keccak none (cs i.castSucc))) := by
      rw [List.forall₂_map_left_iff, List.forall₂_map_right_iff]
      refine List.forall₂_same.2 fun i _ rest => ?_
      by_cases h0 : cs i.castSucc = .nil
      · simp only [collapsedChild, h0, Node.isNil, if_true, Node.slotValue_nilValueNode]
        exact decodeRef_encode_empty rest
      · have hi : (i.castSucc : Fin 17).val ≠ 16 := by simp; omega
        have hnil : (cs i.castSucc).isNil = false := by cases h : cs i.castSucc <;> simp_all [Node.isNil]
        simp only [collapsedChild, hnil, Bool.false_eq_true, if_false]
        rw [Node.slotValue_of_ne_nil (hash_ne_nil (hcs _ hi) h0)]
        exact decodeRef_child hk (hcs _ hi) h0 (fits_collapse hk (hcs _ hi) (hs.full _))
          fun _ => ih _ hi (hs.full _) (hv.full _) h0 none rest
    rw [encoding, Rlp.encodeToBytes_eq_encode hfit, toValue_collapse_full]
    rw [toValue_collapse_full] at hfit
    have hsf : (cs 16).slotValue.fits := fits_of_mem_list hfit _ (by simp)
    rw [decodeNode_encode_list hfit, if_neg (by simp), if_pos (by simp),
      decodeFull_encode hkids (by simp) hslot (hv.full 16) hsf]
    -- the sixteen references, in the places `decoded` has them
    have hget : ∀ i : Fin 17, (if i.val < 16 then (((List.finRange 16).map fun j =>
        refOf keccak (cs j.castSucc) (decoded keccak none (cs j.castSucc))).getD i.val .nil) else cs 16) =
        if i.val < 16 then refOf keccak (cs i) (decoded keccak none (cs i)) else cs i := by
      intro i
      split_ifs with hi
      · simp [List.getD_eq_getElem?_getD, hi]
      · rw [show i = 16 from Fin.ext (by omega)]
    simp only [Except.mapError, decoded, hget]

end RoundTrip

/-! ### The nodes of a trie built by updates -/

section Built

theorem lookup_leaf (k v : List UInt8) (f : NodeFlag) :
    (Node.short k (.value v) f).lookup = Function.update (fun _ => none) k (some v) := by
  rw [Node.lookup_short, Node.lookup_value, ListMap.under_single]

theorem Small.leaf {k v : List UInt8} (hk : k.length < 2 ^ 62) (hv : v.length < 2 ^ 62) (f : NodeFlag) :
    Small (.short k (.value v) f) := by
  intro q w hq
  rw [lookup_leaf] at hq
  by_cases hqk : q = k
  · subst hqk
    simp only [Function.update_self, Option.some.injEq] at hq
    exact ⟨hk, hq ▸ hv⟩
  · simp [Function.update_of_ne hqk] at hq

theorem NonEmptyValues.leaf (k : List UInt8) {v : List UInt8} (hv : v ≠ []) (f : NodeFlag) :
    NonEmptyValues (.short k (.value v) f) := by
  intro q w hq
  rw [lookup_leaf] at hq
  by_cases hqk : q = k
  · subst hqk
    simp only [Function.update_self, Option.some.injEq] at hq
    exact hq ▸ hv
  · simp [Function.update_of_ne hqk] at hq

/-- The nodes with children under a canonical node are canonical, and hold what it holds. -/
theorem mem_subnodes {n m : Node} (hc : Canonical n) (hs : Small n) (hv : NonEmptyValues n) (hm : m ∈ n.subnodes)
    (hmc : m.hasChildren) : Canonical m ∧ Small m ∧ NonEmptyValues m ∧ m ≠ .nil := by
  induction hc with
  | nil =>
    obtain rfl : m = .nil := by simpa [Node.subnodes] using hm
    simp [Node.hasChildren] at hmc
  | @leaf k v hkey =>
    simp only [Node.subnodes, List.mem_cons, List.not_mem_nil, or_false] at hm
    rcases hm with rfl | rfl
    · exact ⟨.leaf hkey, hs, hv, by simp⟩
    · simp [Node.hasChildren] at hmc
  | @ext k cs hne hnib hfull ih =>
    rw [Node.subnodes, List.mem_cons] at hm
    rcases hm with rfl | hm
    · exact ⟨.ext hne hnib hfull, hs, hv, by simp⟩
    · exact ih hs.short hv.short hm
  | @full cs hcs hslot hlive ih =>
    rw [Node.subnodes, List.mem_cons] at hm
    rcases hm with rfl | hm
    · exact ⟨.full hcs hslot hlive, hs, hv, by simp⟩
    · obtain ⟨i, -, hi⟩ := List.mem_flatMap.1 hm
      by_cases h16 : i.val = 16
      · -- the value slot holds no node with children
        obtain rfl : i = 16 := Fin.ext h16
        rcases hslot with h0 | ⟨v, hv'⟩
        · rw [h0] at hi
          obtain rfl : m = .nil := by simpa [Node.subnodes] using hi
          simp [Node.hasChildren] at hmc
        · rw [hv'] at hi
          obtain rfl : m = .value v := by simpa [Node.subnodes] using hi
          simp [Node.hasChildren] at hmc
      · exact ih i h16 (hs.full i) (hv.full i) hi

/-- What a trie built from an empty one holds at a key is what the last operation on the key wrote. -/
theorem lookup_runOps_empty {db : Database} {ops : List Op} {q v : List UInt8}
    (h : ((Trie.empty db).runOps ops).root.lookup q = some v) :
    ∃ op ∈ ops, keybytesToHex op.key = q ∧ op.written = some v := by
  rw [(Trie.runOps_spec (t := Trie.empty db) ops Canonical.nil).2, Store.applyWrites_apply] at h
  cases hl : (ops.filter fun op => keybytesToHex op.key = q).getLast? with
  | none => simp [hl, Trie.empty] at h
  | some op =>
    rw [hl] at h
    have hmem := List.mem_filter.1 (List.mem_of_getLast? hl)
    exact ⟨op, hmem.1, by simpa using hmem.2, by simpa using h⟩

theorem small_runOps (db : Database) {ops : List Op}
    (hops : ∀ op ∈ ops, op.key.length < 2 ^ 60 ∧ ∀ v, op.written = some v → v.length < 2 ^ 62) :
    Small ((Trie.empty db).runOps ops).root := by
  intro q v h
  obtain ⟨op, hop, rfl, hw⟩ := lookup_runOps_empty h
  obtain ⟨hkl, hvl⟩ := hops op hop
  rw [length_keybytesToHex]
  exact ⟨by omega, hvl v hw⟩

theorem nonEmptyValues_runOps (db : Database) (ops : List Op) : NonEmptyValues ((Trie.empty db).runOps ops).root := by
  intro q v h
  obtain ⟨op, -, -, hw⟩ := lookup_runOps_empty h
  cases op with
  | update k val =>
    simp only [Op.written] at hw
    split_ifs at hw with h0
    cases hw
    exact h0
  | delete k => cases hw

end Built

/-! ### The limit on embedded nodes -/

section Limit

variable (keccak : List UInt8 → List UInt8)

/-- A canonical node of exactly 32 bytes, embedded in a short node, is read: `decodeRef` refuses
only what is longer than `hashLen`. -/
theorem decodeNode_embedded_thirtyTwo (hk : ∀ d, (keccak d).length = 32) {k : List UInt8} (hkn : Nibbles k)
    (hkl : k.length < 2 ^ 60) {n : Node} (hc : Canonical n) (hs : Small n) (hv : NonEmptyValues n) (hn : n ≠ .nil)
    (h32 : (encoding keccak n).length = 32) (hash : Option (List UInt8)) :
    decodeNode hash (Rlp.encode (.list [.bytes (hexToCompact k), (collapse keccak n).toValue])) =
      .ok (.short k (decoded keccak none n) ⟨hash, false⟩) := by
  have hfit := fits_collapse hk hc hs
  have henc : encoding keccak n = Rlp.encode (collapse keccak n).toValue := Rlp.encodeToBytes_eq_encode hfit
  obtain ⟨vs, hvs⟩ : ∃ vs, (collapse keccak n).toValue = .list vs := exists_toValue_collapse hc hn
  have hck : (hexToCompact k).length < 2 ^ 60 + 1 := (length_hexToCompact_le k).trans_lt (by omega)
  have hchild : decodeRef (decodeNode none) (Rlp.encode (collapse keccak n).toValue ++ []) =
      .ok (decoded keccak none n, []) := by
    have hsz : (Rlp.encode (.list vs) ++ []).length - ([] : List UInt8).length = 32 := by
      rw [List.append_nil, ← hvs, ← henc, h32]
      rfl
    rw [hvs, decodeRef_list (Rlp.split_encode_list (hvs ▸ hfit) []), hsz, if_neg (by unfold hashLen; omega), ← hvs,
      ← henc, decodeNode_encoding hk hc hs hv hn none []]
    rfl
  have hlist : (Rlp.Value.list [.bytes (hexToCompact k), (collapse keccak n).toValue]).fits := by
    have e₁ := Rlp.length_encode_bytes_le (b := hexToCompact k) (by omega)
    refine fits_list ?_ ?_
    · simp only [List.mem_cons, List.not_mem_nil, or_false]
      rintro _ (rfl | rfl)
      · exact fits_bytes (by omega)
      · exact hfit
    · simp only [Rlp.encodeList, List.append_nil, List.length_append, ← henc, h32]
      omega
  rw [← List.append_nil (Rlp.encode _), decodeNode_encode_list hlist, if_pos (by simp),
    decodeShort_ext hkn (by omega) hchild]
  rfl

/-- The node codec as the code has it.  Every node with children of a trie built by updates and
deletes is read back from the hasher's encoding as the node with the same keys, the same values and
the child references the encoding holds.  A child list that `decodeRef` meets is refused as oversized
when it takes more than `hashLen` bytes and read otherwise, so a node of exactly 32 bytes embedded in
its parent is read. -/
theorem node_codec_embedded_limit (hk : ∀ d, (keccak d).length = 32) :
    (∀ (db : Database) (ops : List Op),
      (∀ op ∈ ops, op.key.length < 2 ^ 60 ∧ ∀ v, op.written = some v → v.length < 2 ^ 62) →
      ∀ m ∈ ((Trie.empty db).runOps ops).root.subnodes, m.hasChildren →
        ∀ hash, decodeNode hash (encoding keccak m) = .ok (decoded keccak hash m)) ∧
    (∀ (dec : List UInt8 → Except DecodeError Node) (buf content rest : List UInt8),
      Rlp.split buf = .ok (.list, content, rest) →
        (hashLen < buf.length - rest.length →
          decodeRef dec buf = .error (.oversized (buf.length - rest.length))) ∧
        (buf.length - rest.length ≤ hashLen → decodeRef dec buf = (dec buf).map fun n => (n, rest))) ∧
    (∀ (k : List UInt8) (n : Node) (hash : Option (List UInt8)), Nibbles k → k.length < 2 ^ 60 →
      Canonical n → Small n → NonEmptyValues n → n ≠ .nil → (encoding keccak n).length = 32 →
        decodeNode hash (Rlp.encode (.list [.bytes (hexToCompact k), (collapse keccak n).toValue])) =
          .ok (.short k (decoded keccak none n) ⟨hash, false⟩)) := by
  refine ⟨?_, ?_, fun k n hash hkn hkl hc hs hv hn h32 => decodeNode_embedded_thirtyTwo keccak hk hkn hkl hc hs hv hn h32 hash⟩
  · intro db ops hops m hm hmc hash
    have hc := (Trie.runOps_spec (t := Trie.empty db) ops Canonical.nil).1
    obtain ⟨hcm, hsm, hvm, hnm⟩ := mem_subnodes hc (small_runOps db hops) (nonEmptyValues_runOps db ops) hm hmc
    simpa using decodeNode_encoding hk hcm hsm hvm hnm hash []
  · intro dec buf content rest h
    rw [decodeRef_list h]
    exact ⟨fun hlt => if_pos hlt, fun hle => if_neg (by omega)⟩

theorem node_codec_embedded_limit_thirtyTwo :
    (encoding (fun _ => List.replicate 32 0) (.short [16] (.value (List.replicate 29 1)) newFlag)).length = 32 ∧
      decodeNode none (Rlp.encode (.list [.bytes (hexToCompact [1]),
        (collapse (fun _ => List.replicate 32 0) (.short [16] (.value (List.replicate 29 1)) newFlag)).toValue])) =
      .ok (.short [1] (decoded (fun _ => List.replicate 32 0) none (.short [16] (.value (List.replicate 29 1)) newFlag))
        ⟨none, false⟩) :=
  ⟨by decide, (node_codec_embedded_limit _ fun _ => by simp).2.2 [1] _ none (fun x hx => by simp at hx; subst hx; decide)
    (by decide) (.leaf .term) (Small.leaf (by decide) (by simp) _) (NonEmptyValues.leaf _ (by simp) _) (by simp)
    (by decide)⟩

end Limit

end Go420coin.Trie
