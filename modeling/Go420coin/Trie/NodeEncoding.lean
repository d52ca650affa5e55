import Go420coin.Trie.Committer
import Go420coin.Lib.Except

set_option linter.dupNamespace false

/-!
# What the hasher encodes and the committer stores

`Hasher.hash` encodes a node in its collapsed form (`collapse`: the key in compact form, each child
replaced by what hashing it gave), and a parent refers to a node by `ref`: its encoding when that is
shorter than 32 bytes, else the hash of the encoding.  The nodes stored on their own, under their
hash, are those that encode to 32 bytes or more (`storedNodes`, children first).

For a canonical node whose keys and values are shorter than `2 ^ 62` (`Small`), every collapsed
node is within the encoder's sizes (`fits_collapse`), so its encoding is the RLP encoding `encode`
of its value, and a parent holds a child as the bytes of its hash or as its collapsed value of fewer
than 32 bytes (`hash_toValue_cases`).  `commit_hash` says what `Commit` inserts into the node
database: the stored nodes, and the root under its hash whatever its size.
-/

namespace Go420coin.Trie

open ListMap

variable (keccak : List UInt8 → List UInt8)

/-- The node `Hasher.hash` encodes: the key in compact form, each child replaced by what hashing it
gives, and a `nil` nibble child by `nilValueNode`. -/
def collapse : Node → Node
  | .short k c f => .short (hexToCompact k) (if c.hasChildren then (Hasher.hash keccak c false).1 else c) f
  | .full cs f =>
    .full (fun i => if i.val < 16 then (if (cs i).isNil then nilValueNode else (Hasher.hash keccak (cs i) false).1)
      else cs i) f
  | n => n

/-- The RLP encoding of the collapsed node, as the hasher computes it. -/
def encoding (n : Node) : List UInt8 := Rlp.encodeToBytes (collapse keccak n).toValue

/-- How a parent refers to a node: by its encoding when shorter than 32 bytes, else by its hash. -/
def ref (n : Node) : List UInt8 :=
  if (encoding keccak n).length < 32 then encoding keccak n else keccak (encoding keccak n)

/-- The pair of hash and encoding under which the node is stored, if it encodes to 32 bytes or more. -/
def ownPair (n : Node) : List (List UInt8 × List UInt8) :=
  if (encoding keccak n).length < 32 then [] else [(keccak (encoding keccak n), encoding keccak n)]

/-- The pairs of hash and encoding of the nodes of `n` stored on their own, children first. -/
def storedNodes : Node → List (List UInt8 × List UInt8)
  | .short k c f => (if c.hasChildren then storedNodes c else []) ++ ownPair keccak (.short k c f)
  | .full cs f => ((List.finRange 16).flatMap fun i => storedNodes (cs i.castSucc)) ++ ownPair keccak (.full cs f)
  | _ => []

theorem storedNodes_short (k : List UInt8) (c : Node) (f : NodeFlag) :
    storedNodes keccak (.short k c f) = (if c.hasChildren then storedNodes keccak c else []) ++ ownPair keccak (.short k c f) := by
  rw [storedNodes]

theorem storedNodes_full (cs : Fin 17 → Node) (f : NodeFlag) :
    storedNodes keccak (.full cs f) =
      ((List.finRange 16).flatMap fun i => storedNodes keccak (cs i.castSucc)) ++ ownPair keccak (.full cs f) := by
  rw [storedNodes]

/-- Every key the node holds is shorter than `2 ^ 62` nibbles and every value shorter than `2 ^ 62`
bytes. -/
def Small (n : Node) : Prop := ∀ q v, n.lookup q = some v → q.length < 2 ^ 62 ∧ v.length < 2 ^ 62

namespace Node

/-- What the encoding of a full node holds for a child: the empty string of `nilValueNode` for
`nil`. -/
def slotValue (n : Node) : Rlp.Value := if n.isNil then .bytes [] else n.toValue

theorem toValue_short (k : List UInt8) (c : Node) (f : NodeFlag) :
    (Node.short k c f).toValue = .list [.bytes k, c.toValue] := rfl

theorem toValue_full (cs : Fin 17 → Node) (f : NodeFlag) :
    (Node.full cs f).toValue = .list ((List.finRange 17).map fun i => (cs i).slotValue) := rfl

@[simp] theorem slotValue_nil : Node.nil.slotValue = .bytes [] := rfl

@[simp] theorem slotValue_nilValueNode : nilValueNode.slotValue = .bytes [] := rfl

end Node

/-- The children of a full node after `Hasher.hash`: the nibble children with their hashes cached. -/
def cachedChildren (cs : Fin 17 → Node) (i : Fin 17) : Node :=
  if i.val < 16 then (if (cs i).isNil then .nil else (Hasher.hash keccak (cs i) false).2) else cs i

/-- What the collapsed form of a full node holds for nibble child `i`. -/
def collapsedChild (cs : Fin 17 → Node) (i : Fin 16) : Node :=
  if (cs i.castSucc).isNil then nilValueNode else (Hasher.hash keccak (cs i.castSucc) false).1

theorem Node.slotValue_of_ne_nil {n : Node} (h : n ≠ .nil) : n.slotValue = n.toValue := by
  cases n <;> simp_all [Node.slotValue, Node.isNil]

theorem toValue_collapse_short (k : List UInt8) (c : Node) (f : NodeFlag) :
    (collapse keccak (.short k c f)).toValue =
      .list [.bytes (hexToCompact k), (if c.hasChildren then (Hasher.hash keccak c false).1 else c).toValue] := rfl

/-- The collapsed form of a full node: sixteen collapsed nibble children, then the value slot. -/
theorem toValue_collapse_full (cs : Fin 17 → Node) (f : NodeFlag) :
    (collapse keccak (.full cs f)).toValue =
      .list (((List.finRange 16).map fun i => (collapsedChild keccak cs i).slotValue) ++ [(cs 16).slotValue]) := by
  simp only [collapse, Node.toValue_full, List.finRange_succ_last, List.map_append, List.map_map, Function.comp_def,
    Fin.val_castSucc, List.map_cons, List.map_nil, Fin.val_last, Nat.lt_irrefl, if_false]
  rfl

/-! ### Hashing a canonical node -/

section Hash

variable {keccak}

theorem hash_short_of_none {k : List UInt8} {c : Node} {f : NodeFlag} (hf : f.hash = none) (force : Bool) :
    Hasher.hash keccak (.short k c f) force =
      (Hasher.shortnodeToHash keccak (collapse keccak (.short k c f)) force,
        .short k (if c.hasChildren then (Hasher.hash keccak c false).2 else c)
          { f with hash := Hasher.hashOf (Hasher.shortnodeToHash keccak (collapse keccak (.short k c f)) force) }) := by
  cases hc : c.hasChildren <;> simp [Hasher.hash, hf, collapse, hc]

theorem hash_full_of_none {cs : Fin 17 → Node} {f : NodeFlag} (hf : f.hash = none) (force : Bool) :
    Hasher.hash keccak (.full cs f) force =
      (Hasher.shortnodeToHash keccak (collapse keccak (.full cs f)) force,
        .full (cachedChildren keccak cs)
          { f with hash := Hasher.hashOf (Hasher.shortnodeToHash keccak (collapse keccak (.full cs f)) force) }) := by
  -- the children hashed in `hashFullNodeChildren`, split into what is encoded and what is cached
  have h1 : (fun i : Fin 17 => (if i.val < 16 then (if (cs i).isNil then (nilValueNode, Node.nil)
      else Hasher.hash keccak (cs i) false) else (cs i, cs i)).1) =
      fun i => if i.val < 16 then (if (cs i).isNil then nilValueNode else (Hasher.hash keccak (cs i) false).1)
        else cs i := by
    funext i
    split_ifs <;> rfl
  have h2 : (fun i : Fin 17 => (if i.val < 16 then (if (cs i).isNil then (nilValueNode, Node.nil)
      else Hasher.hash keccak (cs i) false) else (cs i, cs i)).2) =
      fun i => if i.val < 16 then (if (cs i).isNil then .nil else (Hasher.hash keccak (cs i) false).2)
        else cs i := by
    funext i
    split_ifs <;> rfl
  simp only [Hasher.hash, hf, Hasher.fullnodeToHash, collapse, h1, h2]
  rfl

theorem shortnodeToHash_eq (n : Node) (force : Bool) :
    Hasher.shortnodeToHash keccak n force =
      if (Rlp.encodeToBytes n.toValue).length < 32 ∧ !force then n
      else .hash (keccak (Rlp.encodeToBytes n.toValue)) := by
  simp only [Hasher.shortnodeToHash, Hasher.hashData]

/-- Hashing a canonical node: its collapsed form when it encodes to fewer than 32 bytes and the hash
is not forced, else the hash of its encoding. -/
theorem hash_fst {n : Node} (hc : Canonical n) (hn : n ≠ .nil) (force : Bool) :
    (Hasher.hash keccak n force).1 =
      if (encoding keccak n).length < 32 ∧ !force then collapse keccak n
      else .hash (keccak (encoding keccak n)) := by
  cases hc with
  | nil => exact absurd rfl hn
  | leaf => rw [hash_short_of_none rfl, shortnodeToHash_eq, encoding]
  | ext => rw [hash_short_of_none rfl, shortnodeToHash_eq, encoding]
  | full => rw [hash_full_of_none rfl, shortnodeToHash_eq, encoding]

theorem collapse_ne_nil {n : Node} (hc : Canonical n) (hn : n ≠ .nil) : collapse keccak n ≠ .nil := by
  cases hc with
  | nil => exact absurd rfl hn
  | leaf | ext | full => simp [collapse]

theorem hash_ne_nil {n : Node} (hc : Canonical n) (hn : n ≠ .nil) : (Hasher.hash keccak n false).1 ≠ .nil := by
  rw [hash_fst hc hn]
  split_ifs
  · exact collapse_ne_nil hc hn
  · simp

end Hash

/-! ### Sizes -/

section Small

variable {keccak}

theorem Small.short {k : List UInt8} {c : Node} {f : NodeFlag} (h : Small (.short k c f)) : Small c := by
  intro q v hq
  have := h (k ++ q) v (by simpa using hq)
  simp only [List.length_append] at this
  omega

theorem Small.full {cs : Fin 17 → Node} {f : NodeFlag} (h : Small (.full cs f)) (i : Fin 17) : Small (cs i) := by
  intro q v hq
  have := h (i.val.toUInt8 :: q) v (by rwa [Node.lookup_full_fin])
  simp only [List.length_cons] at this
  omega

/-- The key of a short node over a canonical child is shorter than `2 ^ 62`. -/
theorem Small.key_lt {k : List UInt8} {c : Node} {f : NodeFlag} (h : Small (.short k c f)) (hc : Canonical c)
    (hn : c ≠ .nil) : k.length < 2 ^ 62 := by
  obtain ⟨q, hq⟩ := hc.exists_key hn
  obtain ⟨v, hv⟩ := Option.ne_none_iff_exists'.1 hq
  have := (h (k ++ q) v (by simpa using hv)).1
  simp only [List.length_append] at this
  omega

theorem fits_list {vs : List Rlp.Value} (h : ∀ v ∈ vs, v.fits) (hlen : (Rlp.encodeList vs).length < 2 ^ 64) :
    (Rlp.Value.list vs).fits := by
  simp only [Rlp.Value.fits, Bool.and_eq_true, decide_eq_true_eq]
  exact ⟨hlen, Rlp.fitsList_iff.2 h⟩

theorem fits_bytes {b : List UInt8} (h : b.length < 2 ^ 64) : (Rlp.Value.bytes b).fits := by
  simpa [Rlp.Value.fits] using h

/-- What a parent holds for a canonical child: its collapsed form, whose encoding is shorter than 32
bytes, or the hash of its encoding. -/
theorem hash_toValue_cases {n : Node} (hc : Canonical n) (hn : n ≠ .nil) (hfit : (collapse keccak n).toValue.fits) :
    ((encoding keccak n).length < 32 ∧ (Hasher.hash keccak n false).1 = collapse keccak n ∧
        encoding keccak n = Rlp.encode (collapse keccak n).toValue) ∨
      (32 ≤ (encoding keccak n).length ∧ (Hasher.hash keccak n false).1 = .hash (keccak (encoding keccak n))) := by
  rw [hash_fst hc hn]
  by_cases h32 : (encoding keccak n).length < 32
  · exact .inl ⟨h32, by simp [h32], Rlp.encodeToBytes_eq_encode hfit⟩
  · exact .inr ⟨by omega, by simp [h32]⟩

/-- What a parent holds for a canonical child is within the encoder's sizes and encodes to at most
33 bytes. -/
theorem hash_toValue_fits (hk : ∀ d, (keccak d).length = 32) {n : Node} (hc : Canonical n) (hn : n ≠ .nil)
    (hfit : (collapse keccak n).toValue.fits) :
    ((Hasher.hash keccak n false).1.toValue).fits ∧ (Rlp.encode (Hasher.hash keccak n false).1.toValue).length ≤ 33 := by
  rcases hash_toValue_cases hc hn hfit with ⟨h32, he, henc⟩ | ⟨-, he⟩
  · rw [he, ← henc]
    exact ⟨hfit, by omega⟩
  · rw [he]
    refine ⟨fits_bytes (by simp [hk]), ?_⟩
    simp [Node.toValue, Rlp.encode, Rlp.lengthPrefix, hk]

/-- A canonical node holding keys and values shorter than `2 ^ 62` collapses to a value within the
encoder's sizes. -/
theorem fits_collapse (hk : ∀ d, (keccak d).length = 32) {n : Node} (hc : Canonical n) (hs : Small n) :
    (collapse keccak n).toValue.fits := by
  induction hc with
  | nil => rfl
  | @leaf k v _ =>
    obtain ⟨hkl, hvl⟩ := hs k v (by simp)
    have hck := length_hexToCompact_le k
    have e₁ := Rlp.length_encode_bytes_le (b := hexToCompact k) (by omega)
    have e₂ := Rlp.length_encode_bytes_le (b := v) (by omega)
    rw [toValue_collapse_short]
    refine fits_list ?_ ?_
    · simp only [Node.hasChildren, Bool.false_eq_true, if_false, Node.toValue, List.mem_cons, List.not_mem_nil,
        or_false]
      rintro _ (rfl | rfl)
      · exact fits_bytes (by omega)
      · exact fits_bytes (by omega)
    · simp only [Node.hasChildren, Bool.false_eq_true, if_false, Node.toValue, Rlp.encodeList, List.append_nil,
        List.length_append]
      omega
  | @ext k cs hne _ hfull ih =>
    have hkl := hs.key_lt hfull (by simp)
    have hck := length_hexToCompact_le k
    have e₁ := Rlp.length_encode_bytes_le (b := hexToCompact k) (by omega)
    obtain ⟨hcf, hcl⟩ := hash_toValue_fits hk hfull (by simp) (ih hs.short)
    rw [toValue_collapse_short]
    refine fits_list ?_ ?_
    · simp only [Node.hasChildren, if_true, List.mem_cons, List.not_mem_nil, or_false]
      rintro _ (rfl | rfl)
      · exact fits_bytes (by omega)
      · exact hcf
    · simp only [Rlp.encodeList, List.append_nil, List.length_append, Node.hasChildren, if_true]
      omega
  | @full cs hcs hslot _ ih =>
    -- the sixteen nibble children encode to at most 33 bytes each; the value slot is a value
    have hchild : ∀ i : Fin 16, (collapsedChild keccak cs i).slotValue.fits ∧
        (Rlp.encode (collapsedChild keccak cs i).slotValue).length ≤ 33 := by
      intro i
      have hi : (i.castSucc : Fin 17).val ≠ 16 := by simp; omega
      unfold collapsedChild
      split_ifs with h0
      · exact ⟨rfl, by decide⟩
      · have hn0 : cs i.castSucc ≠ .nil := fun h => h0 (by rw [h]; rfl)
        rw [Node.slotValue_of_ne_nil (hash_ne_nil (hcs _ hi) hn0)]
        exact hash_toValue_fits hk (hcs _ hi) hn0 (ih _ hi (hs.full _))
    have hv : (cs 16).slotValue.fits ∧ (Rlp.encode (cs 16).slotValue).length ≤ 2 ^ 62 + 9 := by
      rcases hslot with h0 | ⟨v, hv⟩
      · rw [h0]
        exact ⟨rfl, by decide⟩
      · have hvl := (hs [16] v (by rw [Node.lookup_full_cons _ _ (by decide)]; simp [hv])).2
        rw [hv]
        exact ⟨fits_bytes (by omega), (Rlp.length_encode_bytes_le (by omega)).trans (by omega)⟩
    rw [toValue_collapse_full]
    refine fits_list ?_ ?_
    · intro w hw
      simp only [List.mem_append, List.mem_map, List.mem_singleton] at hw
      rcases hw with ⟨i, -, rfl⟩ | rfl
      · exact (hchild i).1
      · exact hv.1
    · have h₁ : (Rlp.encodeList ((List.finRange 16).map fun i => (collapsedChild keccak cs i).slotValue)).length ≤
          ((List.finRange 16).map fun i => (collapsedChild keccak cs i).slotValue).length * 33 := by
        refine Rlp.length_encodeList_le fun w hw => ?_
        simp only [List.mem_map] at hw
        obtain ⟨i, -, rfl⟩ := hw
        exact (hchild i).2
      have h₂ : (Rlp.encodeList [(cs 16).slotValue]).length ≤ 2 ^ 62 + 9 := by
        simpa [Rlp.encodeList] using hv.2
      rw [Rlp.encodeList_append, List.length_append]
      simp only [List.length_map, List.length_finRange] at h₁
      omega

end Small

/-! ### Committing -/

section Commit

variable {keccak}

theorem cache_short_newFlag (k : List UInt8) (c : Node) (h : Option (List UInt8)) :
    (Node.short k c { newFlag with hash := h }).cache.1 = h := rfl

theorem cache_full_newFlag (cs : Fin 17 → Node) (h : Option (List UInt8)) :
    (Node.full cs { newFlag with hash := h }).cache.1 = h := rfl

theorem collapse_ne_hash {n : Node} (hc : Canonical n) (hn : n ≠ .nil) (h : List UInt8) :
    collapse keccak n ≠ .hash h := by
  cases hc with
  | nil => exact absurd rfl hn
  | leaf | ext | full => simp [collapse]

theorem hashOf_collapse {n : Node} (hc : Canonical n) (hn : n ≠ .nil) : Hasher.hashOf (collapse keccak n) = none := by
  cases hc with
  | nil => exact absurd rfl hn
  | leaf | ext | full => rfl

/-- `store` of a node that encodes as the collapsed form of a canonical node and caches what hashing
that gave: the node stays in its parent when it encodes to fewer than 32 bytes and the hash is not
forced, else it is stored under its hash. -/
private theorem store_collapsed {n m : Node} (hc : Canonical n) (hn : n ≠ .nil) (force : Bool) (hm0 : m ≠ .nil)
    (hm : m.toValue = (collapse keccak n).toValue)
    (hcache : m.cache.1 = Hasher.hashOf (Hasher.shortnodeToHash keccak (collapse keccak n) force)) :
    ∃ r w, Committer.store m = (r, w) ∧ r ≠ .nil ∧
      r.toValue = (Hasher.shortnodeToHash keccak (collapse keccak n) force).toValue ∧
      (∀ h, Hasher.shortnodeToHash keccak (collapse keccak n) force = .hash h → r = .hash h) ∧
      ∀ x, x ∈ w.map storedPair ↔
        x ∈ ownPair keccak n ∨ (force = true ∧ x = (keccak (encoding keccak n), encoding keccak n)) := by
  have henc : Rlp.encodeToBytes (collapse keccak n).toValue = encoding keccak n := rfl
  rw [shortnodeToHash_eq, henc] at hcache ⊢
  by_cases hsmall : (encoding keccak n).length < 32 ∧ !force
  · -- embedded in its parent: nothing is stored
    rw [if_pos hsmall] at hcache ⊢
    have hnone : m.cache.1 = none := by rw [hcache]; exact hashOf_collapse hc hn
    have hf : force = false := by simpa using hsmall.2
    refine ⟨m, [], by simp [Committer.store, hnone], hm0, hm,
      fun h he => absurd he (collapse_ne_hash hc hn h), fun x => ?_⟩
    simp [ownPair, hsmall.1, hf]
  · rw [if_neg hsmall] at hcache ⊢
    refine ⟨.hash _, [(keccak (encoding keccak n), m)], by simp [Committer.store, hcache, Hasher.hashOf], by simp, rfl,
      fun h he => by rw [he], fun x => ?_⟩
    have hpair : storedPair (keccak (encoding keccak n), m) = (keccak (encoding keccak n), encoding keccak n) := by
      simp [storedPair, hm, encoding]
    by_cases h32 : (encoding keccak n).length < 32
    · have hf : force = true := by simpa [h32] using hsmall
      simp [ownPair, h32, hf, hpair]
    · simp [ownPair, h32, hpair]

theorem cached_ne {n : Node} (hc : Canonical n) (hn : n ≠ .nil) :
    (Hasher.hash keccak n false).2.isNil = false ∧ (Hasher.hash keccak n false).2.isHash = false := by
  cases hc with
  | nil => exact absurd rfl hn
  | leaf | ext => rw [hash_short_of_none rfl]; exact ⟨rfl, rfl⟩
  | full => rw [hash_full_of_none rfl]; exact ⟨rfl, rfl⟩

theorem toValue_full_split (cs : Fin 17 → Node) (f : NodeFlag) :
    (Node.full cs f).toValue =
      .list (((List.finRange 16).map fun i => (cs i.castSucc).slotValue) ++ [(cs 16).slotValue]) := by
  rw [Node.toValue_full, List.finRange_succ_last, List.map_append, List.map_map]
  rfl

/-- What `commit` does with a canonical node after `Hasher.hash`: it returns what the parent
holds, encoded as hashing gave it (the hash itself where hashing gave a hash), and inserts the
stored nodes and, when the hash was forced, the node itself. -/
theorem commit_hash {n : Node} (hc : Canonical n) (hn : n ≠ .nil) (force : Bool) :
    ∃ r ws, Committer.commit (Hasher.hash keccak n force).2 = .ok (r, ws) ∧ r ≠ .nil ∧
      r.toValue = (Hasher.hash keccak n force).1.toValue ∧
      (∀ h, (Hasher.hash keccak n force).1 = .hash h → r = .hash h) ∧
      ∀ x, x ∈ ws.map storedPair ↔
        x ∈ storedNodes keccak n ∨ (force = true ∧ x = (keccak (encoding keccak n), encoding keccak n)) := by
  induction hc generalizing force with
  | nil => exact absurd rfl hn
  | @leaf k v _ =>
    obtain ⟨r, w, hst, hr0, hrv, hrh, hw⟩ := store_collapsed (.leaf ‹_›) hn force
      (m := .short (hexToCompact k) (.value v) { newFlag with
        hash := Hasher.hashOf (Hasher.shortnodeToHash keccak (collapse keccak (.short k (.value v) newFlag)) force) })
      (by simp) rfl (cache_short_newFlag _ _ _)
    refine ⟨r, w, ?_, hr0, ?_, ?_, ?_⟩
    · rw [hash_short_of_none rfl]
      simp only [Committer.commit, Node.hasChildren, Bool.false_eq_true, if_false]
      rw [NodeFlag.cleanHash_of_dirty rfl]
      simp [hst]
    · rw [hash_short_of_none rfl]
      dsimp only
      exact hrv
    · rw [hash_short_of_none rfl]
      dsimp only
      exact hrh
    · simpa [storedNodes_short, Node.hasChildren] using hw
  | @ext k cs hne hnib hfull ih =>
    obtain ⟨rc, wc, hcc, hrc0, hrcv, -, hwc⟩ := ih (by simp) false
    have hmv : ∀ fl : NodeFlag, (Node.short (hexToCompact k) rc fl).toValue =
        (collapse keccak (.short k (.full cs newFlag) newFlag)).toValue := by
      intro fl
      rw [Node.toValue_short, toValue_collapse_short, hrcv]
      rfl
    obtain ⟨r, w, hst, hr0, hrv, hrh, hw⟩ := store_collapsed (.ext hne hnib hfull) hn force
      (m := .short (hexToCompact k) rc { newFlag with
        hash := Hasher.hashOf (Hasher.shortnodeToHash keccak (collapse keccak (.short k (.full cs newFlag) newFlag)) force) })
      (by simp) (hmv _) (cache_short_newFlag _ _ _)
    obtain ⟨cs', f', hcached⟩ : ∃ cs' f', (Hasher.hash keccak (.full cs newFlag) false).2 = .full cs' f' :=
      ⟨_, _, by rw [hash_full_of_none rfl]⟩
    refine ⟨r, wc ++ w, ?_, hr0, ?_, ?_, ?_⟩
    · rw [hash_short_of_none rfl]
      simp only [Committer.commit, Node.hasChildren, if_true]
      rw [NodeFlag.cleanHash_of_dirty rfl]
      rw [hcached] at hcc ⊢
      simp [hcc, hst]
    · rw [hash_short_of_none rfl]
      dsimp only
      exact hrv
    · rw [hash_short_of_none rfl]
      dsimp only
      exact hrh
    · intro x
      rw [storedNodes_short, List.map_append, List.mem_append, hwc, hw]
      simp only [Node.hasChildren, if_true, List.mem_append, Bool.false_eq_true, false_and, or_false, or_assoc]
  | @full cs hcs hslot hlive ih =>
    have hi16 : ∀ i : Fin 16, (i.castSucc : Fin 17).val ≠ 16 := fun i => by simp; omega
    -- `commitChildren`: nothing for a `nil` child, else what committing its cached node gives
    have hkid : ∀ i : Fin 16, ∃ p : Node × List (List UInt8 × Node),
        Committer.commitChild (cachedChildren keccak cs i.castSucc)
            (Committer.commit (cachedChildren keccak cs i.castSucc)) = .ok p ∧
          p.1.slotValue = (collapsedChild keccak cs i).slotValue ∧
          ∀ x, x ∈ p.2.map storedPair ↔ x ∈ storedNodes keccak (cs i.castSucc) := by
      intro i
      by_cases h0 : cs i.castSucc = .nil
      · refine ⟨(.nil, []), ?_, ?_, ?_⟩
        · simp [Committer.commitChild, cachedChildren, h0, Node.isNil]
        · simp [collapsedChild, h0, Node.isNil]
        · simp [h0, storedNodes]
      · have hnil : (cs i.castSucc).isNil = false := by
          cases h : cs i.castSucc <;> simp_all [Node.isNil]
        obtain ⟨r, ws, hcm, hr0, hrv, -, hws⟩ := ih _ (hi16 i) h0 false
        obtain ⟨hcn, hch⟩ := cached_ne (hcs _ (hi16 i)) h0
        have hcc : cachedChildren keccak cs i.castSucc = (Hasher.hash keccak (cs i.castSucc) false).2 := by
          simp [cachedChildren, hnil]
        refine ⟨(r, ws), ?_, ?_, fun x => by simpa using hws x⟩
        · rw [hcc, Committer.commitChild, hcn, hch]
          exact hcm
        · rw [collapsedChild, if_neg (by simp [hnil]), Node.slotValue_of_ne_nil hr0,
            Node.slotValue_of_ne_nil (hash_ne_nil (hcs _ (hi16 i)) h0), hrv]
    choose g hgok hgv hgw using hkid
    have hkids := Except.mapM_eq_ok (l := List.finRange 16) (g := g) fun i _ => hgok i
    -- the full node `commit` stores: the committed children, with the hash `Hasher.hash` cached
    have hchild : ∀ i : Fin 16, (((List.finRange 16).map g).getD i.val (.nil, [])).1 = (g i).1 := by
      intro i
      simp [List.getD_eq_getElem?_getD]
    have hmv : ∀ fl : NodeFlag, (Node.full (fun i => if i.val < 16 then (((List.finRange 16).map g).getD i.val (.nil, [])).1
        else cachedChildren keccak cs i) fl).toValue = (collapse keccak (.full cs newFlag)).toValue := by
      intro fl
      rw [toValue_full_split, toValue_collapse_full]
      congr 2
      · apply List.map_congr_left
        intro i _
        simp only [Fin.val_castSucc, i.isLt, if_true]
        rw [hchild i]
        exact hgv i
    obtain ⟨r, w, hst, hr0, hrv, hrh, hw⟩ := store_collapsed (.full hcs hslot hlive) hn force
      (m := .full (fun i => if i.val < 16 then (((List.finRange 16).map g).getD i.val (.nil, [])).1
        else cachedChildren keccak cs i) { newFlag with
          hash := Hasher.hashOf (Hasher.shortnodeToHash keccak (collapse keccak (.full cs newFlag)) force) })
      (by simp) (hmv _) (cache_full_newFlag _ _)
    refine ⟨r, ((List.finRange 16).map fun i => (g i).2).flatten ++ w, ?_, hr0, ?_, ?_, ?_⟩
    · rw [hash_full_of_none rfl]
      simp only [Committer.commit]
      rw [NodeFlag.cleanHash_of_dirty rfl, hkids]
      simp only [Except.ok_bind]
      rw [show Committer.store _ = (r, w) from hst]
      simp [List.map_map, Function.comp_def]
    · rw [hash_full_of_none rfl]
      dsimp only
      exact hrv
    · rw [hash_full_of_none rfl]
      dsimp only
      exact hrh
    · intro x
      rw [storedNodes_full, List.map_append, List.mem_append, List.mem_append, hw, List.map_flatten,
        List.mem_flatten, List.mem_flatMap]
      simp only [List.map_map, List.mem_map, List.mem_finRange, true_and, Function.comp_apply]
      constructor
      · rintro (⟨_, ⟨i, rfl⟩, hx⟩ | h)
        · exact .inl (.inl ⟨i, (hgw i x).1 hx⟩)
        · exact (or_assoc.2 (.inr h))
      · rintro ((⟨i, hx⟩ | h) | h)
        · exact .inl ⟨_, ⟨i, rfl⟩, (hgw i x).2 hx⟩
        · exact .inr (.inl h)
        · exact .inr (.inr h)

/-- A node that encodes to 32 bytes or more is stored under its hash. -/
theorem mem_storedNodes_self {n : Node} (hc : Canonical n) (hn : n ≠ .nil) (h32 : ¬ (encoding keccak n).length < 32) :
    (keccak (encoding keccak n), encoding keccak n) ∈ storedNodes keccak n := by
  have hown : (keccak (encoding keccak n), encoding keccak n) ∈ ownPair keccak n := by simp [ownPair, h32]
  cases hc with
  | nil => exact absurd rfl hn
  | leaf | ext =>
    rw [storedNodes_short]
    exact List.mem_append_right _ hown
  | full =>
    rw [storedNodes_full]
    exact List.mem_append_right _ hown

/-- Hashing a canonical node keeps it dirty: it is still to be committed. -/
theorem cache_hash_dirty {n : Node} (hc : Canonical n) (hn : n ≠ .nil) (force : Bool) :
    (Hasher.hash keccak n force).2.cache.2 = true := by
  cases hc with
  | nil => exact absurd rfl hn
  | leaf | ext =>
    rw [hash_short_of_none rfl]
    rfl
  | full =>
    rw [hash_full_of_none rfl]
    rfl

namespace Trie

theorem hashRoot_of_ne_nil {t : Trie} (hn : t.root ≠ .nil) :
    t.hashRoot keccak = (Hasher.hash keccak t.root true, { t with unhashed := 0 }) := by
  unfold hashRoot
  split
  · contradiction
  · rfl

/-- `Hash` of a trie with a canonical root other than `nil`: the hash of the root's encoding, the root
replaced by the root with its hashes cached. -/
theorem hash_of_canonical {t : Trie} (hc : Canonical t.root) (hn : t.root ≠ .nil) :
    t.hash keccak = (.ok (keccak (encoding keccak t.root)),
      { t with root := (Hasher.hash keccak t.root true).2, unhashed := 0 }) := by
  have hfst : (Hasher.hash keccak t.root true).1 = .hash (keccak (encoding keccak t.root)) := by
    rw [hash_fst hc hn]
    simp
  simp only [hash, hashRoot_of_ne_nil hn, hfst]

/-- `Commit` of a trie with a canonical root other than `nil`: the root hash, and the stored nodes of
the root and the root itself inserted into the node database. -/
theorem commit_of_canonical {t : Trie} (hc : Canonical t.root) (hn : t.root ≠ .nil) :
    ∃ t' ws, t.commit keccak = (.ok (keccak (encoding keccak t.root)), t', ws) ∧
      ∀ x, x ∈ ws.map storedPair ↔
        x ∈ storedNodes keccak t.root ∨ x = (keccak (encoding keccak t.root), encoding keccak t.root) := by
  obtain ⟨r, ws, hcom, -, -, hrh, hw⟩ := commit_hash hc hn true
  have hfst : (Hasher.hash keccak t.root true).1 = .hash (keccak (encoding keccak t.root)) := by
    rw [hash_fst hc hn]
    simp
  obtain rfl := hrh _ hfst
  refine ⟨{ t with root := .hash (keccak (encoding keccak t.root)), unhashed := 0 }, ws, ?_,
    fun x => by simpa using hw x⟩
  unfold commit
  split
  · contradiction
  · rw [hash_of_canonical hc hn]
    simp only [cache_hash_dirty hc hn, Bool.not_true, Bool.false_eq_true, if_false, hcom]

end Trie

end Commit

end Go420coin.Trie
