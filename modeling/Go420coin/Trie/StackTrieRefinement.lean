import Go420coin.Trie.StackTrie
import Go420coin.Trie.NodeEncoding

set_option linter.dupNamespace false

/-!
# The stack trie builds the canonical trie (`trie/stacktrie.go` against `trie/trie.go`)

A stack trie node stands for a canonical trie node (`Rep`): a hashed node holds what a parent refers
to the canonical node by (`ref`), and a leaf, an extension or a branch has the canonical node's
shape, child for child.  `Rep` also records the pairs the hashed parts have written, and hashing a
node that stands for `n` writes the rest of the stored nodes of `n` (`hash_rep`).

Inserting goes down the right-hand edge of the trie.  `Open` says where that edge is: its nodes are
not hashed and sit at the offsets their depth gives.  A key that parts above every key already in
the trie is inserted into the canonical node's map (`insert_rep`), so a run of keys in increasing
order builds the canonical trie of their map, the trie `Trie.Update` builds
(`stackTrie_refines_trie`).
-/

namespace Go420coin.Trie

open ListMap

namespace StackTrie

variable (keccak : List UInt8 → List UInt8)

/-- `st` stands for the canonical node `n`, and `w` are the pairs its hashed parts have written.  A
hashed node holds what a parent refers to `n` by and has written the stored nodes of `n`; a leaf,
an extension and a branch have the shape of `n`, a stack trie child for each node child. -/
inductive Rep : StackTrie → Node → List (List UInt8 × List UInt8) → Prop
  | hashed {n : Node} {k : List UInt8} {o : Nat} {cs : Fin 16 → StackTrie} :
      Canonical n → n ≠ .nil → Rep (.node .hashedNode (ref keccak n) k o cs) n (storedNodes keccak n)
  | leaf {v k : List UInt8} {o : Nat} {cs : Fin 16 → StackTrie} :
      Nibbles k → (∀ i, cs i = .nil) → Rep (.node .leafNode v k o cs) (.short (k ++ [16]) (.value v) newFlag) []
  | ext {v k : List UInt8} {o : Nat} {cs : Fin 16 → StackTrie} {ns : Fin 17 → Node}
      {w : List (List UInt8 × List UInt8)} :
      k ≠ [] → Nibbles k → Rep (cs 0) (.full ns newFlag) w → (∀ i, i ≠ 0 → cs i = .nil) →
      Rep (.node .extNode v k o cs) (.short k (.full ns newFlag) newFlag) w
  | branch {v k : List UInt8} {o : Nat} {cs : Fin 16 → StackTrie} {ns : Fin 17 → Node}
      {ws : Fin 16 → List (List UInt8 × List UInt8)} :
      (∀ i, cs i ≠ .nil → Rep (cs i) (ns i.castSucc) (ws i)) →
      (∀ i, cs i = .nil → ns i.castSucc = .nil ∧ ws i = []) →
      ns 16 = .nil → 2 ≤ (Node.liveChildren ns).length →
      Rep (.node .branchNode v k o cs) (.full ns newFlag) ((List.finRange 16).flatMap ws)

variable {keccak}

@[simp] theorem val_node (t : NodeType) (v k : List UInt8) (o : Nat) (cs : Fin 16 → StackTrie) :
    (StackTrie.node t v k o cs).val = v := rfl

theorem hash_hashedNode (v k : List UInt8) (o : Nat) (cs : Fin 16 → StackTrie) :
    (StackTrie.node .hashedNode v k o cs).hash keccak = .ok (.node .hashedNode v k o cs, []) := rfl

@[simp] theorem isHashed_hashedNode (v k : List UInt8) (o : Nat) (cs : Fin 16 → StackTrie) :
    (StackTrie.node .hashedNode v k o cs).isHashed = true := rfl

namespace Rep

theorem canonical {st : StackTrie} {n : Node} {w : List (List UInt8 × List UInt8)} (h : Rep keccak st n w) :
    Canonical n := by
  induction h with
  | hashed hc _ => exact hc
  | leaf hk _ => exact .leaf (HexKey.append hk .term)
  | ext hne hk _ _ ih => exact .ext hne hk ih
  | @branch _ _ _ cs ns _ _ hnil h16 hlive ih =>
    refine .full (fun i hi => ?_) (by rw [h16]; exact IsSlot.nil) hlive
    -- a nibble child is the child of the stack branch at the same index
    have hi' : i.val < 16 := by omega
    have hcast : (⟨i.val, hi'⟩ : Fin 16).castSucc = i := Fin.ext rfl
    by_cases h0 : cs ⟨i.val, hi'⟩ = .nil
    · rw [← hcast, (hnil _ h0).1]
      exact .nil
    · rw [← hcast]
      exact ih _ h0

theorem ne_nil {st : StackTrie} {n : Node} {w : List (List UInt8 × List UInt8)} (h : Rep keccak st n w) :
    n ≠ .nil := by
  cases h with
  | hashed _ hn => exact hn
  | leaf | ext | branch => simp

theorem stack_ne_nil {st : StackTrie} {n : Node} {w : List (List UInt8 × List UInt8)} (h : Rep keccak st n w) :
    st ≠ .nil := by
  cases h <;> simp

end Rep

/-! ### Encodings -/

/-- What `hash` makes of a node that encodes to the encoding of `n`: the hashed node holding what a
parent refers to `n` by, and the pair under which `n` is stored, if it is. -/
theorem toHashed_encoding (o : Nat) (cs : Fin 16 → StackTrie) (n : Node) :
    toHashed keccak o cs (encoding keccak n) = (.node .hashedNode (ref keccak n) [] o cs, ownPair keccak n) := by
  unfold toHashed ref ownPair
  split <;> rfl

/-- A branch or an extension holds a child referred to by `ref` as the parent node of the canonical
trie holds it after hashing. -/
theorem childItem_ref (hk : ∀ d, (keccak d).length = 32) {n : Node} (hc : Canonical n) (hn : n ≠ .nil)
    (hfit : (collapse keccak n).toValue.fits) :
    Rlp.Item.Encodes (childItem (ref keccak n)) (Hasher.hash keccak n false).1.toValue := by
  rcases hash_toValue_cases hc hn hfit with ⟨h32, he, henc⟩ | ⟨h32, he⟩
  · rw [he, ref, if_pos h32, childItem, if_pos h32, henc]
    exact .raw _
  · have hnot : ¬ (encoding keccak n).length < 32 := by omega
    rw [he, ref, if_neg hnot, childItem, if_neg (by rw [hk]; omega)]
    exact .value _

theorem encoding_leaf (k v : List UInt8) :
    Rlp.encodeToBytes (.list [.bytes (hexToCompactInPlace (k ++ [16])), .bytes v]) =
      encoding keccak (.short (k ++ [16]) (.value v) newFlag) := by
  simp [encoding, collapse, Node.hasChildren, Node.toValue, hexToCompactInPlace_eq]

theorem encoding_ext (hk : ∀ d, (keccak d).length = 32) {k : List UInt8} {ns : Fin 17 → Node}
    (hc : Canonical (.short k (.full ns newFlag) newFlag)) (hs : Small (.short k (.full ns newFlag) newFlag)) :
    Rlp.encodeItems [.value (.bytes (hexToCompact k)), childItem (ref keccak (.full ns newFlag))] =
      encoding keccak (.short k (.full ns newFlag) newFlag) := by
  have hfit := fits_collapse hk hc hs
  have hfull : Canonical (.full ns newFlag) := by cases hc; assumption
  rw [encoding, Rlp.encodeToBytes_eq_encode hfit]
  rw [toValue_collapse_short] at hfit ⊢
  simp only [Node.hasChildren, if_true] at hfit ⊢
  refine Rlp.encodeItems_eq_encode (.cons (.value _) (.cons ?_ .nil)) hfit
  exact childItem_ref hk hfull (by simp) (fits_collapse hk hfull hs.short)

/-- The encoding `hash` writes for a branch whose children stand for the collapsed children of a
full node, with `nilValueNode` in the value slot. -/
theorem encoding_branch (hk : ∀ d, (keccak d).length = 32) {ns : Fin 17 → Node} (its : Fin 16 → Rlp.Item)
    (hits : ∀ i, Rlp.Item.Encodes (its i) (collapsedChild keccak ns i).slotValue) (h16 : ns 16 = .nil)
    (hc : Canonical (.full ns newFlag)) (hs : Small (.full ns newFlag)) :
    Rlp.encodeItems ((List.finRange 16).map its ++ [.value (.bytes [])]) = encoding keccak (.full ns newFlag) := by
  have hfit := fits_collapse hk hc hs
  rw [encoding, Rlp.encodeToBytes_eq_encode hfit]
  rw [toValue_collapse_full] at hfit ⊢
  refine Rlp.encodeItems_eq_encode (List.rel_append ?_ ?_) hfit
  · exact List.forall₂_map_left_iff.2 (List.forall₂_map_right_iff.2 (List.forall₂_same.2 fun i _ => hits i))
  · rw [h16]
    exact .cons (.value _) .nil

/-! ### Hashing -/

variable (keccak) in
/-- What `hash` makes of one child of a branch: `nilValueNode` for `nil`, else the hashed child. -/
def hashChild (c : StackTrie) : Except StackTrieError (Rlp.Item × List (List UInt8 × List UInt8)) :=
  if c.isNil then pure (Rlp.Item.value (.bytes []), [])
  else do
    let (c, w) ← hash keccak c
    pure (childItem c.val, w)

/-- Hashing a node that stands for `n` gives a hashed node holding what a parent refers to `n` by,
and writes the stored nodes of `n` that its hashed parts have not written. -/
theorem hash_rep (hk : ∀ d, (keccak d).length = 32) {st : StackTrie} {n : Node}
    {w : List (List UInt8 × List UInt8)} (h : Rep keccak st n w) (hs : Small n) :
    ∃ st' w', st.hash keccak = .ok (st', w') ∧ st'.isHashed = true ∧ st'.val = ref keccak n ∧
      ∀ x, x ∈ w ++ w' ↔ x ∈ storedNodes keccak n := by
  induction h with
  | hashed => exact ⟨_, [], rfl, rfl, rfl, by simp⟩
  | @leaf v k o cs _ _ =>
    have hh : (StackTrie.node .leafNode v k o cs).hash keccak =
        .ok (.node .hashedNode (ref keccak (.short (k ++ [16]) (.value v) newFlag)) [] o cs,
          ownPair keccak (.short (k ++ [16]) (.value v) newFlag)) := by
      rw [← toHashed_encoding, ← encoding_leaf]
      rfl
    exact ⟨_, _, hh, isHashed_hashedNode .., val_node .., by simp [storedNodes_short, Node.hasChildren]⟩
  | @ext v k o cs ns w hne hkn hc _ ih =>
    have hcan : Canonical (.short k (.full ns newFlag) newFlag) := .ext hne hkn hc.canonical
    obtain ⟨c, wc, hh, -, hval, hw⟩ := ih hs.short
    refine ⟨.node .hashedNode (ref keccak (.short k (.full ns newFlag) newFlag)) [] o (Function.update cs 0 .nil),
      wc ++ ownPair keccak (.short k (.full ns newFlag) newFlag), ?_, isHashed_hashedNode .., val_node .., ?_⟩
    · simp only [hash, hh, hval, Except.ok_bind, encoding_ext hk hcan hs, toHashed_encoding]
      rfl
    · intro x
      rw [storedNodes_short, if_pos (by rfl), ← List.append_assoc, List.mem_append, hw, List.mem_append]
  | @branch v k o cs ns ws hrep hnil h16 hlive ih =>
    have hcan : Canonical (.full ns newFlag) := (Rep.branch hrep hnil h16 hlive : Rep keccak (.node .branchNode v k o cs) _ _).canonical
    -- each child: an empty string for `nil`, else what a parent refers to the hashed child by
    have hkid : ∀ i : Fin 16, ∃ p : Rlp.Item × List (List UInt8 × List UInt8),
        hashChild keccak (cs i) = Except.ok p ∧
        Rlp.Item.Encodes p.1 (collapsedChild keccak ns i).slotValue ∧
        ∀ x, x ∈ ws i ++ p.2 ↔ x ∈ storedNodes keccak (ns i.castSucc) := by
      intro i
      by_cases h0 : cs i = .nil
      · obtain ⟨hn0, hw0⟩ := hnil i h0
        refine ⟨(.value (.bytes []), []), by simp [hashChild, h0, isNil], ?_, by simp [hw0, hn0, storedNodes]⟩
        simp only [collapsedChild, hn0, Node.isNil, if_true, Node.slotValue_nilValueNode]
        exact .value _
      · have hi := hrep i h0
        obtain ⟨c, wc, hh, -, hval, hw⟩ := ih i h0 (hs.full i.castSucc)
        have hnil' : (cs i).isNil = false := by cases h : cs i <;> simp_all [isNil]
        have hn0 := hi.ne_nil
        refine ⟨(childItem c.val, wc), by simp [hashChild, hnil', hh], ?_, hw⟩
        have hnn : (ns i.castSucc).isNil = false := by cases h : ns i.castSucc <;> simp_all [Node.isNil]
        rw [hval, collapsedChild, if_neg (by simp [hnn]), Node.slotValue_of_ne_nil (hash_ne_nil hi.canonical hn0)]
        exact childItem_ref hk hi.canonical hn0 (fits_collapse hk hi.canonical (hs.full i.castSucc))
    choose g hg hgi hgw using hkid
    have hmap := Except.mapM_eq_ok (l := List.finRange 16) (g := g) fun i _ => hg i
    refine ⟨.node .hashedNode (ref keccak (.full ns newFlag)) [] o noChildren,
      ((List.finRange 16).map fun i => (g i).2).flatten ++ ownPair keccak (.full ns newFlag), ?_,
      isHashed_hashedNode .., val_node .., ?_⟩
    · simp only [hash]
      -- the children are hashed as `hashChild` hashes them
      erw [hmap]
      simp only [Except.ok_bind, List.map_map, Function.comp_def]
      rw [encoding_branch hk (fun i => (g i).1) hgi h16 hcan hs, toHashed_encoding]
      rfl
    · intro x
      rw [storedNodes_full, List.mem_append, List.mem_append, List.mem_append, List.mem_flatMap, List.mem_flatten,
        List.mem_flatMap]
      simp only [List.mem_finRange, true_and, List.mem_map]
      constructor
      · rintro (⟨i, hx⟩ | ⟨_, ⟨i, rfl⟩, hx⟩ | hx)
        · exact .inl ⟨i, (hgw i x).1 (List.mem_append_left _ hx)⟩
        · exact .inl ⟨i, (hgw i x).1 (List.mem_append_right _ hx)⟩
        · exact .inr hx
      · rintro (⟨i, hx⟩ | hx)
        · rcases List.mem_append.1 ((hgw i x).2 hx) with hx | hx
          · exact .inl ⟨i, hx⟩
          · exact .inr (.inl ⟨_, ⟨i, rfl⟩, hx⟩)
        · exact .inr (.inr hx)

/-- A hashed node holding what a parent refers to `n` by stands for `n`. -/
theorem rep_of_isHashed {st : StackTrie} {n : Node} (hh : st.isHashed = true) (hv : st.val = ref keccak n)
    (hc : Canonical n) (hn : n ≠ .nil) : Rep keccak st n (storedNodes keccak n) := by
  match st, hh with
  | .node .hashedNode v k o cs, _ =>
    rw [val_node] at hv
    subst hv
    exact .hashed hc hn

/-- A hashed node that stands for `n` has written all the stored nodes of `n`. -/
theorem Rep.writes_of_isHashed {st : StackTrie} {n : Node} {w : List (List UInt8 × List UInt8)}
    (h : Rep keccak st n w) (hh : st.isHashed = true) : w = storedNodes keccak n := by
  cases h with
  | hashed => rfl
  | leaf | ext | branch => simp [isHashed] at hh

/-! ### Reading the key -/

theorem getDiffIndex_append (k s : List UInt8) : getDiffIndex k (k ++ s) = .ok k.length := by
  induction k with
  | nil => rfl
  | cons a k ih => simp [getDiffIndex, ih, Except.map]

theorem getDiffIndex_parts (t : List UInt8) {a b : UInt8} (hab : a ≠ b) (u s : List UInt8) :
    getDiffIndex (t ++ a :: u) (t ++ b :: s) = .ok t.length := by
  induction t with
  | nil => simp [getDiffIndex, hab]
  | cons c t ih => simp [getDiffIndex, ih, Except.map]

theorem byteAt_append_cons (t : List UInt8) (b : UInt8) (s : List UInt8) :
    byteAt (t ++ b :: s) t.length = .ok b := by
  simp [byteAt]

theorem byteAt_of_drop {key : List UInt8} {o : Nat} {t s : List UInt8} {b : UInt8} (h : key.drop o = t ++ b :: s) :
    byteAt key (t.length + o) = .ok b := by
  have he : key[o + t.length]? = some b := by rw [← List.getElem?_drop, h]; simp
  simp [byteAt, Nat.add_comm, he]

theorem toNat_lt_of_nibble {x : UInt8} (h : x < 16) : x.toNat < 16 :=
  UInt8.lt_iff_toNat_lt.1 h

theorem childIndex_of_lt {b : UInt8} (h : b.toNat < 16) : childIndex b = .ok ⟨b.toNat, h⟩ := by
  rw [childIndex, dif_pos h]

/-- The elder sibling is a child left of `idx` that is not `nil`. -/
theorem elderSibling_spec {cs : Fin 16 → StackTrie} {idx : Nat} {i : Fin 16} (h : elderSibling cs idx = some i) :
    i.val < idx ∧ (cs i).isNil = false := by
  induction idx with
  | zero => simp [elderSibling] at h
  | succ m ih =>
    unfold elderSibling at h
    split_ifs at h with hm hnil
    · obtain ⟨hlt, hi⟩ := ih h
      exact ⟨by omega, hi⟩
    · cases h
      exact ⟨Nat.lt_succ_self m, by simpa using hnil⟩
    · obtain ⟨hlt, hi⟩ := ih h
      exact ⟨by omega, hi⟩

/-! ### The children of a branch -/

variable (keccak) in
/-- The children of a stack branch against the nibble children `ns` of a full node: a child that is
not `nil` stands for its node child, having written `ws i`, and a `nil` child is a `nil` node child
that has written nothing. -/
structure Kids (cs : Fin 16 → StackTrie) (ns : Fin 17 → Node) (ws : Fin 16 → List (List UInt8 × List UInt8)) :
    Prop where
  rep : ∀ i, cs i ≠ .nil → Rep keccak (cs i) (ns i.castSucc) (ws i)
  nil : ∀ i, cs i = .nil → ns i.castSucc = .nil ∧ ws i = []

theorem Kids.empty : Kids keccak noChildren (fun _ => .nil) (fun _ => []) :=
  ⟨fun _ h => absurd rfl h, fun _ _ => ⟨rfl, rfl⟩⟩

/-- Setting child `i` to a node that stands for `n`. -/
theorem Kids.update {cs : Fin 16 → StackTrie} {ns : Fin 17 → Node} {ws : Fin 16 → List (List UInt8 × List UInt8)}
    (h : Kids keccak cs ns ws) (i : Fin 16) {c : StackTrie} {n : Node} {w : List (List UInt8 × List UInt8)}
    (hc : Rep keccak c n w) :
    Kids keccak (Function.update cs i c) (Function.update ns i.castSucc n) (Function.update ws i w) := by
  constructor
  · intro j hj
    by_cases hji : j = i
    · subst hji
      simpa using hc
    · have hji' : j.castSucc ≠ i.castSucc := (Fin.castSucc_injective _).ne hji
      rw [Function.update_of_ne hji] at hj ⊢
      rw [Function.update_of_ne hji', Function.update_of_ne hji]
      exact h.rep j hj
  · intro j hj
    by_cases hji : j = i
    · subst hji
      rw [Function.update_self] at hj
      exact absurd hj hc.stack_ne_nil
    · have hji' : j.castSucc ≠ i.castSucc := (Fin.castSucc_injective _).ne hji
      rw [Function.update_of_ne hji] at hj ⊢
      rw [Function.update_of_ne hji']
      exact h.nil j hj

theorem Kids.eq_nil_iff {cs : Fin 16 → StackTrie} {ns : Fin 17 → Node} {ws : Fin 16 → List (List UInt8 × List UInt8)}
    (h : Kids keccak cs ns ws) (i : Fin 16) : cs i = .nil ↔ ns i.castSucc = .nil :=
  ⟨fun h0 => (h.nil i h0).1, fun hn => by_contra fun h0 => (h.rep i h0).ne_nil hn⟩

theorem two_le_liveChildren_update {ns : Fin 17 → Node} (h : 2 ≤ (Node.liveChildren ns).length) (i : Fin 17)
    {n : Node} (hn : n ≠ .nil) : 2 ≤ (Node.liveChildren (Function.update ns i n)).length := by
  obtain ⟨a, b, hab, ha, hb⟩ := two_le_length_liveChildren_iff.1 h
  exact two_le_length_liveChildren_iff.2 ⟨a, b, hab, update_ne_nil ha hn, update_ne_nil hb hn⟩

/-- The pairs written below a branch after child `i` writes `w` more. -/
theorem mem_flatMap_update {α : Type} {ws : Fin 16 → List α} {i : Fin 16} {w w' : List α}
    (hw : ∀ x, x ∈ w' ↔ x ∈ ws i ++ w) (x : α) :
    x ∈ (List.finRange 16).flatMap (Function.update ws i w') ↔ x ∈ (List.finRange 16).flatMap ws ++ w := by
  simp only [List.mem_append, List.mem_flatMap, List.mem_finRange, true_and]
  constructor
  · rintro ⟨j, hj⟩
    by_cases hji : j = i
    · subst hji
      rw [Function.update_self, hw, List.mem_append] at hj
      exact hj.imp (fun h => ⟨j, h⟩) id
    · exact .inl ⟨j, by rwa [Function.update_of_ne hji] at hj⟩
  · rintro (⟨j, hj⟩ | hx)
    · by_cases hji : j = i
      · subst hji
        exact ⟨j, by rw [Function.update_self, hw]; exact List.mem_append_left _ hj⟩
      · exact ⟨j, by rwa [Function.update_of_ne hji]⟩
    · exact ⟨i, by rw [Function.update_self, hw]; exact List.mem_append_right _ hx⟩

/-- Hashing the elder sibling keeps every child standing for its node child; the pairs written are
the rest of the stored nodes of the child hashed, and the children from `idx` on stay as they are. -/
theorem hashElder_rep (hk : ∀ d, (keccak d).length = 32) {cs : Fin 16 → StackTrie} {ns : Fin 17 → Node}
    {ws : Fin 16 → List (List UInt8 × List UInt8)} (h : Kids keccak cs ns ws) (hs : ∀ i : Fin 16, Small (ns i.castSucc))
    (idx : Nat) :
    ∃ cs' ws' w, hashElder keccak cs idx = .ok (cs', w) ∧ Kids keccak cs' ns ws' ∧
      (∀ i : Fin 16, idx ≤ i.val → cs' i = cs i ∧ ws' i = ws i) ∧
      ∀ x, x ∈ (List.finRange 16).flatMap ws' ↔ x ∈ (List.finRange 16).flatMap ws ++ w := by
  unfold hashElder
  split
  · exact ⟨cs, ws, [], rfl, h, fun _ _ => ⟨rfl, rfl⟩, by simp⟩
  next e he =>
    obtain ⟨hlt, hne⟩ := elderSibling_spec he
    have hre := h.rep e (by intro h0; simp [h0, isNil] at hne)
    by_cases hh : (cs e).isHashed
    · exact ⟨cs, ws, [], by simp [hh], h, fun _ _ => ⟨rfl, rfl⟩, by simp⟩
    · obtain ⟨c, wc, hc, hch, hcv, hw⟩ := hash_rep hk hre (hs e)
      have hkids := h.update e (rep_of_isHashed hch hcv hre.canonical hre.ne_nil)
      rw [Function.update_eq_self] at hkids
      refine ⟨_, _, wc, by simp [hh, hc], hkids, fun i hi => ?_, mem_flatMap_update fun x => (hw x).symm⟩
      have hie : i ≠ e := by rintro rfl; omega
      exact ⟨Function.update_of_ne hie .., Function.update_of_ne hie ..⟩

/-! ### The right-hand edge -/

/-- The right-hand edge of a stack trie, from a node at offset `o`: the nodes on it are not hashed
and sit at their offsets, an extension's child past the extension's chunk and a branch's last child
that is not `nil` one nibble further. -/
inductive Open : Nat → StackTrie → Prop
  | leaf {o : Nat} {v k : List UInt8} {cs : Fin 16 → StackTrie} : Open o (.node .leafNode v k o cs)
  | ext {o : Nat} {v k : List UInt8} {cs : Fin 16 → StackTrie} :
      Open (o + k.length) (cs 0) → Open o (.node .extNode v k o cs)
  | branch {o : Nat} {v k : List UInt8} {cs : Fin 16 → StackTrie} (j : Fin 16) :
      Open (o + 1) (cs j) → (∀ i, j < i → cs i = .nil) → Open o (.node .branchNode v k o cs)

theorem Open.ne_nil {o : Nat} {st : StackTrie} (h : Open o st) : st ≠ .nil := by
  cases h <;> simp

/-! ### Splitting a leaf or an extension -/

theorem insertNil_of_ne_nil {p : List UInt8} (hp : p ≠ []) (n : Node) : Node.insertNil p n = .short p n newFlag := by
  simp [Node.insertNil, hp]

/-- A node holding a key chunk no longer than a short node's, over its child, holds keys no longer
than the short node's. -/
theorem small_insertNil {p k : List UInt8} {c : Node} {f : NodeFlag} (hp : p.length ≤ k.length)
    (h : Small (.short k c f)) : Small (Node.insertNil p c) := by
  intro q v hq
  rw [Node.lookup_insertNil] at hq
  obtain ⟨q', rfl⟩ := prefix_of_under_ne_none (by rw [hq]; simp)
  rw [under_apply_append] at hq
  have := h (k ++ q') v (by simpa using hq)
  simp only [List.length_append] at this ⊢
  omega

/-- The branch of a split: the old part at nibble `a`, the new leaf at a nibble `b` past it. -/
theorem splitBranch_rep {v k : List UInt8} {o : Nat} {a b : UInt8} (hab : a < b) (ha : a.toNat < 16)
    (hb : b.toNat < 16) {orig : StackTrie} {norig : Node} (horig : Rep keccak orig norig (storedNodes keccak norig))
    {s value : List UInt8} (hs : Nibbles s) (ko : Nat) :
    ∃ W, Rep keccak (.node .branchNode v k o (Function.update (Function.update noChildren ⟨a.toNat, ha⟩ orig)
        ⟨b.toNat, hb⟩ (.node .leafNode value s ko noChildren)))
      (.full (Function.update (Function.update (fun _ => .nil) ⟨a.toNat, by omega⟩ norig) ⟨b.toNat, by omega⟩
        (Node.insertNil (s ++ [16]) (.value value))) newFlag) W ∧ ∀ x, x ∈ W ↔ x ∈ storedNodes keccak norig := by
  have hab' : a.toNat < b.toNat := UInt8.lt_iff_toNat_lt.1 hab
  have hne : (⟨b.toNat, by omega⟩ : Fin 17) ≠ ⟨a.toNat, by omega⟩ := by
    simp only [ne_eq, Fin.mk.injEq]
    omega
  have hkids := (Kids.empty.update ⟨a.toNat, ha⟩ horig).update ⟨b.toNat, hb⟩
    (Rep.leaf (v := value) (o := ko) hs fun _ => rfl)
  simp only [Fin.castSucc_mk] at hkids
  rw [← insertNil_of_ne_nil (by simp)] at hkids
  refine ⟨_, .branch hkids.rep hkids.nil ?_ ?_, fun x => ?_⟩
  · rw [Function.update_of_ne, Function.update_of_ne] <;> simp [Fin.ext_iff] <;> omega
  · refine two_le_length_liveChildren_iff.2 ⟨_, _, hne, ?_, ?_⟩
    · rw [Function.update_self]
      exact Node.insertNil_ne_nil _ (by simp)
    · rw [Function.update_of_ne hne.symm, Function.update_self]
      exact horig.ne_nil
  · have hba : (⟨b.toNat, hb⟩ : Fin 16) ≠ ⟨a.toNat, ha⟩ := fun h => hne (by simpa [Fin.ext_iff] using h)
    rw [mem_flatMap_update (w := []) (by simp [Function.update_of_ne hba]), List.append_nil,
      mem_flatMap_update (w := storedNodes keccak norig) (by simp)]
    simp

/-- The branch of a split is on the right-hand edge, through the new leaf. -/
theorem splitBranch_open {v k : List UInt8} {o : Nat} {a b : UInt8} (hab : a < b) (ha : a.toNat < 16)
    (hb : b.toNat < 16) (orig : StackTrie) (value s : List UInt8) :
    Open o (.node .branchNode v k o (Function.update (Function.update noChildren ⟨a.toNat, ha⟩ orig)
      ⟨b.toNat, hb⟩ (.node .leafNode value s (o + 1) noChildren))) := by
  refine .branch ⟨b.toNat, hb⟩ (by rw [Function.update_self]; exact .leaf) fun i hi => ?_
  have hab' : a.toNat < b.toNat := UInt8.lt_iff_toNat_lt.1 hab
  have hib : i ≠ ⟨b.toNat, hb⟩ := ne_of_gt hi
  have hia : i ≠ ⟨a.toNat, ha⟩ := fun h => by subst h; simp [Fin.lt_def] at hi; omega
  rw [Function.update_of_ne hib, Function.update_of_ne hia]
  rfl

/-- What `split` builds where the key `t ++ b :: s` parts from the chunk `t ++ a :: u` of a node at
`o` whose only child is the first: with the old part, hashed, standing for `norig`, it stands for
the node `lookup_split` describes and is on the right-hand edge. -/
theorem split_rep {t u : List UInt8} {a b : UInt8} (hab : a < b) (ha : a.toNat < 16) (hb : b.toNat < 16)
    (ht : Nibbles t) {v : List UInt8} {o : Nat} {cs : Fin 16 → StackTrie} (hcs : ∀ i, i ≠ 0 → cs i = .nil)
    {orig : StackTrie} {norig : Node} (horig : Rep keccak orig norig (storedNodes keccak norig))
    {key s : List UInt8} (value : List UInt8) (hs : Nibbles s) (hkey : key.drop (o + t.length + 1) = s) :
    ∃ W, Open o (split t.length v (t ++ a :: u) o cs ⟨a.toNat, ha⟩ ⟨b.toNat, hb⟩ orig
        (newLeaf (o + t.length + 1) key value)) ∧
      Rep keccak (split t.length v (t ++ a :: u) o cs ⟨a.toNat, ha⟩ ⟨b.toNat, hb⟩ orig
        (newLeaf (o + t.length + 1) key value))
        (Node.insertNil t (.full (Function.update (Function.update (fun _ => .nil) ⟨a.toNat, by omega⟩ norig)
          ⟨b.toNat, by omega⟩ (Node.insertNil (s ++ [16]) (.value value))) newFlag)) W ∧
      ∀ x, x ∈ W ↔ x ∈ storedNodes keccak norig := by
  rw [newLeaf, hkey]
  by_cases ht0 : t = []
  · -- the node itself becomes the branch
    subst ht0
    have hbase : Function.update cs 0 .nil = noChildren := by
      funext i
      by_cases hi : i = 0
      · subst hi
        rfl
      · rw [Function.update_of_ne hi, hcs i hi]
        rfl
    obtain ⟨W, hrep, hw⟩ := splitBranch_rep (v := v) (k := []) (o := o) hab ha hb horig hs (o + 1)
    simp only [split, List.length_nil, Nat.add_zero, if_true, hbase, Node.insertNil, if_true]
    exact ⟨W, splitBranch_open hab ha hb orig value s, hrep, hw⟩
  · -- the node keeps `t` as an extension over a new branch
    obtain ⟨W, hrep, hw⟩ := splitBranch_rep (v := []) (k := []) (o := o + t.length) hab ha hb horig hs
      (o + t.length + 1)
    have hlen : t.length ≠ 0 := by simpa using ht0
    rw [split, if_neg hlen, List.take_left' rfl, insertNil_of_ne_nil ht0]
    refine ⟨W, .ext ?_, .ext ht0 ht (by rwa [Function.update_self]) fun i hi => ?_, hw⟩
    · rw [Function.update_self]
      exact splitBranch_open hab ha hb orig value s
    · rw [Function.update_of_ne hi, hcs i hi]

/-! ### Inserting -/

variable (keccak) in
/-- What inserting `key` and `value` into a node at offset `o` that stands for `n`, having written
`W`, must give: a node on the right-hand edge standing for `n` with the key set, having written `W`
and the pairs `insert` returns; a full node stays a full node. -/
def Inserted (o : Nat) (st : StackTrie) (n : Node) (W : List (List UInt8 × List UInt8)) (key value : List UInt8) :
    Prop :=
  ∃ st' w n' W', st.insert keccak key value = .ok (st', w) ∧ Open o st' ∧ Rep keccak st' n' W' ∧
    n'.lookup = Function.update n.lookup (key.drop o ++ [16]) (some value) ∧ (∀ x, x ∈ W' ↔ x ∈ W ++ w) ∧
    ∀ ns, n = .full ns newFlag → ∃ ns', n' = .full ns' newFlag

/-- A key of nibbles never parts above the terminator. -/
theorem not_parts_term {r : List UInt8} (h : Nibbles r) : ¬ KeyOrder.Parts [16] r := by
  rintro ⟨t, a, b, p, s, h1, rfl, hab⟩
  cases t with
  | nil =>
    simp only [List.nil_append, List.cons.injEq] at h1
    obtain ⟨rfl, -⟩ := h1
    have hb := UInt8.lt_iff_toNat_lt.1 (h b (by simp))
    have h16 := UInt8.lt_iff_toNat_lt.1 hab
    simp only [UInt8.reduceToNat] at hb h16
    omega
  | cons c t => simp at h1

/-- Inserting into a leaf: the new key parts from the leaf's key inside its chunk, as it cannot run
past the chunk into the terminator, and the leaf is split there. -/
theorem insert_leaf (hk : ∀ d, (keccak d).length = 32) {v k : List UInt8} {o : Nat} {cs : Fin 16 → StackTrie}
    (hkn : Nibbles k) (hcs : ∀ i, cs i = .nil) (hs : Small (.short (k ++ [16]) (.value v) newFlag))
    {key value : List UInt8} (hkey : Nibbles (key.drop o))
    (hparts : ∀ q, (Node.short (k ++ [16]) (.value v) newFlag).lookup q ≠ none → KeyOrder.Parts q (key.drop o)) :
    Inserted keccak o (.node .leafNode v k o cs) (.short (k ++ [16]) (.value v) newFlag) [] key value := by
  have hleaf := hparts (k ++ [16]) (by simp)
  have hpk : KeyOrder.Parts k (key.drop o) := by
    rcases hleaf.prefix_or_parts with ⟨r, hr⟩ | h
    · rw [← hr, KeyOrder.parts_append_left_iff] at hleaf
      exact absurd hleaf (not_parts_term fun x hx => hkey x (hr ▸ List.mem_append_right k hx))
    · exact h
  obtain ⟨t, a, b, u, s, rfl, hr, hab⟩ := hpk
  have ha := toNat_lt_of_nibble (hkn a (by simp))
  have hb := toNat_lt_of_nibble (hkey b (by simp [hr]))
  have hab' : a.toNat < b.toNat := UInt8.lt_iff_toNat_lt.1 hab
  have hu : Nibbles u := fun x hx => hkn x (by simp [hx])
  -- the part of the leaf past the split, hashed
  have hrep₀ : Rep keccak (newLeaf (t.length + 1) (t ++ a :: u) v) (Node.insertNil (u ++ [16]) (.value v)) [] := by
    have hdrop : (t ++ a :: u).drop (t.length + 1) = u := by simp
    rw [insertNil_of_ne_nil (by simp), newLeaf, hdrop]
    exact .leaf hu fun _ => rfl
  obtain ⟨c, wc, hc, hch, hcv, hw⟩ :=
    hash_rep hk hrep₀ (small_insertNil (by simp; omega) hs)
  have hkey' : key.drop (o + t.length + 1) = s := by
    rw [Nat.add_assoc, ← List.drop_drop, hr]
    simp
  obtain ⟨W, hopen, hrep, hW⟩ := split_rep (u := u) (v := []) hab ha hb (fun x hx => hkn x (by simp [hx]))
    (fun i _ => hcs i) (rep_of_isHashed hch hcv hrep₀.canonical hrep₀.ne_nil) value
    (fun x hx => hkey x (by simp [hr, hx])) hkey'
  have hne : a ≠ b := by rintro rfl; omega
  refine ⟨_, wc, _, W, ?_, hopen, hrep, ?_, fun x => (hW x).trans (hw x).symm, by simp⟩
  · rw [insert, hr, getDiffIndex_parts t hne u s]
    simp only [Except.ok_bind]
    rw [if_neg (by simp), byteAt_append_cons]
    simp [childIndex_of_lt ha, hc, byteAt_of_drop hr, childIndex_of_lt hb]
  · rw [Node.lookup_split t (u ++ [16]) (s ++ [16]) hne, hr]
    simp

/-- Inserting into an extension: a key that runs through the whole chunk goes into the child, and one
that parts from the chunk inside it splits the extension there. -/
theorem insert_ext (hk : ∀ d, (keccak d).length = 32) {v k : List UInt8} {o : Nat} {cs : Fin 16 → StackTrie}
    {ns : Fin 17 → Node} {W : List (List UInt8 × List UInt8)} (hne : k ≠ []) (hkn : Nibbles k)
    (hc : Rep keccak (cs 0) (.full ns newFlag) W) (hcs : ∀ i, i ≠ 0 → cs i = .nil)
    (hs : Small (.short k (.full ns newFlag) newFlag)) {key value : List UInt8} (hkey : Nibbles (key.drop o))
    (hparts : ∀ q, (Node.short k (.full ns newFlag) newFlag).lookup q ≠ none → KeyOrder.Parts q (key.drop o))
    (ih : Nibbles (key.drop (o + k.length)) →
      (∀ q, (Node.full ns newFlag).lookup q ≠ none → KeyOrder.Parts q (key.drop (o + k.length))) →
      Inserted keccak (o + k.length) (cs 0) (.full ns newFlag) W key value) :
    Inserted keccak o (.node .extNode v k o cs) (.short k (.full ns newFlag) newFlag) W key value := by
  obtain ⟨q, hq⟩ := hc.canonical.exists_key (by simp)
  rcases (hparts (k ++ q) (by simpa using hq)).prefix_or_parts with ⟨r, hr⟩ | hpk
  · -- the key runs through the chunk: it goes into the child
    have hdrop : key.drop (o + k.length) = r := by rw [← List.drop_drop, ← hr]; simp
    have hchild : ∀ q, (Node.full ns newFlag).lookup q ≠ none → KeyOrder.Parts q r := fun q hq => by
      have h := hparts (k ++ q) (by simpa using hq)
      rwa [← hr, KeyOrder.parts_append_left_iff] at h
    obtain ⟨c, w, n', W', hins, hopen, hrep, hlook, hW, hshape⟩ :=
      ih (hdrop ▸ fun x hx => hkey x (hr ▸ List.mem_append_right k hx)) (hdrop ▸ hchild)
    obtain ⟨ns', rfl⟩ := hshape ns rfl
    refine ⟨.node .extNode v k o (Function.update cs 0 c), w, .short k (.full ns' newFlag) newFlag, W', ?_, .ext ?_,
      .ext hne hkn ?_ fun i hi => ?_, ?_, hW, by simp⟩
    · rw [insert, ← hr, getDiffIndex_append]
      simp [hins]
    · rwa [Function.update_self]
    · rwa [Function.update_self]
    · rw [Function.update_of_ne hi, hcs i hi]
    · rw [Node.lookup_short, Node.lookup_short, hlook, hdrop, ← update_under, ← hr, List.append_assoc]
  · -- the key parts inside the chunk: the extension is split there
    obtain ⟨t, a, b, u, s, rfl, hr, hab⟩ := hpk
    have ha := toNat_lt_of_nibble (hkn a (by simp))
    have hb := toNat_lt_of_nibble (hkey b (by simp [hr]))
    have hab' : a.toNat < b.toNat := UInt8.lt_iff_toNat_lt.1 hab
    have hne' : a ≠ b := by rintro rfl; omega
    -- the part of the extension past the split: an extension over the rest of the chunk, or the child
    have horig : Rep keccak (if t.length < (t ++ a :: u).length - 1 then newExt (t.length + 1) (t ++ a :: u) (cs 0)
        else cs 0) (Node.insertNil u (.full ns newFlag)) W := by
      by_cases hu : u = []
      · subst hu
        rw [if_neg (by simp)]
        simpa [Node.insertNil] using hc
      · have hlt : t.length < (t ++ a :: u).length - 1 := by
          have := List.length_pos_of_ne_nil hu
          simp
          omega
        have hdrop : (t ++ a :: u).drop (t.length + 1) = u := by simp
        rw [if_pos hlt, newExt, hdrop, insertNil_of_ne_nil hu]
        refine .ext hu (fun x hx => hkn x (by simp [hx])) (by rwa [Function.update_self]) fun i hi => ?_
        rw [Function.update_of_ne hi]
        rfl
    obtain ⟨c, wc, hh, hch, hcv, hw⟩ := hash_rep hk horig (small_insertNil (by simp; omega) hs)
    have hkey' : key.drop (o + t.length + 1) = s := by
      rw [Nat.add_assoc, ← List.drop_drop, hr]
      simp
    obtain ⟨W', hopen, hrep, hW⟩ := split_rep (u := u) (v := v) hab ha hb (fun x hx => hkn x (by simp [hx])) hcs
      (rep_of_isHashed hch hcv horig.canonical horig.ne_nil) value (fun x hx => hkey x (by simp [hr, hx])) hkey'
    refine ⟨_, wc, _, W', ?_, hopen, hrep, ?_, fun x => (hW x).trans (hw x).symm, by simp⟩
    · rw [insert, hr, getDiffIndex_parts t hne' u s]
      simp only [Except.ok_bind]
      rw [if_neg (by simp), hh]
      simp [byteAt_append_cons, childIndex_of_lt ha, byteAt_of_drop hr, childIndex_of_lt hb]
    · rw [Node.lookup_split t u (s ++ [16]) hne', hr]
      simp

/-- A branch whose child `idx` becomes a node on the right-hand edge standing for `nc`, with no child
past `idx`, stands for the full node with `nc` at `idx` and is on the right-hand edge. -/
theorem branch_update {v k : List UInt8} {o : Nat} {cs : Fin 16 → StackTrie} {ns : Fin 17 → Node}
    {ws : Fin 16 → List (List UInt8 × List UInt8)} (hkids : Kids keccak cs ns ws) (h16 : ns 16 = .nil)
    (hlive : 2 ≤ (Node.liveChildren ns).length) {idx : Fin 16} (hgt : ∀ i, idx < i → cs i = .nil)
    {c : StackTrie} {nc : Node} {wc : List (List UInt8 × List UInt8)} (hc : Rep keccak c nc wc) (hopen : Open (o + 1) c) :
    Open o (.node .branchNode v k o (Function.update cs idx c)) ∧
      Rep keccak (.node .branchNode v k o (Function.update cs idx c)) (.full (Function.update ns idx.castSucc nc) newFlag)
        ((List.finRange 16).flatMap (Function.update ws idx wc)) := by
  have hkids' := hkids.update idx hc
  refine ⟨.branch idx (by rwa [Function.update_self]) fun i hi => ?_, .branch hkids'.rep hkids'.nil ?_ ?_⟩
  · rw [Function.update_of_ne (ne_of_gt hi), hgt i hi]
  · have hne : (16 : Fin 17) ≠ idx.castSucc := by
      simp only [ne_eq, Fin.ext_iff, Fin.val_castSucc]
      omega
    rw [Function.update_of_ne hne]
    exact h16
  · exact two_le_liveChildren_update hlive _ hc.ne_nil

/-- Inserting into a branch: the elder sibling of the key's child is hashed, and the key goes into
that child, or into a new leaf where the child is `nil`. -/
theorem insert_branch (hk : ∀ d, (keccak d).length = 32) {v k : List UInt8} {o : Nat} {cs : Fin 16 → StackTrie}
    {ns : Fin 17 → Node} {ws : Fin 16 → List (List UInt8 × List UInt8)} (hkids : Kids keccak cs ns ws)
    (h16 : ns 16 = .nil) (hlive : 2 ≤ (Node.liveChildren ns).length) (hs : Small (.full ns newFlag)) {j : Fin 16}
    (hj : cs j ≠ .nil) (hgt : ∀ i, j < i → cs i = .nil) {key value : List UInt8} (hkey : Nibbles (key.drop o))
    (hparts : ∀ q, (Node.full ns newFlag).lookup q ≠ none → KeyOrder.Parts q (key.drop o))
    (ih : ∀ n W, Rep keccak (cs j) n W → Small n → Nibbles (key.drop (o + 1)) →
      (∀ q, n.lookup q ≠ none → KeyOrder.Parts q (key.drop (o + 1))) → Inserted keccak (o + 1) (cs j) n W key value) :
    Inserted keccak o (.node .branchNode v k o cs) (.full ns newFlag) ((List.finRange 16).flatMap ws) key value := by
  -- the new key's first nibble `b` is at or past `j`, as the keys below child `j` part below it
  have hjrep := hkids.rep j hj
  obtain ⟨q, hq⟩ := hjrep.canonical.exists_key hjrep.ne_nil
  have hjq := hparts (j.castSucc.val.toUInt8 :: q) (by rwa [Node.lookup_full_fin])
  obtain ⟨b, r, hr⟩ := List.exists_cons_of_ne_nil hjq.ne_nil_right
  rw [hr, KeyOrder.parts_cons_cons] at hjq
  have hb := toNat_lt_of_nibble (hkey b (by simp [hr]))
  have hjb : ∀ x : UInt8, j.castSucc.val.toUInt8 = x → x.toNat = j.val := fun x hx => by
    rw [← hx, Node.toNat_toUInt8_fin]
    rfl
  have hdrop : key.drop (o + 1) = r := by rw [← List.drop_drop, hr]; rfl
  have hr' : key.drop o ++ [16] = b :: (r ++ [16]) := by rw [hr]; rfl
  have hnib : Nibbles r := fun x hx => hkey x (by simp [hr, hx])
  have hbyte : byteAt key o = .ok b := by simpa using byteAt_of_drop (t := []) (s := r) hr
  have hcast : (⟨b.toNat, hb⟩ : Fin 16).castSucc = ⟨b.toNat, by omega⟩ := rfl
  obtain ⟨cs', ws', we, hel, hkids', hkeep, hwe⟩ := hashElder_rep hk hkids (fun i => hs.full _) b.toNat
  rcases hjq with hlt | ⟨heq, -⟩
  · -- `b` is past `j`: the child at `b` is `nil` and becomes a new leaf
    have hji : j < ⟨b.toNat, hb⟩ := by
      have h := UInt8.lt_iff_toNat_lt.1 hlt
      rwa [hjb _ rfl] at h
    have hnil := hgt _ hji
    have hnil' := hkids.nil _ hnil
    have hleaf : Rep keccak (insertEmpty (o + 1) noChildren key value) (.short (r ++ [16]) (.value value) newFlag) [] := by
      rw [insertEmpty, hdrop]
      exact .leaf hnib fun _ => rfl
    obtain ⟨hopen, hrep⟩ := branch_update (v := v) (k := k) hkids' h16 hlive
      (fun i hi => (hkeep i hi.le).1.trans (hgt i (hji.trans hi))) hleaf (by rw [insertEmpty]; exact .leaf)
    refine ⟨_, we, _, _, ?_, hopen, hrep, ?_, fun x => ?_, fun _ _ => ⟨_, rfl⟩⟩
    · rw [insert]
      simp [hbyte, childIndex_of_lt hb, hel, hnil, isNil]
    · have hn : (Node.short (r ++ [16]) (.value value) newFlag).lookup =
          Function.update (ns ⟨b.toNat, by omega⟩).lookup (r ++ [16]) (some value) := by
        rw [← hcast, hnil'.1, Node.lookup_short, Node.lookup_value, under_single]
        rfl
      rw [hcast, Node.lookup_full_update ns newFlag newFlag (by omega) hn, hr']
    · rw [mem_flatMap_update (w := []) (by simp [(hkeep ⟨b.toNat, hb⟩ le_rfl).2, hnil'.2]), List.append_nil]
      exact hwe x
  · -- `b` is `j`: the key goes into child `j`
    have hji : j = ⟨b.toNat, hb⟩ := Fin.ext (hjb b heq).symm
    subst hji
    have hchild : ∀ q, (ns (⟨b.toNat, hb⟩ : Fin 16).castSucc).lookup q ≠ none → KeyOrder.Parts q (key.drop (o + 1)) :=
      fun q hq => by
        have h := hparts (b :: q) (by rw [Node.lookup_full_cons ns newFlag (by omega)]; exact hq)
        rw [hr, KeyOrder.parts_cons_cons] at h
        rcases h with h | ⟨-, h⟩
        · exact absurd (UInt8.lt_iff_toNat_lt.1 h) (Nat.lt_irrefl _)
        · rwa [hdrop]
    obtain ⟨c, wc, nc, Wc, hins, hopen', hrep', hlook, hW, -⟩ :=
      ih _ _ hjrep (hs.full _) (hdrop ▸ hnib) hchild
    obtain ⟨hopen, hrep⟩ := branch_update (v := v) (k := k) hkids' h16 hlive
      (fun i hi => (hkeep i hi.le).1.trans (hgt i hi)) hrep' hopen'
    refine ⟨_, we ++ wc, _, _, ?_, hopen, hrep, ?_, fun x => ?_, fun _ _ => ⟨_, rfl⟩⟩
    · have hnn : (cs ⟨b.toNat, hb⟩).isNil = false := by
        cases h : cs ⟨b.toNat, hb⟩
        · exact absurd h hj
        · rfl
      rw [insert]
      simp [hbyte, childIndex_of_lt hb, hel, hnn, hins]
    · rw [hdrop, hcast] at hlook
      rw [hcast, Node.lookup_full_update ns newFlag newFlag (by omega) hlook, hr']
    · rw [mem_flatMap_update (w := wc) (by rw [(hkeep ⟨b.toNat, hb⟩ le_rfl).2]; exact hW), List.mem_append, hwe]
      simp only [List.mem_append, or_assoc]

/-- Inserting a key that parts above every key below a node on the right-hand edge sets it in the
node's map and keeps the node on the edge; the pairs written complete the stored nodes of the parts
hashed on the way. -/
theorem insert_rep (hk : ∀ d, (keccak d).length = 32) {o : Nat} {st : StackTrie} (hopen : Open o st)
    {n : Node} {W : List (List UInt8 × List UInt8)} (hrep : Rep keccak st n W) (hs : Small n)
    {key value : List UInt8} (hkey : Nibbles (key.drop o))
    (hparts : ∀ q, n.lookup q ≠ none → KeyOrder.Parts q (key.drop o)) :
    Inserted keccak o st n W key value := by
  induction hopen generalizing n W with
  | leaf =>
    cases hrep with
    | leaf hkn hcs => exact insert_leaf hk hkn hcs hs hkey hparts
  | ext _ ih =>
    cases hrep with
    | ext hne hkn hc hcs => exact insert_ext hk hne hkn hc hcs hs hkey hparts (ih hc hs.short)
  | branch j hj hgt ih =>
    cases hrep with
    | branch hrep hnil h16 hlive =>
      exact insert_branch hk ⟨hrep, hnil⟩ h16 hlive hs hj.ne_nil hgt hkey hparts fun _ _ h hs' => ih h hs'

/-! ### Runs of `Update` -/

variable (keccak) in
/-- The stack trie between `Update`s, standing for the canonical node `n` of the pairs so far and
having written `W`: the empty node, or a node on the right-hand edge from offset 0. -/
inductive Root : StackTrie → Node → List (List UInt8 × List UInt8) → Prop
  | empty : Root empty .nil []
  | node {st : StackTrie} {n : Node} {W : List (List UInt8 × List UInt8)} : Open 0 st → Rep keccak st n W → Root st n W

theorem insert_root (hk : ∀ d, (keccak d).length = 32) {st : StackTrie} {n : Node} {W : List (List UInt8 × List UInt8)}
    (h : Root keccak st n W) (hs : Small n) {key : List UInt8} (value : List UInt8) (hkey : Nibbles key)
    (hparts : ∀ q, n.lookup q ≠ none → KeyOrder.Parts q key) :
    ∃ st' w n' W', st.insert keccak key value = .ok (st', w) ∧ Root keccak st' n' W' ∧
      n'.lookup = Function.update n.lookup (key ++ [16]) (some value) ∧ ∀ x, x ∈ W' ↔ x ∈ W ++ w := by
  cases h with
  | empty =>
    -- the empty node becomes a leaf over the whole key
    refine ⟨_, [], _, [], rfl, .node .leaf (.leaf (by simpa using hkey) fun _ => rfl), ?_, by simp⟩
    rw [Node.lookup_short, Node.lookup_value, List.drop_zero, under_single]
    rfl
  | node hopen hrep =>
    obtain ⟨st', w, n', W', hins, hopen', hrep', hlook, hW, -⟩ :=
      insert_rep hk hopen hrep hs (by simpa using hkey) (by simpa using hparts)
    exact ⟨st', w, n', W', hins, .node hopen' hrep', by simpa using hlook, hW⟩

/-- A run of `Update`s, each key parting above every key before it, builds the canonical node of the
pairs; the pairs written complete the stored nodes of the parts hashed. -/
theorem updateAll_root (hk : ∀ d, (keccak d).length = 32) :
    ∀ (kvs : List (List UInt8 × List UInt8)) {st : StackTrie} {n : Node} {W : List (List UInt8 × List UInt8)},
      Root keccak st n W → Small n → (∀ kv ∈ kvs, kv.2 ≠ [] ∧ kv.1.length < 2 ^ 60 ∧ kv.2.length < 2 ^ 62) →
      (∀ kv ∈ kvs, ∀ q, n.lookup q ≠ none → KeyOrder.Parts q (keybytesToHex kv.1).dropLast) →
      kvs.Pairwise (fun a b => KeyOrder.Parts a.1 b.1) →
      ∃ st' w n' W', st.updateAll keccak kvs = .ok (st', w) ∧ Root keccak st' n' W' ∧ Small n' ∧
        n'.lookup = Store.applyWrites (fun kv => keybytesToHex kv.1) (fun kv => some kv.2) n.lookup kvs ∧
        ∀ x, x ∈ W' ↔ x ∈ W ++ w
  | [], st, n, W, h, hs, _, _, _ => ⟨st, [], n, W, rfl, h, hs, rfl, by simp⟩
  | (k, v) :: kvs, st, n, W, h, hs, hkv, hparts, hsorted => by
    obtain ⟨hv, hkl, hvl⟩ := hkv (k, v) (by simp)
    simp only at hv hkl hvl
    obtain ⟨st₁, w₁, n₁, W₁, hins, h₁, hlook₁, hW₁⟩ :=
      insert_root hk h hs v (nibbles_dropLast_keybytesToHex k) (hparts (k, v) (by simp))
    rw [dropLast_keybytesToHex_append] at hlook₁
    -- the node after the first pair still holds small pairs, all parting below the later keys
    have hs₁ : Small n₁ := by
      intro q x hq
      rw [hlook₁, Function.update_apply] at hq
      split_ifs at hq with hqk
      · cases hq
        rw [hqk, length_keybytesToHex]
        exact ⟨by omega, hvl⟩
      · exact hs q x hq
    have hparts₁ : ∀ kv ∈ kvs, ∀ q, n₁.lookup q ≠ none → KeyOrder.Parts q (keybytesToHex kv.1).dropLast := by
      intro kv hkv' q hq
      rw [hlook₁, Function.update_apply] at hq
      split_ifs at hq with hqk
      · rw [hqk]
        exact parts_keybytesToHex ((List.pairwise_cons.1 hsorted).1 kv hkv')
      · exact hparts kv (by simp [hkv']) q hq
    obtain ⟨st₂, w₂, n₂, W₂, hrun, h₂, hs₂, hlook₂, hW₂⟩ := updateAll_root hk kvs h₁ hs₁
      (fun kv hkv' => hkv kv (by simp [hkv'])) hparts₁ (List.pairwise_cons.1 hsorted).2
    refine ⟨st₂, w₁ ++ w₂, n₂, W₂, ?_, h₂, hs₂, by rw [hlook₂, hlook₁]; rfl, fun x => ?_⟩
    · simp [updateAll, tryUpdate, hv, hins, hrun]
    · rw [hW₂, List.mem_append, hW₁]
      simp [or_assoc]

/-! ### `Hash` and `Commit` -/

/-- `Hash` and then `Commit` of a stack trie node standing for `n`: the root hash is the hash of the
encoding of `n`, and `Commit` completes the stored nodes of `n` with `n` itself when a parent would
hold it by value. -/
theorem rootHash_commit_rep (hk : ∀ d, (keccak d).length = 32) {st : StackTrie} {n : Node}
    {W : List (List UInt8 × List UInt8)} (h : Rep keccak st n W) (hs : Small n) :
    ∃ st' w' st'' w'', st.rootHash keccak = .ok (keccak (encoding keccak n), st', w') ∧
      st'.commit keccak true = .ok (keccak (encoding keccak n), st'', w'') ∧
      ∀ x, x ∈ W ++ w' ++ w'' ↔ x ∈ storedNodes keccak n ∨ x = (keccak (encoding keccak n), encoding keccak n) := by
  obtain ⟨st', w', hh, hch, hcv, hw⟩ := hash_rep hk h hs
  obtain ⟨v, k, o, cs, rfl⟩ : ∃ v k o cs, st' = .node .hashedNode v k o cs := by
    match st', hch with
    | .node .hashedNode v k o cs, _ => exact ⟨v, k, o, cs, rfl⟩
  rw [val_node] at hcv
  subst hcv
  by_cases h32 : (encoding keccak n).length < 32
  · -- a parent would hold the root by value: `Hash` hashes it and `Commit` also writes it
    have href : ref keccak n = encoding keccak n := if_pos h32
    have hne : (encoding keccak n).length ≠ 32 := by omega
    refine ⟨.node .hashedNode (ref keccak n) k o cs, w', .node .hashedNode (ref keccak n) k o cs,
      [(keccak (encoding keccak n), encoding keccak n)], ?_, ?_, fun x => ?_⟩
    · simp [rootHash, hh, href, hne]
    · simp [commit, hash_hashedNode, href, hne]
    · rw [List.mem_append, hw]
      simp
  · -- the root is held by its hash, and written with the stored nodes already
    have href : ref keccak n = keccak (encoding keccak n) := if_neg h32
    refine ⟨.node .hashedNode (ref keccak n) k o cs, w', .node .hashedNode (ref keccak n) k o cs, [], ?_, ?_,
      fun x => ?_⟩
    · simp [rootHash, hh, href, hk]
    · simp [commit, hash_hashedNode, href, hk]
    · rw [List.append_nil, hw]
      constructor
      · exact .inl
      · rintro (hx | rfl)
        · exact hx
        · exact mem_storedNodes_self h.canonical h.ne_nil h32

/-- The trie the same `Update`s build from an empty trie holds the pairs as the stack trie's node does. -/
theorem lookup_runOps_update (db : Database) (kvs : List (List UInt8 × List UInt8)) (hv : ∀ kv ∈ kvs, kv.2 ≠ []) :
    ((Trie.empty db).runOps (kvs.map fun kv => .update kv.1 kv.2)).root.lookup =
      Store.applyWrites (fun kv => keybytesToHex kv.1) (fun kv => some kv.2) Node.nil.lookup kvs := by
  rw [(Trie.runOps_spec _ Canonical.nil).2, Store.applyWrites_map]
  exact Store.applyWrites_congr _ _ (fun kv hkv => ⟨rfl, by simp [Op.written, hv kv hkv]⟩) _

/-! ### The stack trie against the trie -/

/-- After `Update`s of pairs with non-empty values whose keys come in increasing order, none a prefix
of another, the stack trie stands for the root of the trie the same `Update`s build from an empty
trie. -/
theorem updateAll_runOps (hk : ∀ d, (keccak d).length = 32) (db : Database)
    (kvs : List (List UInt8 × List UInt8)) (hsorted : kvs.Pairwise fun a b => a.1 < b.1 ∧ ¬ a.1 <+: b.1)
    (hkv : ∀ kv ∈ kvs, kv.2 ≠ [] ∧ kv.1.length < 2 ^ 60 ∧ kv.2.length < 2 ^ 62) :
    ∃ st w W, empty.updateAll keccak kvs = .ok (st, w) ∧
      Root keccak st ((Trie.empty db).runOps (kvs.map fun kv => .update kv.1 kv.2)).root W ∧
      Small ((Trie.empty db).runOps (kvs.map fun kv => .update kv.1 kv.2)).root ∧
      Canonical ((Trie.empty db).runOps (kvs.map fun kv => .update kv.1 kv.2)).root ∧ ∀ x, x ∈ W ↔ x ∈ w := by
  obtain ⟨st, w, n, W, hrun, hroot, hs, hlook, hW⟩ := updateAll_root hk kvs Root.empty (fun q v h => by simp at h)
    hkv (fun _ _ q hq => absurd (Node.lookup_nil q) hq) (hsorted.imp fun h => KeyOrder.parts_of_lt h.1 h.2)
  obtain ⟨hct, -⟩ := Trie.runOps_spec (t := Trie.empty db) (kvs.map fun kv => .update kv.1 kv.2) Canonical.nil
  have hcn : Canonical n := by
    cases hroot with
    | empty => exact .nil
    | node _ hrep => exact hrep.canonical
  -- the trie's root holds the same map, so it is the stack trie's canonical node
  obtain rfl := Canonical.eq_of_lookup_eq hcn hct (hlook.trans (lookup_runOps_update db kvs fun kv hkv' => (hkv kv hkv').1).symm)
  exact ⟨st, w, W, hrun, hroot, hs, hct, fun x => by simpa using hW x⟩

/-- `Hash` of the stack trie between `Update`s gives the root hash of a trie whose root is the node
the stack trie stands for. -/
theorem rootHash_root (hk : ∀ d, (keccak d).length = 32) {st : StackTrie} {n : Node}
    {W : List (List UInt8 × List UInt8)} (h : Root keccak st n W) (hs : Small n) {t : Trie} (ht : t.root = n) :
    ∃ hsh st' w', st.rootHash keccak = .ok (hsh, st', w') ∧ (t.hash keccak).1 = .ok hsh := by
  cases h with
  | empty => exact ⟨emptyRoot, _, [], rfl, by simp [Trie.hash, Trie.hashRoot, ht]⟩
  | node _ hrep =>
    obtain ⟨st', w', -, -, hh, -, -⟩ := rootHash_commit_rep hk hrep hs
    subst ht
    exact ⟨_, st', w', hh, by rw [Trie.hash_of_canonical hrep.canonical hrep.ne_nil]⟩

variable (keccak) in
/-- The stack trie builds the trie (the comparison `trie_fuzzer.go` makes): `Update`s of pairs with
non-empty values whose keys come in increasing order, none a prefix of another, followed by `Hash` and
`Commit`, give the root hash `Trie.Hash` gives after the same `Update`s on an empty trie, and write
the pairs that `Trie.Commit` inserts into the node database. -/
theorem stackTrie_refines_trie (hk : ∀ d, (keccak d).length = 32) (db : Database)
    (kvs : List (List UInt8 × List UInt8)) (hsorted : kvs.Pairwise fun a b => a.1 < b.1 ∧ ¬ a.1 <+: b.1)
    (hkv : ∀ kv ∈ kvs, kv.2 ≠ [] ∧ kv.1.length < 2 ^ 60 ∧ kv.2.length < 2 ^ 62) :
    ∃ h st w st' w' st'' w'' t' ws, empty.updateAll keccak kvs = .ok (st, w) ∧
      st.rootHash keccak = .ok (h, st', w') ∧ st'.commit keccak true = .ok (h, st'', w'') ∧
      (((Trie.empty db).runOps (kvs.map fun kv => .update kv.1 kv.2)).hash keccak).1 = .ok h ∧
      ((Trie.empty db).runOps (kvs.map fun kv => .update kv.1 kv.2)).commit keccak = (.ok h, t', ws) ∧
      ∀ x, x ∈ w ++ w' ++ w'' ↔ x ∈ ws.map storedPair := by
  obtain ⟨st, w, W, hrun, hroot, hs, hct, hW⟩ := updateAll_runOps hk db kvs hsorted hkv
  set t := (Trie.empty db).runOps (kvs.map fun kv => .update kv.1 kv.2)
  generalize hn : t.root = n at hroot hs hct
  cases hroot with
  | empty =>
    -- no pairs: both sides give the empty root and write nothing
    refine ⟨emptyRoot, _, w, _, [], _, [], t, [], hrun, rfl, rfl, by simp [Trie.hash, Trie.hashRoot, hn], ?_,
      fun x => by simpa using hW x⟩
    unfold Trie.commit
    rw [hn]
  | node _ hrep =>
    obtain ⟨st', w', st'', w'', hh, hc, hw⟩ := rootHash_commit_rep hk hrep hs
    subst hn
    obtain ⟨t', ws, hcom, hws⟩ := Trie.commit_of_canonical hct hrep.ne_nil
    refine ⟨_, st, w, st', w', st'', w'', t', ws, hrun, hh, hc, by rw [Trie.hash_of_canonical hct hrep.ne_nil], hcom,
      fun x => ?_⟩
    rw [hws, ← hw, List.mem_append, List.mem_append, List.mem_append, List.mem_append, hW]

/-- Two keys, with a constant hash of 32 bytes: the stack trie and the trie agree. -/
theorem stackTrie_refines_trie_twoKeys :
    (∀ d : List UInt8, ((fun _ => List.replicate 32 (0 : UInt8)) d).length = 32) ∧
      [([1], [2]), ([2], [3])].Pairwise (fun a b : List UInt8 × List UInt8 => a.1 < b.1 ∧ ¬ a.1 <+: b.1) ∧
      (∀ kv ∈ [(([1] : List UInt8), ([2] : List UInt8)), ([2], [3])], kv.2 ≠ [] ∧ kv.1.length < 2 ^ 60 ∧
        kv.2.length < 2 ^ 62) ∧
      ∃ h st w st' w' st'' w'' t' ws,
        empty.updateAll (fun _ => List.replicate 32 0) [([1], [2]), ([2], [3])] = .ok (st, w) ∧
        st.rootHash (fun _ => List.replicate 32 0) = .ok (h, st', w') ∧
        st'.commit (fun _ => List.replicate 32 0) true = .ok (h, st'', w'') ∧
        (((Trie.empty ⟨fun _ => none⟩).runOps ([([1], [2]), ([2], [3])].map fun kv => .update kv.1 kv.2)).hash
          (fun _ => List.replicate 32 0)).1 = .ok h ∧
        ((Trie.empty ⟨fun _ => none⟩).runOps ([([1], [2]), ([2], [3])].map fun kv => .update kv.1 kv.2)).commit
          (fun _ => List.replicate 32 0) = (.ok h, t', ws) ∧
        ∀ x, x ∈ w ++ w' ++ w'' ↔ x ∈ ws.map storedPair :=
  ⟨fun _ => List.length_replicate, by decide, by decide,
    stackTrie_refines_trie (fun _ => List.replicate 32 0) (fun _ => List.length_replicate) ⟨fun _ => none⟩
      [([1], [2]), ([2], [3])] (by decide) (by decide)⟩

end StackTrie

end Go420coin.Trie
