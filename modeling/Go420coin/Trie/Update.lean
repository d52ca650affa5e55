import Go420coin.Trie.Canonical

/-!
# `insert` and `delete` keep the canonical form

On a canonical node and a hex key, `insert` of a value and `delete` never fail and never load a node
from the database; they return a canonical node whose map is the old one updated at the key
(`insertWith_spec`, `deleteWith_spec`).  The flag `dirty` is truthful: when it is `false` the node
comes back as it was.

Where a key parts from a short node's key, `insert` builds a full node over the two remainders
(`lookup_split`); where `delete` leaves a full node one child, `reduceFull` turns it into a short node
(`reduceFull_spec`), and a short node under a short node is merged.  These are the cases that keep
the trie canonical.
-/

namespace Go420coin.Trie

open ListMap

namespace Node

variable {db : Database}

/-! ### Nodes behind a key fragment -/

@[simp] theorem lookup_insertNil (p : List UInt8) (n : Node) : (insertNil p n).lookup = under p n.lookup := by
  unfold insertNil
  split_ifs with h
  · simp [h]
  · rfl

theorem insertNil_ne_nil (p : List UInt8) {n : Node} (hn : n ≠ .nil) : insertNil p n ≠ .nil := by
  unfold insertNil
  split_ifs
  · exact hn
  · simp

theorem canonical_insertNil_value {p : List UInt8} (hp : HexKey p) (v : List UInt8) :
    Canonical (insertNil p (.value v)) := by
  rw [insertNil, if_neg hp.ne_nil]
  exact .leaf hp

theorem canonical_insertNil_full {p : List UInt8} (hp : Nibbles p) {cs : Fin 17 → Node}
    (hc : Canonical (.full cs newFlag)) : Canonical (insertNil p (.full cs newFlag)) := by
  unfold insertNil
  split_ifs with h
  · exact hc
  · exact .ext h hp hc

private theorem drop_eq_cons {l : List UInt8} {m : Nat} {a : UInt8} (h : l[m]? = some a) :
    l.drop m = a :: l.drop (m + 1) := by
  obtain ⟨hm, rfl⟩ := List.getElem?_eq_some_iff.1 h
  exact List.drop_eq_getElem_cons hm

/-- Cutting the key of a canonical short node at `m`: the byte there indexes a child of a full node,
and what follows it, over the short node's child, is a child that full node may have. -/
private theorem split_child {k : List UInt8} {c : Node} (hkc : Canonical (.short k c newFlag)) {m : Nat}
    {a : UInt8} (ha : k[m]? = some a) :
    ∃ h : a.toNat < 17, ChildOk ⟨a.toNat, h⟩ (insertNil (k.drop (m + 1)) c) ∧
      insertNil (k.drop (m + 1)) c ≠ .nil := by
  have hm : m < k.length := (List.getElem?_eq_some_iff.1 ha).1
  cases hkc with
  | @leaf _ w hk =>
    have hrest := hk.drop hm
    rw [drop_eq_cons ha] at hrest
    generalize k.drop (m + 1) = s at hrest ⊢
    refine ⟨hrest.toNat_head_lt, ?_, insertNil_ne_nil _ (by simp)⟩
    rcases hrest.cons_toNat with ⟨h16, rfl⟩ | ⟨h16, hhex⟩
    · exact ⟨fun _ => IsSlot.value w, fun h => absurd h16 h⟩
    · exact ⟨fun h => absurd h (by simp; omega), fun _ => canonical_insertNil_value hhex w⟩
  | @ext _ cs _ hkn hc =>
    have ha16 : a.toNat < 16 := UInt8.lt_iff_toNat_lt.1 (hkn a (List.mem_of_getElem? ha))
    refine ⟨by omega, ⟨fun h => absurd h (by simp; omega), fun _ => ?_⟩, insertNil_ne_nil _ (by simp)⟩
    exact canonical_insertNil_full (hkn.drop _) hc

/-- The full node `insert` builds where the key parts from a short node's key. -/
private theorem canonical_branch {i j : Fin 17} (hij : i ≠ j) {A B : Node} (hA : ChildOk i A)
    (hB : ChildOk j B) (hA0 : A ≠ .nil) (hB0 : B ≠ .nil) :
    Canonical (.full (Function.update (Function.update (fun _ => Node.nil) i A) j B) newFlag) := by
  refine Canonical.full_of_childOk
    (Canonical.childOk_update (Canonical.childOk_update (fun _ => childOk_nil _) hA) hB) ?_
  refine two_le_length_liveChildren_iff.2 ⟨i, j, hij, ?_, ?_⟩
  · rwa [Function.update_of_ne hij, Function.update_self]
  · rwa [Function.update_self]

/-- What the node `insert` builds where the key `t ++ b :: sq` parts from the short node key
`t ++ a :: sk` holds. -/
theorem lookup_split (t sk sq : List UInt8) {a b : UInt8} (hab : a ≠ b) (ha : a.toNat < 17)
    (hb : b.toNat < 17) (c : Node) (v : List UInt8) (f : NodeFlag) :
    (insertNil t (.full (Function.update (Function.update (fun _ => Node.nil) ⟨a.toNat, ha⟩
      (insertNil sk c)) ⟨b.toNat, hb⟩ (insertNil sq (.value v))) f)).lookup =
      Function.update (under (t ++ a :: sk) c.lookup) (t ++ b :: sq) (some v) := by
  rw [under_append, update_under, under_cons, update_branch, Function.update_of_ne (Ne.symm hab),
    ← under_single, lookup_insertNil, lookup_full, childMap_update, childMap_update, childMap_nil]
  simp

/-! ### `insert` -/

/-- `insert` of a value where the key ends, into what a value slot holds. -/
private theorem insertWith_slot (db : Database) {n : Node} (hn : IsSlot n)
    (r : Node → List UInt8 → List UInt8 → Node → UpdateResult) (path v : List UInt8) :
    ∃ dirty, insertWith db r n path [] (.value v) = .ok (dirty, .value v) ∧
      (dirty = false → Node.value v = n) ∧ (Node.value v).lookup = Function.update n.lookup [] (some v) := by
  rcases hn with rfl | ⟨w, rfl⟩
  · refine ⟨true, rfl, by simp, ?_⟩
    funext q
    cases q <;> simp
  · refine ⟨w != v, rfl, fun h => ?_, (update_single w v).symm⟩
    rw [bne_eq_false_iff_eq] at h
    rw [h]

/-- `insert` below a short node whose key the key goes on with. -/
theorem insertWith_short_match {k key : List UInt8} (hm : prefixLen key k = k.length) (hkey : key ≠ [])
    (c : Node) (f : NodeFlag) (r : Node → List UInt8 → List UInt8 → Node → UpdateResult)
    (path : List UInt8) (val : Node) :
    insertWith db r (.short k c f) path key val =
      match insertWith db r c (path ++ k) (key.drop k.length) val with
      | .error e => .error e
      | .ok (false, _) => .ok (false, .short k c f)
      | .ok (true, nn) => .ok (true, .short k nn newFlag) := by
  have hk : key.take k.length = k := by
    rw [← hm, take_prefixLen, hm, List.take_length]
  obtain ⟨x, xs, rfl⟩ := List.exists_cons_of_ne_nil hkey
  simp only [insertWith]
  rewrite [if_pos hm, hm, hk]
  -- the two `match`es differ at most in their auxiliary matchers
  rfl

/-- `insert` where the key parts from a short node's key. -/
private theorem insertWith_split {k key : List UInt8} {c : Node} (hkc : Canonical (.short k c newFlag))
    (hk : HexKey key) (hm : prefixLen key k ≠ k.length)
    (r : Node → List UInt8 → List UInt8 → Node → UpdateResult) (path v : List UInt8) :
    ∃ n', insertWith db r (.short k c newFlag) path key (.value v) = .ok (true, n') ∧ Canonical n' ∧
      n'.lookup = Function.update (under k c.lookup) key (some v) := by
  have hmk : prefixLen key k < k.length := Nat.lt_of_le_of_ne (prefixLen_le_right key k) hm
  -- the key goes on past the common part: a hex key is no beginning of another key in the trie
  have hmkey : prefixLen key k < key.length := by
    refine Nat.lt_of_le_of_ne (prefixLen_le_left key k) fun he => ?_
    have hpre : key <+: k := (prefixLen_eq_length_iff key k).1 he
    cases hkc with
    | leaf hk' =>
      obtain rfl := hk.prefix_eq hk' hpre
      exact hm he
    | ext _ hkn _ => exact hk.not_nibbles fun x hx => hkn x (hpre.subset hx)
  obtain ⟨a, ha⟩ : ∃ a, k[prefixLen key k]? = some a := ⟨_, List.getElem?_eq_getElem hmk⟩
  obtain ⟨b, hb⟩ : ∃ b, key[prefixLen key k]? = some b := ⟨_, List.getElem?_eq_getElem hmkey⟩
  have hab : a ≠ b := by
    rcases getElem?_prefixLen_ne key k with h | h | h
    · simp [hb] at h
    · simp [ha] at h
    · intro he
      rw [ha, hb, he] at h
      exact h rfl
  obtain ⟨ha17, hA, hA0⟩ := split_child hkc ha
  obtain ⟨hb17, hB, hB0⟩ := split_child (Canonical.leaf (v := v) hk) hb
  have hij : (⟨a.toNat, ha17⟩ : Fin 17) ≠ ⟨b.toNat, hb17⟩ :=
    fun he => hab (UInt8.toNat_inj.1 (Fin.mk.inj he))
  have hk_split : key.take (prefixLen key k) ++ a :: k.drop (prefixLen key k + 1) = k := by
    rw [← drop_eq_cons ha, take_prefixLen, List.take_append_drop]
  have hkey_split : key.take (prefixLen key k) ++ b :: key.drop (prefixLen key k + 1) = key := by
    rw [← drop_eq_cons hb, List.take_append_drop]
  refine ⟨_, ?_, canonical_insertNil_full (hk.nibbles_take hmkey) (canonical_branch hij hA hB hA0 hB0), ?_⟩
  · obtain ⟨x, xs, hx⟩ := List.exists_cons_of_ne_nil hk.ne_nil
    subst hx
    simp only [insertWith]
    rw [if_neg hm]
    simp only [ha, hb, dif_pos ha17, dif_pos hb17]
    by_cases h0 : prefixLen (x :: xs) k = 0 <;> simp [insertNil, h0]
  · have h := lookup_split (key.take (prefixLen key k)) (k.drop (prefixLen key k + 1))
      (key.drop (prefixLen key k + 1)) hab ha17 hb17 c v newFlag
    rwa [hk_split, hkey_split] at h

variable (r : Node → List UInt8 → List UInt8 → Node → UpdateResult)

/-- `insert` of a value under a hex key into a canonical node: no error, no node loaded, a canonical
node holding the value at the key and everything else as before. -/
theorem insertWith_spec {n : Node} (hn : Canonical n) {key : List UInt8} (hk : HexKey key)
    (path v : List UInt8) :
    ∃ dirty n', insertWith db r n path key (.value v) = .ok (dirty, n') ∧ Canonical n' ∧
      (dirty = false → n' = n) ∧ n'.lookup = Function.update n.lookup key (some v) := by
  induction hn generalizing key path with
  | nil =>
    obtain ⟨x, xs, rfl⟩ := List.exists_cons_of_ne_nil hk.ne_nil
    refine ⟨true, _, rfl, .leaf hk, by simp, ?_⟩
    rw [lookup_short, lookup_value, under_single]
    rfl
  | @leaf k w hk' =>
    by_cases hm : prefixLen key k = k.length
    · -- the key is the leaf's own key: only the value changes
      have hpre : k <+: key := (prefixLen_eq_length_iff k key).1 (by rwa [prefixLen_comm])
      obtain rfl := hk'.prefix_eq hk hpre
      obtain ⟨dirty, hres, hsame, hlk⟩ := insertWith_slot db (IsSlot.value w) r (path ++ k) v
      rw [insertWith_short_match hm hk.ne_nil, List.drop_length, hres]
      cases dirty with
      | false =>
        obtain ⟨⟩ := hsame rfl
        refine ⟨false, _, rfl, .leaf hk, fun _ => rfl, ?_⟩
        simp only [lookup_short, lookup_value]
        rw [update_under_self, update_single]
      | true =>
        refine ⟨true, _, rfl, .leaf hk, by simp, ?_⟩
        simp only [lookup_short, lookup_value]
        rw [update_under_self, update_single]
    · obtain ⟨n', hres, hn', hlk⟩ := insertWith_split (.leaf hk') hk hm r path v
      exact ⟨true, n', hres, hn', by simp, hlk⟩
  | @ext k cs hk0 hkn hc ih =>
    by_cases hm : prefixLen key k = k.length
    · -- the key goes on below the extension
      obtain ⟨t, rfl⟩ : k <+: key := (prefixLen_eq_length_iff k key).1 (by rwa [prefixLen_comm])
      have ht0 : t ≠ [] := fun h => hk.not_nibbles (by simpa [h] using hkn)
      obtain ⟨dirty, nn, hres, hnn, hsame, hlk⟩ := ih (hk.of_append ht0).2 (path ++ k)
      rw [insertWith_short_match hm hk.ne_nil, List.drop_left, hres]
      cases dirty with
      | false =>
        obtain rfl := hsame rfl
        refine ⟨false, _, rfl, .ext hk0 hkn hc, fun _ => rfl, ?_⟩
        rw [lookup_short, update_under, ← hlk]
      | true =>
        -- the node below still holds two keys that part at once, so it is a full node
        obtain ⟨cs', rfl⟩ := hnn.eq_full_of_forks (hlk ▸ hc.forks_full.of_update_ne_none (by simp))
        refine ⟨true, _, rfl, .ext hk0 hkn hnn, by simp, ?_⟩
        rw [lookup_short, lookup_short, hlk, update_under]
    · obtain ⟨n', hres, hn', hlk⟩ := insertWith_split (.ext hk0 hkn hc) hk hm r path v
      exact ⟨true, n', hres, hn', by simp, hlk⟩
  | @full cs hcs hslot hlive ih =>
    obtain ⟨b, rest, rfl⟩ := List.exists_cons_of_ne_nil hk.ne_nil
    have hb17 := hk.toNat_head_lt
    -- the child on the key's path: the value slot at the terminator, a canonical node otherwise
    have hchild : ∃ dirty nn, insertWith db r (cs ⟨b.toNat, hb17⟩) (path ++ [b]) rest (.value v) =
        .ok (dirty, nn) ∧ ChildOk ⟨b.toNat, hb17⟩ nn ∧ (dirty = false → nn = cs ⟨b.toNat, hb17⟩) ∧
        nn.lookup = Function.update (cs ⟨b.toNat, hb17⟩).lookup rest (some v) := by
      rcases hk.cons_toNat with ⟨h16, rfl⟩ | ⟨h16, hrest⟩
      · have hi : (⟨b.toNat, hb17⟩ : Fin 17) = 16 := Fin.ext h16
        rw [hi]
        obtain ⟨dirty, hres, hsame, hlk⟩ := insertWith_slot db hslot r (path ++ [b]) v
        exact ⟨dirty, _, hres, ⟨fun _ => IsSlot.value v, fun h => absurd rfl h⟩, hsame, hlk⟩
      · obtain ⟨dirty, nn, hres, hnn, hsame, hlk⟩ := ih ⟨b.toNat, hb17⟩ (by simp; omega) hrest (path ++ [b])
        exact ⟨dirty, nn, hres, ⟨fun h => absurd h (by simp; omega), fun _ => hnn⟩, hsame, hlk⟩
    obtain ⟨dirty, nn, hres, hok, hsame, hlk⟩ := hchild
    have hnn0 : nn ≠ .nil := by
      intro h
      simpa [h] using congrFun hlk rest
    rw [insertWith, dif_pos hb17, hres]
    cases dirty with
    | false =>
      obtain rfl := hsame rfl
      refine ⟨false, _, rfl, .full hcs hslot hlive, fun _ => rfl, ?_⟩
      have h := lookup_full_update cs newFlag newFlag hb17 hlk
      rwa [Function.update_eq_self] at h
    | true =>
      refine ⟨true, _, rfl, ?_, by simp, lookup_full_update cs newFlag newFlag hb17 hlk⟩
      -- every child is one a canonical full node may have, and the live ones stay live
      refine Canonical.full_of_childOk
        (Canonical.childOk_update (Canonical.childOk (.full hcs hslot hlive)) hok) ?_
      obtain ⟨j₁, j₂, hj, h₁, h₂⟩ := two_le_length_liveChildren_iff.1 hlive
      exact two_le_length_liveChildren_iff.2 ⟨j₁, j₂, hj, update_ne_nil h₁ hnn0, update_ne_nil h₂ hnn0⟩

/-! ### `delete` -/

/-- `delete` where the key ends, from what a value slot holds. -/
private theorem deleteWith_slot (db : Database) {n : Node} (hn : IsSlot n) (r : Node → List UInt8 → List UInt8 → UpdateResult)
    (path : List UInt8) :
    ∃ dirty, deleteWith db r n path [] = .ok (dirty, .nil) ∧ (dirty = false → Node.nil = n) ∧
      Node.nil.lookup = Function.update n.lookup [] none := by
  rcases hn with rfl | ⟨w, rfl⟩
  · refine ⟨false, rfl, fun _ => rfl, ?_⟩
    funext q
    cases q <;> simp
  · refine ⟨true, rfl, by simp, ?_⟩
    funext q
    cases q <;> simp

/-- The end of `delete` on a canonical full node that still has a live child. -/
theorem reduceFull_spec (db : Database) (path : List UInt8) {cs : Fin 17 → Node}
    (hcs : ∀ i, ChildOk i (cs i)) (hleft : liveChildren cs ≠ []) (f : NodeFlag) :
    ∃ n', reduceFull db path cs = .ok (true, n') ∧ Canonical n' ∧ n'.lookup = (Node.full cs f).lookup := by
  unfold reduceFull
  split
  · next pos hl =>
    have hpos : cs pos ≠ .nil := mem_liveChildren.1 (by simp [hl])
    rw [lookup_full_of_single cs f pos fun j hj => eq_nil_of_liveChildren_eq_singleton hl hj]
    by_cases h16 : pos.val = 16
    · -- only the value is left: a leaf whose key is the terminator
      rw [if_neg (not_not.2 h16)]
      obtain ⟨w, hw⟩ : ∃ w, cs pos = .value w := by
        rcases (hcs pos).1 h16 with h0 | hw
        · exact absurd h0 hpos
        · exact hw
      have hterm : pos.val.toUInt8 = 16 := by
        apply UInt8.toNat_inj.1
        rw [toNat_toUInt8_fin, h16]
        rfl
      refine ⟨_, rfl, ?_, rfl⟩
      rw [hw, hterm]
      exact .leaf .term
    · -- one nibble child left: merged into a short node
      rw [if_pos h16, resolve_of_ne_hash db (hcs pos).not_hash path]
      have hnib : pos.val.toUInt8 < 16 := by
        rw [UInt8.lt_iff_toNat_lt, toNat_toUInt8_fin]
        simp only [UInt8.reduceToNat]
        omega
      have hc := (hcs pos).2 h16
      generalize cs pos = c at hc hpos ⊢
      cases hc with
      | nil => exact absurd rfl hpos
      | leaf hk =>
        refine ⟨_, rfl, .leaf (.nibble hnib hk), ?_⟩
        rw [lookup_short, lookup_short, ← List.singleton_append, under_append]
      | ext hk0 hkn hc' =>
        refine ⟨_, rfl, .ext (by simp) (hkn.cons hnib) hc', ?_⟩
        rw [lookup_short, lookup_short, ← List.singleton_append, under_append]
      | full hcs' hslot' hlive' =>
        exact ⟨_, rfl, .ext (by simp) (Nibbles.cons hnib fun _ h => absurd h (by simp))
          (.full hcs' hslot' hlive'), rfl⟩
  · next hl =>
    -- two or more live children: the full node stays
    refine ⟨_, rfl, Canonical.full_of_childOk hcs ?_, rfl⟩
    match hlc : liveChildren cs with
    | [] => exact absurd hlc hleft
    | [pos] => exact absurd hlc (hl pos)
    | _ :: _ :: _ => simp

variable (r : Node → List UInt8 → List UInt8 → UpdateResult)

/-- `delete` of a hex key from a canonical node: no error, no node loaded, a canonical node holding
nothing at the key and everything else as before. -/
theorem deleteWith_spec {n : Node} (hn : Canonical n) {key : List UInt8} (hk : HexKey key) (path : List UInt8) :
    ∃ dirty n', deleteWith db r n path key = .ok (dirty, n') ∧ Canonical n' ∧
      (dirty = false → n' = n) ∧ n'.lookup = Function.update n.lookup key none := by
  induction hn generalizing key path with
  | nil =>
    refine ⟨false, .nil, rfl, .nil, fun _ => rfl, ?_⟩
    exact (Function.update_eq_self key _).symm
  | @leaf k w hk' =>
    rw [deleteWith]
    by_cases hlt : prefixLen key k < k.length
    · -- the key parts from the leaf's: nothing to delete
      have hnp : ¬ k <+: key := by
        rw [← prefixLen_eq_length_iff, prefixLen_comm]
        omega
      rw [if_pos hlt]
      exact ⟨false, _, rfl, .leaf hk', fun _ => rfl, by rw [lookup_short, update_under_none hnp]⟩
    · have hm : prefixLen key k = k.length := Nat.le_antisymm (prefixLen_le_right _ _) (Nat.not_lt.1 hlt)
      have hpre : k <+: key := (prefixLen_eq_length_iff k key).1 (by rwa [prefixLen_comm])
      obtain rfl := hk'.prefix_eq hk hpre
      rw [if_neg hlt, if_pos hm]
      refine ⟨true, .nil, rfl, .nil, by simp, ?_⟩
      rw [lookup_short, lookup_value, under_single, Function.update_idem]
      exact (Function.update_eq_self k _).symm
  | @ext k cs hk0 hkn hc ih =>
    rw [deleteWith]
    by_cases hlt : prefixLen key k < k.length
    · have hnp : ¬ k <+: key := by
        rw [← prefixLen_eq_length_iff, prefixLen_comm]
        omega
      rw [if_pos hlt]
      exact ⟨false, _, rfl, .ext hk0 hkn hc, fun _ => rfl, by rw [lookup_short, update_under_none hnp]⟩
    · -- the key goes on below the extension
      have hm : prefixLen key k = k.length := Nat.le_antisymm (prefixLen_le_right _ _) (Nat.not_lt.1 hlt)
      obtain ⟨t, rfl⟩ : k <+: key := (prefixLen_eq_length_iff k key).1 (by rwa [prefixLen_comm])
      have ht0 : t ≠ [] := fun h => hk.not_nibbles (by simpa [h] using hkn)
      have hlen : prefixLen (k ++ t) k ≠ (k ++ t).length := by
        rw [hm, List.length_append]
        have := List.length_pos_iff.2 ht0
        omega
      obtain ⟨dirty, nn, hres, hnn, hsame, hlk⟩ := ih (hk.of_append ht0).2 (path ++ k)
      rw [if_neg hlt, if_neg hlen, List.take_left, List.drop_left, hres]
      cases dirty with
      | false =>
        obtain rfl := hsame rfl
        exact ⟨false, _, rfl, .ext hk0 hkn hc, fun _ => rfl, by rw [lookup_short, update_under, ← hlk]⟩
      | true =>
        -- the full node below held two keys, so something is left under the extension
        have hne : nn ≠ .nil := by
          obtain ⟨q, hq⟩ := hc.forks_full.exists_update_none (q := t)
          intro h
          rw [← hlk, h] at hq
          exact hq rfl
        have hlk' : (Node.short k nn newFlag).lookup = Function.update (Node.short k (.full cs newFlag) newFlag).lookup (k ++ t) none := by
          rw [lookup_short, lookup_short, hlk, update_under]
        cases hnn with
        | nil => exact absurd rfl hne
        | leaf hck =>
          refine ⟨true, _, rfl, .leaf (HexKey.append hkn hck), by simp, ?_⟩
          rw [← hlk', lookup_short, lookup_short, under_append]
          rfl
        | ext hck0 hckn hc' =>
          refine ⟨true, _, rfl, .ext (by simp [hk0]) (hkn.append hckn) hc', by simp, ?_⟩
          rw [← hlk', lookup_short, lookup_short, under_append]
          rfl
        | full hcs' hslot' hlive' =>
          exact ⟨true, _, rfl, .ext hk0 hkn (.full hcs' hslot' hlive'), by simp, hlk'⟩
  | @full cs hcs hslot hlive ih =>
    obtain ⟨b, rest, rfl⟩ := List.exists_cons_of_ne_nil hk.ne_nil
    have hb17 := hk.toNat_head_lt
    have hchild : ∃ dirty nn, deleteWith db r (cs ⟨b.toNat, hb17⟩) (path ++ [b]) rest = .ok (dirty, nn) ∧
        ChildOk ⟨b.toNat, hb17⟩ nn ∧ (dirty = false → nn = cs ⟨b.toNat, hb17⟩) ∧
        nn.lookup = Function.update (cs ⟨b.toNat, hb17⟩).lookup rest none := by
      rcases hk.cons_toNat with ⟨h16, rfl⟩ | ⟨h16, hrest⟩
      · have hi : (⟨b.toNat, hb17⟩ : Fin 17) = 16 := Fin.ext h16
        rw [hi]
        obtain ⟨dirty, hres, hsame, hlk⟩ := deleteWith_slot db hslot r (path ++ [b])
        exact ⟨dirty, _, hres, childOk_nil 16, hsame, hlk⟩
      · obtain ⟨dirty, nn, hres, hnn, hsame, hlk⟩ := ih ⟨b.toNat, hb17⟩ (by simp; omega) hrest (path ++ [b])
        exact ⟨dirty, nn, hres, ⟨fun h => absurd h (by simp; omega), fun _ => hnn⟩, hsame, hlk⟩
    obtain ⟨dirty, nn, hres, hok, hsame, hlk⟩ := hchild
    rw [deleteWith, dif_pos hb17, hres]
    cases dirty with
    | false =>
      obtain rfl := hsame rfl
      refine ⟨false, _, rfl, .full hcs hslot hlive, fun _ => rfl, ?_⟩
      have h := lookup_full_update cs newFlag newFlag hb17 hlk
      rwa [Function.update_eq_self] at h
    | true =>
      have hcs' := Canonical.childOk_update (Canonical.childOk (.full hcs hslot hlive)) hok
      -- of two live children at least one is not on the key's path, and stays
      have hleft : liveChildren (Function.update cs ⟨b.toNat, hb17⟩ nn) ≠ [] := by
        obtain ⟨j₁, j₂, hj, h₁, h₂⟩ := two_le_length_liveChildren_iff.1 hlive
        obtain ⟨j, hji, hjl⟩ : ∃ j, j ≠ ⟨b.toNat, hb17⟩ ∧ cs j ≠ .nil := by
          by_cases e : j₁ = ⟨b.toNat, hb17⟩
          · exact ⟨j₂, fun e' => hj (e.trans e'.symm), h₂⟩
          · exact ⟨j₁, e, h₁⟩
        intro h
        have hmem := mem_liveChildren.2 (show Function.update cs ⟨b.toNat, hb17⟩ nn j ≠ .nil by
          rwa [Function.update_of_ne hji])
        rw [h] at hmem
        exact List.not_mem_nil hmem
      obtain ⟨n', hred, hn', hlk'⟩ := reduceFull_spec db path hcs' hleft newFlag
      exact ⟨true, n', hred, hn', by simp, by rw [hlk', lookup_full_update cs newFlag newFlag hb17 hlk]⟩

end Node

end Go420coin.Trie
