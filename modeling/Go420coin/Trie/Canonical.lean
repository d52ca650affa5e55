import Go420coin.Trie.Trie
import Go420coin.Lib.ListMap
import Mathlib.Data.List.Perm.Subperm

/-!
# What a trie holds, and its canonical form

`Node.lookup` is the map from hex keys to values that a node built in memory stands for, put
together from the two map constructors of `ListMap`: a `shortNode` puts its key in front of its
child's keys (`under`), a `fullNode` fans out on the next nibble (`branch`), and a value is found
where the key ends.

`Node.Canonical` is the shape in which `insert` and `delete` keep a trie, at a point where the rest
of every key is a hex key:

* a short node is a leaf (a whole hex key, then the value) or an extension (a non-empty run of
  nibbles, then a full node), so no short node has an empty key or a short child;
* a full node has at least two children that are not `nil`, counting the value slot `16`, which
  holds nothing or a value;
* every node is flagged as new (`newFlag`), and there are no `hashNode`s.

On a canonical node `tryGet` is `lookup` (`tryGetWith_eq`).
-/

namespace Go420coin.Trie

open ListMap

namespace Node

/-- The map a node in memory stands for.  A `hashNode` stands for nothing here: a trie built in
memory has none. -/
def lookup : Node → List UInt8 → Option (List UInt8)
  | .nil => fun _ => none
  | .value v => single v
  | .short k c _ => under k c.lookup
  | .full cs _ => branch fun b => if h : b.toNat < 17 then (cs ⟨b.toNat, h⟩).lookup else fun _ => none
  | .hash _ => fun _ => none

@[simp] theorem lookup_nil (q : List UInt8) : Node.nil.lookup q = none := rfl

@[simp] theorem lookup_value (v : List UInt8) : (Node.value v).lookup = single v := rfl

@[simp] theorem lookup_short (k : List UInt8) (c : Node) (f : NodeFlag) :
    (Node.short k c f).lookup = under k c.lookup := rfl

@[simp] theorem lookup_hash (h q : List UInt8) : (Node.hash h).lookup q = none := rfl

@[simp] theorem lookup_full_nil (cs : Fin 17 → Node) (f : NodeFlag) : (Node.full cs f).lookup [] = none :=
  rfl

theorem lookup_full_cons (cs : Fin 17 → Node) (f : NodeFlag) {b : UInt8} (h : b.toNat < 17) (q : List UInt8) :
    (Node.full cs f).lookup (b :: q) = (cs ⟨b.toNat, h⟩).lookup q := by
  simp [lookup, h]

theorem toNat_toUInt8_fin (i : Fin 17) : (i.val.toUInt8).toNat = i.val := by
  simp [Nat.toUInt8]
  omega

theorem lookup_full_fin (cs : Fin 17 → Node) (f : NodeFlag) (i : Fin 17) (q : List UInt8) :
    (Node.full cs f).lookup (i.val.toUInt8 :: q) = (cs i).lookup q := by
  have h : (i.val.toUInt8).toNat < 17 := by rw [toNat_toUInt8_fin]; exact i.isLt
  rw [lookup_full_cons cs f h]
  congr
  exact toNat_toUInt8_fin i

/-- The maps of the children of a full node, by the byte that leads to them. -/
def childMap (cs : Fin 17 → Node) (b : UInt8) : List UInt8 → Option (List UInt8) :=
  if h : b.toNat < 17 then (cs ⟨b.toNat, h⟩).lookup else fun _ => none

theorem lookup_full (cs : Fin 17 → Node) (f : NodeFlag) : (Node.full cs f).lookup = branch (childMap cs) :=
  rfl

@[simp] theorem childMap_nil : childMap (fun _ => Node.nil) = fun _ _ => none := by
  funext b q
  unfold childMap
  split_ifs <;> rfl

theorem childMap_update (cs : Fin 17 → Node) {b : UInt8} (h : b.toNat < 17) (n : Node) :
    childMap (Function.update cs ⟨b.toNat, h⟩ n) = Function.update (childMap cs) b n.lookup := by
  funext b'
  by_cases hb : b' = b
  · subst hb
    simp [childMap, h]
  · rw [Function.update_of_ne hb]
    unfold childMap
    split_ifs with h'
    · have hne : (⟨b'.toNat, h'⟩ : Fin 17) ≠ ⟨b.toNat, h⟩ := fun he => hb (UInt8.toNat_inj.1 (Fin.mk.inj he))
      rw [Function.update_of_ne hne]
    · rfl

/-- Replacing one child of a full node updates the full node's map at the keys through it. -/
theorem lookup_full_update (cs : Fin 17 → Node) (f f' : NodeFlag) {b : UInt8} (h : b.toNat < 17)
    {n : Node} {q : List UInt8} {x : Option (List UInt8)}
    (hn : n.lookup = Function.update (cs ⟨b.toNat, h⟩).lookup q x) :
    (Node.full (Function.update cs ⟨b.toNat, h⟩ n) f').lookup =
      Function.update (Node.full cs f).lookup (b :: q) x := by
  have hb : childMap cs b = (cs ⟨b.toNat, h⟩).lookup := by simp [childMap, h]
  rw [lookup_full, lookup_full, childMap_update cs h, update_branch, hb, hn]

/-- A full node with one child that is not `nil` holds what a one-nibble short node over it
holds. -/
theorem lookup_full_of_single (cs : Fin 17 → Node) (f : NodeFlag) (i : Fin 17)
    (hi : ∀ j, j ≠ i → cs j = .nil) : (Node.full cs f).lookup = under [i.val.toUInt8] (cs i).lookup := by
  funext q
  rcases q with _ | ⟨b, q⟩
  · simp [under]
  · by_cases hb : b = i.val.toUInt8
    · subst hb
      rw [lookup_full_fin]
      exact (under_apply_append [i.val.toUInt8] q _).symm
    · have hnp : ¬ [i.val.toUInt8] <+: b :: q := by simp [Ne.symm hb]
      rw [under_apply_eq_none hnp]
      by_cases h : b.toNat < 17
      · rw [lookup_full_cons cs f h, hi]
        · rfl
        · intro he
          apply hb
          rw [← he]
          exact UInt8.toNat_inj.1 (by rw [toNat_toUInt8_fin])
      · simp [lookup, h]

end Node

/-! ### Live children -/

theorem mem_liveChildren {cs : Fin 17 → Node} {i : Fin 17} : i ∈ Node.liveChildren cs ↔ cs i ≠ .nil := by
  cases h : cs i <;> simp [Node.liveChildren, Node.isNil, h]

theorem nodup_liveChildren (cs : Fin 17 → Node) : (Node.liveChildren cs).Nodup :=
  (List.nodup_finRange 17).filter _

theorem eq_nil_of_liveChildren_eq_singleton {cs : Fin 17 → Node} {i : Fin 17}
    (h : Node.liveChildren cs = [i]) {j : Fin 17} (hj : j ≠ i) : cs j = .nil := by
  by_contra hne
  have : j ∈ Node.liveChildren cs := mem_liveChildren.2 hne
  simp [h, hj] at this

theorem update_ne_nil {cs : Fin 17 → Node} {i j : Fin 17} {n : Node} (hj : cs j ≠ .nil) (hn : n ≠ .nil) :
    Function.update cs i n j ≠ .nil := by
  by_cases h : j = i
  · subst h
    simpa using hn
  · rwa [Function.update_of_ne h]

/-- At least two live children means two different children that are not `nil`. -/
theorem two_le_length_liveChildren_iff {cs : Fin 17 → Node} :
    2 ≤ (Node.liveChildren cs).length ↔ ∃ i j, i ≠ j ∧ cs i ≠ .nil ∧ cs j ≠ .nil := by
  constructor
  · intro h
    match hl : Node.liveChildren cs, h with
    | i :: j :: _, _ =>
      have hnd := nodup_liveChildren cs
      rw [hl] at hnd
      refine ⟨i, j, ?_, mem_liveChildren.1 (by simp [hl]), mem_liveChildren.1 (by simp [hl])⟩
      exact fun he => (List.nodup_cons.1 hnd).1 (by simp [he])
  · rintro ⟨i, j, hij, hi, hj⟩
    have hsub : [i, j] ⊆ Node.liveChildren cs := by
      intro x hx
      rcases List.mem_pair.1 hx with rfl | rfl
      · exact mem_liveChildren.2 hi
      · exact mem_liveChildren.2 hj
    have hnd : [i, j].Nodup := by simp [hij]
    simpa using (List.Nodup.subperm hnd hsub).length_le

/-! ### The canonical form -/

/-- The node in the value slot of a full node: nothing, or a value. -/
def IsSlot (n : Node) : Prop := n = .nil ∨ ∃ v, n = .value v

theorem IsSlot.nil : IsSlot .nil := .inl rfl

theorem IsSlot.value (v : List UInt8) : IsSlot (.value v) := .inr ⟨v, rfl⟩

/-- The shape in which `insert` and `delete` keep a trie built in memory, at a point where the rest
of every key is a hex key. -/
inductive Canonical : Node → Prop
  | nil : Canonical .nil
  | leaf {k v : List UInt8} : HexKey k → Canonical (.short k (.value v) newFlag)
  | ext {k : List UInt8} {cs : Fin 17 → Node} : k ≠ [] → Nibbles k → Canonical (.full cs newFlag) →
      Canonical (.short k (.full cs newFlag) newFlag)
  | full {cs : Fin 17 → Node} : (∀ i : Fin 17, i.val ≠ 16 → Canonical (cs i)) → IsSlot (cs 16) →
      2 ≤ (Node.liveChildren cs).length → Canonical (.full cs newFlag)

/-- What a canonical full node asks of its child `i`: the value slot holds nothing or a value, the
other children are canonical. -/
def ChildOk (i : Fin 17) (n : Node) : Prop := (i.val = 16 → IsSlot n) ∧ (i.val ≠ 16 → Canonical n)

theorem childOk_nil (i : Fin 17) : ChildOk i .nil := ⟨fun _ => .nil, fun _ => .nil⟩

/-- The value slot is determined by what it holds. -/
theorem IsSlot.eq_of_lookup_eq {n₁ n₂ : Node} (h₁ : IsSlot n₁) (h₂ : IsSlot n₂) (he : n₁.lookup = n₂.lookup) :
    n₁ = n₂ := by
  have h0 := congrFun he []
  rcases h₁ with rfl | ⟨v₁, rfl⟩ <;> rcases h₂ with rfl | ⟨v₂, rfl⟩ <;> simp_all

namespace Canonical

variable {n : Node}

/-- A canonical node that is not `nil` holds a value. -/
theorem exists_key (h : Canonical n) (hn : n ≠ .nil) : ∃ q, n.lookup q ≠ none := by
  induction h with
  | nil => exact absurd rfl hn
  | @leaf k v _ => exact ⟨k, by simp⟩
  | @ext k cs _ _ _ ih =>
    obtain ⟨q, hq⟩ := ih (by simp)
    exact ⟨k ++ q, by simpa using hq⟩
  | @full cs _ hslot hlive ih =>
    obtain ⟨i, -, -, hi, -⟩ := two_le_length_liveChildren_iff.1 hlive
    obtain ⟨q, hq⟩ : ∃ q, (cs i).lookup q ≠ none := by
      by_cases h16 : i.val = 16
      · have hi16 : i = 16 := Fin.ext h16
        subst hi16
        rcases hslot with h0 | ⟨v, hv⟩
        · exact absurd h0 hi
        · exact ⟨[], by simp [hv]⟩
      · exact ih i h16 hi
    exact ⟨i.val.toUInt8 :: q, by rwa [Node.lookup_full_fin]⟩

/-- A canonical full node holds two keys that part at their first nibble. -/
theorem forks_full {cs : Fin 17 → Node} {f : NodeFlag} (h : Canonical (.full cs f)) :
    Forks (Node.full cs f).lookup := by
  cases h with
  | full hcs hslot hlive =>
    obtain ⟨i, j, hij, hi, hj⟩ := two_le_length_liveChildren_iff.1 hlive
    have key : ∀ i, cs i ≠ .nil → ∃ q, (cs i).lookup q ≠ none := by
      intro i hi
      by_cases h16 : i.val = 16
      · have hi16 : i = 16 := Fin.ext h16
        subst hi16
        rcases hslot with h0 | ⟨v, hv⟩
        · exact absurd h0 hi
        · exact ⟨[], by simp [hv]⟩
      · exact (hcs i h16).exists_key hi
    obtain ⟨qi, hqi⟩ := key i hi
    obtain ⟨qj, hqj⟩ := key j hj
    refine ⟨i.val.toUInt8 :: qi, j.val.toUInt8 :: qj, ?_, ?_, ?_⟩
    · rwa [Node.lookup_full_fin]
    · rwa [Node.lookup_full_fin]
    · intro he
      simp only [List.head?_cons, Option.some.injEq] at he
      apply hij
      apply Fin.ext
      rw [← Node.toNat_toUInt8_fin i, ← Node.toNat_toUInt8_fin j, he]

/-- A canonical node whose keys part at the first nibble is a full node. -/
theorem eq_full_of_forks (h : Canonical n) (hf : Forks n.lookup) : ∃ cs, n = .full cs newFlag := by
  cases h with
  | nil =>
    obtain ⟨q, -, hq, -⟩ := hf
    exact absurd rfl hq
  | leaf hk => exact absurd hf (not_forks_under hk.ne_nil)
  | ext hk _ _ => exact absurd hf (not_forks_under hk)
  | full => exact ⟨_, rfl⟩

theorem childOk {cs : Fin 17 → Node} {f : NodeFlag} (h : Canonical (.full cs f)) (i : Fin 17) :
    ChildOk i (cs i) := by
  cases h with
  | full hcs hslot _ =>
    refine ⟨fun h16 => ?_, hcs i⟩
    have hi : i = 16 := Fin.ext h16
    exact hi ▸ hslot

theorem full_of_childOk {cs : Fin 17 → Node} (hcs : ∀ i, ChildOk i (cs i))
    (hlive : 2 ≤ (Node.liveChildren cs).length) : Canonical (.full cs newFlag) :=
  .full (fun i hi => (hcs i).2 hi) ((hcs 16).1 rfl) hlive

/-- Replacing a child keeps what is asked of every child. -/
theorem childOk_update {cs : Fin 17 → Node} (hcs : ∀ i, ChildOk i (cs i)) {i : Fin 17} {n : Node}
    (hn : ChildOk i n) (j : Fin 17) : ChildOk j (Function.update cs i n j) := by
  by_cases hj : j = i
  · subst hj
    simpa using hn
  · simpa [Function.update_of_ne hj] using hcs j

theorem not_hash (h : Canonical n) (hh : List UInt8) : n ≠ .hash hh := by
  cases h <;> simp

/-- Canonical nodes are determined by the map they stand for. -/
theorem eq_of_lookup_eq {n₁ n₂ : Node} (h₁ : Canonical n₁) (h₂ : Canonical n₂) (he : n₁.lookup = n₂.lookup) :
    n₁ = n₂ := by
  induction h₁ generalizing n₂ with
  | nil =>
    by_contra hne
    obtain ⟨q, hq⟩ := h₂.exists_key (Ne.symm hne)
    exact hq (by rw [← he]; rfl)
  | @leaf k v hk =>
    cases h₂ with
    | nil => simpa using congrFun he k
    | @leaf k' v' hk' =>
      have hkey : (Node.short k' (.value v') newFlag).lookup k ≠ none := by
        rw [← he]
        simp
      obtain rfl : k = k' := eq_of_under_single_ne_none hkey
      have hv : some v = some v' := by simpa using congrFun he k
      rw [Option.some.inj hv]
    | ext _ _ hc' => exact absurd he.symm (under_ne_under_single hc'.forks_full v)
    | full hcs' hslot' hlive' =>
      exact absurd (he ▸ (Canonical.full hcs' hslot' hlive').forks_full) (not_forks_under hk.ne_nil)
  | @ext k cs hk0 hkn hc ih =>
    cases h₂ with
    | nil =>
      obtain ⟨q, hq⟩ := (Canonical.ext hk0 hkn hc).exists_key (by simp)
      exact (hq (by rw [he]; rfl)).elim
    | leaf _ => exact absurd he (under_ne_under_single hc.forks_full _)
    | @ext k' cs' _ _ hc' =>
      obtain rfl : k = k' := eq_of_under_eq hc.forks_full hc'.forks_full he
      rw [ih hc' (under_injective k he)]
    | full hcs' hslot' hlive' =>
      exact absurd (he ▸ (Canonical.full hcs' hslot' hlive').forks_full) (not_forks_under hk0)
  | @full cs hcs hslot hlive ih =>
    have hf := (Canonical.full hcs hslot hlive).forks_full
    cases h₂ with
    | nil =>
      obtain ⟨q, hq⟩ := (Canonical.full hcs hslot hlive).exists_key (by simp)
      exact (hq (by rw [he]; rfl)).elim
    | leaf hk => exact absurd (he ▸ hf) (not_forks_under hk.ne_nil)
    | ext hk0 _ _ => exact absurd (he ▸ hf) (not_forks_under hk0)
    | @full cs' hcs' hslot' hlive' =>
      -- equal maps give equal maps child by child
      have hi : ∀ i, (cs i).lookup = (cs' i).lookup := by
        intro i
        funext q
        have := congrFun he (i.val.toUInt8 :: q)
        rwa [Node.lookup_full_fin, Node.lookup_full_fin] at this
      congr
      funext i
      by_cases h16 : i.val = 16
      · have hi16 : i = 16 := Fin.ext h16
        subst hi16
        exact IsSlot.eq_of_lookup_eq hslot hslot' (hi 16)
      · exact ih i h16 (hcs' i h16) (hi i)

end Canonical

theorem ChildOk.not_hash {i : Fin 17} {n : Node} (h : ChildOk i n) (hh : List UInt8) : n ≠ .hash hh := by
  by_cases h16 : i.val = 16
  · rcases h.1 h16 with rfl | ⟨v, rfl⟩ <;> simp
  · exact (h.2 h16).not_hash hh

/-- `resolve` keeps a node that is not a `hashNode`. -/
theorem resolve_of_ne_hash (db : Database) {n : Node} (hn : ∀ hh, n ≠ .hash hh) (path : List UInt8) :
    resolve db n path = .ok n := by
  cases n with
  | hash hh => exact absurd rfl (hn hh)
  | _ => rfl

/-! ### Reading a canonical trie -/

namespace Node

/-- Go's test for the key of a short node (`len(key)-pos < len(n.Key) || !bytes.Equal(...)`) fails
exactly when the key goes on with the short node's key. -/
theorem short_mismatch_iff (k : List UInt8) {key : List UInt8} {pos : Nat} (hq : key.drop pos ≠ []) :
    (key.length < pos + k.length ∨ k ≠ (key.drop pos).take k.length) ↔ ¬ k <+: key.drop pos := by
  have hpos : pos < key.length := by
    by_contra h
    exact hq (List.drop_eq_nil_of_le (by omega))
  rw [List.prefix_iff_eq_take]
  constructor
  · rintro (hl | hne) he
    · have := congrArg List.length he
      rw [List.length_take, List.length_drop] at this
      omega
    · exact hne he
  · intro h
    exact .inr h

variable {db : Database} {r : Node → List UInt8 → Nat → GetResult}

/-- On a canonical node `tryGet` loads nothing and returns what the node holds. -/
theorem tryGetWith_eq {n : Node} (hn : Canonical n) {key : List UInt8} {pos : Nat}
    (hk : HexKey (key.drop pos)) : tryGetWith db r n key pos = .ok (n.lookup (key.drop pos), n, false) := by
  induction hn generalizing pos with
  | nil => rfl
  | @leaf k v hk' =>
    rw [tryGetWith]
    split_ifs with hm
    · rw [short_mismatch_iff k hk.ne_nil] at hm
      simp [under_apply_eq_none hm]
    · rw [short_mismatch_iff k hk.ne_nil, not_not] at hm
      have he : k = key.drop pos := hk'.prefix_eq hk hm
      simp [tryGetWith, ← he]
  | @ext k cs hk0 hkn hc ih =>
    rw [tryGetWith]
    split_ifs with hm
    · rw [short_mismatch_iff k hk.ne_nil] at hm
      simp [under_apply_eq_none hm]
    · rw [short_mismatch_iff k hk.ne_nil, not_not] at hm
      obtain ⟨t, ht⟩ := hm
      have hdrop : key.drop (pos + k.length) = t := by
        rw [← List.drop_drop, ← ht, List.drop_left]
      have ht0 : t ≠ [] := by
        rintro rfl
        rw [List.append_nil] at ht
        exact hk.not_nibbles (ht ▸ hkn)
      have htk : HexKey t := (HexKey.of_append (ht ▸ hk) ht0).2
      rw [ih (hdrop ▸ htk), hdrop]
      simp [← ht]
  | @full cs hcs hslot hlive ih =>
    obtain ⟨b, rest, hbr⟩ := List.exists_cons_of_ne_nil hk.ne_nil
    have hget : key[pos]? = some b := by rw [← List.head?_drop, hbr]; rfl
    have hb17 : b.toNat < 17 := (hbr ▸ hk).toNat_head_lt
    have hrest : key.drop (pos + 1) = rest := by rw [← List.drop_drop, hbr]; rfl
    -- the child the key leads to: the value slot at the terminator, else a canonical node
    have hchild : tryGetWith db r (cs ⟨b.toNat, hb17⟩) key (pos + 1) =
        .ok ((cs ⟨b.toNat, hb17⟩).lookup rest, cs ⟨b.toNat, hb17⟩, false) := by
      rcases (hbr ▸ hk).cons_toNat with ⟨hb, rfl⟩ | ⟨hb, hrk⟩
      · have hi : (⟨b.toNat, hb17⟩ : Fin 17) = 16 := Fin.ext hb
        rw [hi]
        rcases hslot with h0 | ⟨v, hv⟩ <;> simp_all [tryGetWith]
      · rw [← hrest]
        exact ih _ (by simp; omega) (hrest ▸ hrk)
    rw [tryGetWith, hget]
    simp [hb17, hchild, hbr, lookup_full_cons cs newFlag hb17]

end Node

end Go420coin.Trie
