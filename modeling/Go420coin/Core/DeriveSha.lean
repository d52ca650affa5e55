import Go420coin.Rlp.Raw
import Go420coin.Trie.StackTrieRefinement

set_option linter.dupNamespace false

/-!
# `DeriveSha` (`core/types/derive_sha.go`)

`DeriveSha` puts the encodings of a list's items into a `Hasher`, each keyed by the RLP encoding of
its index (`rlp.AppendUint64`), and returns the hasher's hash.  It inserts the indices `1 .. 127`,
then `0`, then `128 ..`: the order in which their encodings sort, none a prefix of another
(`derivePairs_sorted`), so that a stack trie, which takes its keys in increasing order only, can be
the hasher.  With a stack trie and with a trie, `DeriveSha` gives the same hash
(`deriveSha_stackTrie_eq_trie`).
-/

namespace Go420coin.Types

open Trie Rlp BigEndian

/-- The `Hasher` interface, over the hasher's state `σ`: `Reset`, `Update` and `Hash`.  A panic of
the implementation is an error in `ε`. -/
structure Hasher (σ ε : Type) where
  reset : σ → σ
  update : σ → List UInt8 → List UInt8 → Except ε σ
  hash : σ → Except ε (List UInt8)

section DeriveSha

variable {σ ε : Type}

/-- One step of `DeriveSha`'s loops: `Update` with the encoding of index `i` as key and `GetRlp(i)`. -/
def updateIndex (hasher : Hasher σ ε) (getRlp : Nat → List UInt8) (s : σ) (i : Nat) : Except ε σ :=
  hasher.update s (appendUint64 [] i.toUInt64) (getRlp i)

/-- `DeriveSha` of a list of `len` items whose `GetRlp(i)` is `getRlp i`. -/
def deriveSha (hasher : Hasher σ ε) (s : σ) (len : Nat) (getRlp : Nat → List UInt8) : Except ε (List UInt8) := do
  let s := hasher.reset s
  -- `for i := 1; i < list.Len() && i <= 0x7f; i++`
  let s ← (List.range' 1 (min len 128 - 1)).foldlM (updateIndex hasher getRlp) s
  let s ← if 0 < len then updateIndex hasher getRlp s 0 else pure s
  -- `for i := 0x80; i < list.Len(); i++`
  let s ← (List.range' 128 (len - 128)).foldlM (updateIndex hasher getRlp) s
  hasher.hash s

/-- The indices in the order `DeriveSha` inserts them. -/
def insertionOrder (len : Nat) : List Nat :=
  List.range' 1 (min len 128 - 1) ++ (if 0 < len then [0] else []) ++ List.range' 128 (len - 128)

example : insertionOrder 3 = [1, 2, 0] := by decide

/-- The pairs `DeriveSha` updates the hasher with, in order. -/
def derivePairs (len : Nat) (getRlp : Nat → List UInt8) : List (List UInt8 × List UInt8) :=
  (insertionOrder len).map fun i => (appendUint64 [] i.toUInt64, getRlp i)

/-- `DeriveSha` resets the hasher, updates it with `derivePairs` in order and hashes. -/
theorem deriveSha_eq (hasher : Hasher σ ε) (s : σ) (len : Nat) (getRlp : Nat → List UInt8) :
    deriveSha hasher s len getRlp =
      (derivePairs len getRlp).foldlM (fun s kv => hasher.update s kv.1 kv.2) (hasher.reset s) >>= hasher.hash := by
  rw [derivePairs, List.foldlM_map, insertionOrder]
  by_cases h : 0 < len <;> simp [deriveSha, h, List.foldlM_append] <;> rfl

/-! ### The order of the keys -/

theorem lt_of_mem_insertionOrder {len i : Nat} (h : i ∈ insertionOrder len) : i < len := by
  simp only [insertionOrder, List.mem_append, List.mem_range'_1] at h
  split_ifs at h <;> simp at h <;> omega

theorem toNat_toUInt64 {i : Nat} (h : i < 2 ^ 64) : i.toUInt64.toNat = i := by
  simpa using Nat.mod_eq_of_lt h

/-- Keys that part where their first bytes do. -/
theorem parts_of_head_lt {a b : UInt8} (h : a.toNat < b.toNat) (p q : List UInt8) :
    KeyOrder.Parts (a :: p) (b :: q) :=
  KeyOrder.parts_cons_cons.2 (.inl (UInt8.lt_iff_toNat_lt.2 h))

/-- The key of an index `1 .. 127` is the index as a byte. -/
theorem key_of_lt {i : Nat} (h1 : 1 ≤ i) (h : i < 128) :
    appendUint64 [] i.toUInt64 = [i.toUInt64.toUInt8] := by
  have hi : i.toUInt64.toNat = i := toNat_toUInt64 (by omega)
  exact appendUint64_of_lt (fun h0 => by rw [h0] at hi; simp at hi; omega) (by omega) []

theorem toNat_toUInt8_toUInt64 {i : Nat} (h : i < 256) : i.toUInt64.toUInt8.toNat = i := by
  simp only [UInt64.toNat_toUInt8, toNat_toUInt64 (show i < 2 ^ 64 by omega)]
  omega

/-- The key of an index from 128 on starts with a tag from `0x81` to `0x88`. -/
theorem key_of_le {i : Nat} (h : 128 ≤ i) (h64 : i < 2 ^ 64) :
    ∃ tag t, appendUint64 [] i.toUInt64 = tag :: t ∧ 0x80 < tag.toNat := by
  have hi : 128 ≤ i.toUInt64.toNat := by rw [toNat_toUInt64 h64]; exact h
  refine ⟨_, _, appendUint64_of_le hi [], ?_⟩
  rw [toNat_tag]
  have := one_le_length_toBytes hi
  omega

/-- In `DeriveSha`'s order, the key of each index parts below the keys of the indices after it. -/
theorem parts_insertionOrder {len : Nat} (hlen : len ≤ 2 ^ 64) :
    (insertionOrder len).Pairwise fun i j => KeyOrder.Parts (appendUint64 [] i.toUInt64) (appendUint64 [] j.toUInt64) := by
  rw [insertionOrder, List.pairwise_append, List.pairwise_append]
  refine ⟨⟨?_, ?_, ?_⟩, ?_, ?_⟩
  · -- `1 .. 127`: single bytes in increasing order
    refine List.Pairwise.imp_of_mem (fun {i j} hi hj hij => ?_) List.pairwise_lt_range'
    rw [List.mem_range'_1] at hi hj
    rw [key_of_lt hi.1 (by omega), key_of_lt hj.1 (by omega)]
    exact parts_of_head_lt (by rw [toNat_toUInt8_toUInt64 (by omega), toNat_toUInt8_toUInt64 (by omega)]; exact hij) _ _
  · split_ifs <;> simp
  · -- then `0`, whose key `0x80` is past every single byte
    intro i hi j hj
    rw [List.mem_range'_1] at hi
    split_ifs at hj <;> simp at hj
    subst hj
    rw [key_of_lt hi.1 (by omega)]
    exact parts_of_head_lt (by rw [toNat_toUInt8_toUInt64 (by omega)]; simp; omega) _ _
  · -- `128 ..`: longer keys in increasing order
    refine List.Pairwise.imp_of_mem (fun {i j} hi hj hij => ?_) List.pairwise_lt_range'
    rw [List.mem_range'_1] at hi hj
    refine parts_appendUint64 (by rw [toNat_toUInt64 (by omega)]; omega) ?_
    rw [toNat_toUInt64 (by omega), toNat_toUInt64 (by omega)]
    exact hij
  · -- every key from 128 on is past `0x80` and the single bytes
    intro i hi j hj
    rw [List.mem_range'_1] at hj
    obtain ⟨tag, t, hjt, htag⟩ := key_of_le (i := j) (by omega) (by omega)
    rw [hjt]
    simp only [List.mem_append, List.mem_range'_1] at hi
    rcases hi with hi | hi
    · rw [key_of_lt hi.1 (by omega)]
      exact parts_of_head_lt (by rw [toNat_toUInt8_toUInt64 (by omega)]; omega) _ _
    · split_ifs at hi <;> simp at hi
      subst hi
      exact parts_of_head_lt (by simpa using htag) _ _

theorem length_key_le {i : Nat} (h : i < 2 ^ 64) : (appendUint64 [] i.toUInt64).length ≤ 9 := by
  by_cases hi : 128 ≤ i
  · rw [appendUint64_of_le (by rw [toNat_toUInt64 h]; exact hi)]
    have := length_toBytes_toNat_le i.toUInt64
    simp only [List.nil_append, List.length_cons]
    omega
  · by_cases h0 : i = 0
    · subst h0
      show (appendUint64 [] 0).length ≤ 9
      rw [appendUint64_zero]
      simp
    · rw [key_of_lt (by omega) (by omega)]
      simp

/-- `DeriveSha`'s keys come in increasing order, none a prefix of a later one, for every list of up to
`2 ^ 64` items. -/
theorem derivePairs_sorted {len : Nat} (hlen : len ≤ 2 ^ 64) (getRlp : Nat → List UInt8) :
    (derivePairs len getRlp).Pairwise fun a b => a.1 < b.1 ∧ ¬ a.1 <+: b.1 := by
  rw [derivePairs, List.pairwise_map]
  exact (parts_insertionOrder hlen).imp fun h => ⟨h.lt, h.not_prefix_left⟩

end DeriveSha

/-! ### A stack trie and a trie as the hasher -/

section Hashers

variable (keccak : List UInt8 → List UInt8)

/-- A stack trie as the hasher (`NewStackTrie(nil)`): `Reset` empties it, `Update` is `TryUpdate`
(which only panics) and `Hash` is `Hash`; without a database nothing is written. -/
def stackTrieHasher : Hasher StackTrie StackTrieError where
  reset _ := StackTrie.empty
  update st k v := (st.tryUpdate keccak k v).map Prod.fst
  hash st := (st.rootHash keccak).map Prod.fst

/-- A trie as the hasher: `Reset`, `Update` and `Hash`. -/
def trieHasher : Hasher Trie TrieError where
  reset t := t.reset
  update t k v := .ok (t.update k v)
  hash t := (t.hash keccak).1

variable {keccak}

/-- Updating a stack trie pair by pair is `updateAll`, the pairs written dropped. -/
theorem foldlM_stackTrieHasher (kvs : List (List UInt8 × List UInt8)) (st : StackTrie) :
    kvs.foldlM (fun s kv => (stackTrieHasher keccak).update s kv.1 kv.2) st =
      (st.updateAll keccak kvs).map Prod.fst := by
  induction kvs generalizing st with
  | nil => rfl
  | cons kv kvs ih =>
    rw [List.foldlM_cons]
    cases h : st.tryUpdate keccak kv.1 kv.2 with
    | error e => simp [stackTrieHasher, StackTrie.updateAll, h, Except.map]
    | ok p =>
      have hup : (stackTrieHasher keccak).update st kv.1 kv.2 = .ok p.1 := by simp [stackTrieHasher, h, Except.map]
      rw [hup, Except.ok_bind, ih]
      cases h' : p.1.updateAll keccak kvs <;> simp [StackTrie.updateAll, h, h', Except.map]

/-- Updating a trie pair by pair is the run of the same `Update`s. -/
theorem foldlM_trieHasher (kvs : List (List UInt8 × List UInt8)) (t : Trie) :
    kvs.foldlM (fun s kv => (trieHasher keccak).update s kv.1 kv.2) t =
      .ok (t.runOps (kvs.map fun kv => .update kv.1 kv.2)) := by
  induction kvs generalizing t with
  | nil => rfl
  | cons kv kvs ih =>
    rw [List.foldlM_cons]
    exact ih (t.update kv.1 kv.2)

theorem reset_eq_empty (t : Trie) : t.reset = Trie.empty t.db := rfl

variable (keccak) in
/-- `DeriveSha` is independent of the hasher: for every list of up to `2 ^ 64` items whose encodings
are not empty, the keys come in increasing order, none a prefix of a later one, and a stack trie and
a trie as the hasher give the same hash. -/
theorem deriveSha_stackTrie_eq_trie (hk : ∀ d, (keccak d).length = 32) {len : Nat} (hlen : len ≤ 2 ^ 64)
    (getRlp : Nat → List UInt8) (hrlp : ∀ i < len, getRlp i ≠ [] ∧ (getRlp i).length < 2 ^ 62)
    (st : StackTrie) (t : Trie) :
    (derivePairs len getRlp).Pairwise (fun a b => a.1 < b.1 ∧ ¬ a.1 <+: b.1) ∧
      ∃ h, deriveSha (stackTrieHasher keccak) st len getRlp = .ok h ∧
        deriveSha (trieHasher keccak) t len getRlp = .ok h := by
  have hsorted := derivePairs_sorted hlen getRlp
  have hkv : ∀ kv ∈ derivePairs len getRlp, kv.2 ≠ [] ∧ kv.1.length < 2 ^ 60 ∧ kv.2.length < 2 ^ 62 := by
    intro kv hkv
    obtain ⟨i, hi, rfl⟩ := List.mem_map.1 hkv
    have hlt := lt_of_mem_insertionOrder hi
    have hkey := length_key_le (i := i) (by omega)
    exact ⟨(hrlp i hlt).1, by dsimp only; omega, (hrlp i hlt).2⟩
  -- both hashers see the same sorted pairs: the stack trie stands for the trie's root
  obtain ⟨st', w, W, hrun, hroot, hs, -, -⟩ := StackTrie.updateAll_runOps hk t.db _ hsorted hkv
  obtain ⟨h, st'', w', hh, hth⟩ := StackTrie.rootHash_root hk hroot hs rfl
  refine ⟨hsorted, h, ?_, ?_⟩
  · rw [deriveSha_eq, foldlM_stackTrieHasher]
    simp [stackTrieHasher, hrun, hh, Except.map]
  · rw [deriveSha_eq, foldlM_trieHasher]
    simpa [trieHasher, reset_eq_empty] using hth

/-- Three items, with a constant hash of 32 bytes: the two hashers agree. -/
theorem deriveSha_stackTrie_eq_trie_threeItems :
    (∀ d : List UInt8, ((fun _ => List.replicate 32 (0 : UInt8)) d).length = 32) ∧ 3 ≤ 2 ^ 64 ∧
      (∀ i < 3, ((fun _ => [1]) i : List UInt8) ≠ [] ∧ ((fun _ => [1]) i : List UInt8).length < 2 ^ 62) ∧
      (derivePairs 3 (fun _ => [1])).Pairwise (fun a b => a.1 < b.1 ∧ ¬ a.1 <+: b.1) ∧
      ∃ h, deriveSha (stackTrieHasher fun _ => List.replicate 32 0) StackTrie.empty 3 (fun _ => [1]) = .ok h ∧
        deriveSha (trieHasher fun _ => List.replicate 32 0) (Trie.empty ⟨fun _ => none⟩) 3 (fun _ => [1]) = .ok h :=
  ⟨fun _ => List.length_replicate, by decide, by decide,
    deriveSha_stackTrie_eq_trie (fun _ => List.replicate 32 0) (fun _ => List.length_replicate) (by decide) _
      (by decide) _ _⟩

end Hashers

end Go420coin.Types
