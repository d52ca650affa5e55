import Mathlib.Algebra.Order.BigOperators.Group.List
import Go420coin.Lib.Search
import Go420coin.Rlp.Elements

/-!
# Node records (`p2p/enr/enr.go`)

A `Record` keeps its key/value pairs sorted by key, each value an RLP encoding (`rlp.RawValue`).
`Set` finds the place of a key with `sort.Search` and overwrites the value there, inserts the pair
before it, or appends it; `Load` looks the key up the same way and decodes the value.  A record is
encoded as one RLP list `[signature, seq, k₁, v₁, …]`, and `decodeRecord` reads it back pair by pair,
refusing keys that are not strictly increasing.

* `set_spec` says once what `Set` does to sorted pairs: the keys below the new one stay in front, the
  keys above it behind, and the pair of the same key, if any, is replaced.  From it, the pairs stay
  sorted, `Set` leaves the other pairs as they are (`filter_set`), and a key is looked up as the
  last `Set` of it stored it (`lookup_setAll`), which `Load` then decodes (`load_setAll`).
* A record whose pairs are sorted and hold raw values decodes from its encoding to the same sequence
  number, signature and pairs (`decodeRecord_encode`).  The loop reads a pair per round
  (`decodePairs_cons`): an encoding with an odd number of elements after the sequence number, or
  with keys out of order, is refused (`decodeContainer_odd`, `decodeContainer_not_sorted`).  With a
  round for each element, as `decodeContainer` gives it, the loop's error is the code's and not the
  model's bound on the rounds (`decodePairs_odd`, `decodePairs_not_keysOk`).

Keys are Go strings, modelled by their bytes and compared byte by byte, as Go compares strings.  An
entry is an RLP value (`Rlp.Value`), which `Set` encodes and `Load` decodes.  Identity schemes,
`SetSig` and signature checks are left out.
-/

namespace Go420coin.Enr

open Go420coin.Rlp BigEndian
open Go420coin.Rlp.Stream

/-- `SizeLimit`: the largest encoded record, in bytes. -/
def sizeLimit : Nat := 300

/-- The errors of records: those of `rlp`, and `errNotSorted`, `errDuplicateKey`,
`errIncompletePair`, `errTooBig` and `errNotFound`. -/
inductive EnrError where
  | rlp (e : Rlp.Error)
  | notSorted
  | duplicateKey
  | incompletePair
  | tooBig
  | notFound
  deriving Repr, DecidableEq

def EnrError.text : EnrError → String
  | .rlp e => e.text
  | .notSorted => "record key/value pairs are not sorted by key"
  | .duplicateKey => "record contains duplicate key"
  | .incompletePair => "record contains incomplete k/v pair"
  | .tooBig => "record bigger than 300 bytes"
  | .notFound => "no such key in record"

/-- `KeyError`: an error of `Load`, with the key it was asked for. -/
structure KeyError where
  key : List UInt8
  err : EnrError
  deriving Repr, DecidableEq

/-- `pair`: a key and its value, an RLP encoding. -/
structure Pair where
  k : List UInt8
  v : List UInt8
  deriving Repr, DecidableEq

/-- `Record`; a `nil` signature or raw encoding is `none`. -/
structure Record where
  seq : UInt64
  signature : Option (List UInt8)
  raw : Option (List UInt8)
  pairs : List Pair
  deriving Repr, DecidableEq

namespace Record

/-- The zero value, an empty record. -/
def empty : Record := ⟨0, none, none, []⟩

/-- `SetSeq`: a new sequence number, and no signature. -/
def setSeq (r : Record) (s : UInt64) : Record := { r with signature := none, raw := none, seq := s }

/-- `invalidate`: a signed record takes the next sequence number and loses its signature. -/
def invalidate (r : Record) : Record :=
  { r with seq := if r.signature.isSome then r.seq + 1 else r.seq, signature := none, raw := none }

/-- The test that `Load` and `Set` give `sort.Search`: the key at `i` is not below `key`. -/
def keyAtLeast (pairs : List Pair) (key : List UInt8) (i : Nat) : Bool :=
  decide ((pairs.getD i ⟨[], []⟩).k ≥ key)

/-- `Load`: the value stored under `key`, decoded. -/
def load (r : Record) (key : List UInt8) : Except KeyError Value :=
  let i := Search.search r.pairs.length (keyAtLeast r.pairs key)
  match r.pairs[i]? with
  | some p =>
    if p.k = key then
      match decodeBytes p.v with
      | .ok v => .ok v
      | .error e => .error ⟨key, .rlp e⟩
    else .error ⟨key, .notFound⟩
  | none => .error ⟨key, .notFound⟩

/-- `Set`: the encoding of the entry is stored under its key.  The record is invalidated and its pairs
copied; the value of a key found is overwritten, a new key is inserted before the first greater one,
or appended after the last. -/
def set (r : Record) (key : List UInt8) (e : Value) : Record :=
  let blob := encodeToBytes e
  let r := r.invalidate
  let pairs := r.pairs
  let i := Search.search pairs.length (keyAtLeast pairs key)
  let pairs :=
    match pairs[i]? with
    | some p => if p.k = key then pairs.set i { p with v := blob } else pairs.insertIdx i ⟨key, blob⟩
    | none => pairs ++ [⟨key, blob⟩]
  { r with pairs := pairs }

/-- A run of `Set` calls. -/
def setAll (r : Record) (ops : List (List UInt8 × Value)) : Record :=
  ops.foldl (fun r o => r.set o.1 o.2) r

/-- `AppendElements`: the sequence number, then each key and its value. -/
def appendElements (r : Record) (list : List Element) : List Element :=
  list ++ .uint r.seq :: r.pairs.flatMap fun p => [.bytes p.k, .raw p.v]

/-- `encode`: the list of the signature and the elements, refused above `SizeLimit`. -/
def encode (r : Record) (sig : List UInt8) : Except EnrError (List UInt8) :=
  let list := r.appendElements [.bytes sig]
  let raw := encodeElements list
  if raw.length > sizeLimit then .error .tooBig else .ok raw

end Record

/-! ### `decodeRecord` -/

/-- The order check of `decodeRecord`'s loop: from the second pair on, a key equal to the one before
is a duplicate, and a smaller one is out of order. -/
def checkKey (i : Nat) (prevkey k : List UInt8) : Option EnrError :=
  if i > 0 then
    if k = prevkey then some .duplicateKey
    else if k < prevkey then some .notSorted
    else none
  else none

/-- The loop of `decodeRecord` over the key/value pairs: a key (`EOL` ends the loop), its value (`EOL`
leaves the pair incomplete), the order check.  `fuel` bounds the rounds; `decodeContainer` gives more
than the bytes left, and every round reads a byte at least. -/
def decodePairs : Nat → Stream → Nat → List UInt8 → List Pair → Except EnrError (List Pair) × Stream
  | 0, s, _, _, _ => (.error (.rlp .outOfFuel), s)
  | fuel + 1, s, i, prevkey, pairs =>
    match decodeString s with
    | (.error .eol, s) => (.ok pairs, s)
    | (.error e, s) => (.error (.rlp e), s)
    | (.ok k, s) =>
      match decodeRawValue s with
      | (.error .eol, s) => (.error .incompletePair, s)
      | (.error e, s) => (.error (.rlp e), s)
      | (.ok v, s) =>
        match checkKey i prevkey k with
        | some e => (.error e, s)
        | none => decodePairs fuel s (i + 1) k (pairs ++ [⟨k, v⟩])

/-- The container of `decodeRecord`, read from a stream of its own over the record's bytes: the list,
the signature, the sequence number, the pairs, and the end of the list. -/
def decodeContainer (raw : List UInt8) : Except EnrError Record :=
  match (Stream.reset raw 0).list with
  | (.error e, _) => .error (.rlp e)
  | (.ok _, s) =>
    match decodeByteSlice s with
    | (.error e, _) => .error (.rlp e)
    | (.ok signature, s) =>
      match decodeUint s 64 with
      | (.error e, _) => .error (.rlp e)
      | (.ok seq, s) =>
        match decodePairs (s.r.length + 1) s 0 [] [] with
        | (.error e, _) => .error e
        | (.ok pairs, s) =>
          match s.listEnd with
          | (.error e, _) => .error (.rlp e)
          | (.ok (), _) => .ok ⟨seq, some signature, none, pairs⟩

/-- `decodeRecord`: the record's bytes are read with `Raw` from the caller's stream, refused above
`SizeLimit`, and decoded; they are returned with the record. -/
def decodeRecord (s : Stream) : Except EnrError (Record × List UInt8) × Stream :=
  match s.raw with
  | (.error e, s) => (.error (.rlp e), s)
  | (.ok raw, s) =>
    if raw.length > sizeLimit then (.error .tooBig, s)
    else ((decodeContainer raw).map fun dec => (dec, raw), s)

/-- `DecodeRLP`: the decoded record keeps its raw bytes. -/
def decodeRLP (s : Stream) : Except EnrError Record × Stream :=
  match decodeRecord s with
  | (.error e, s) => (.error e, s)
  | (.ok (dec, raw), s) => (.ok { dec with raw := some raw }, s)

/-! ### Sorted pairs as a map -/

/-- The pairs are strictly sorted by key. -/
def Sorted (ps : List Pair) : Prop := ps.Pairwise fun a b => a.k < b.k

/-- The value stored under a key. -/
def lookup (ps : List Pair) (key : List UInt8) : Option (List UInt8) :=
  (ps.find? fun p => p.k = key).map Pair.v

/-- The value of the last `Set` of a key in a run. -/
def lastSet (ops : List (List UInt8 × Value)) (key : List UInt8) : Option Value :=
  (ops.reverse.find? fun o => o.1 = key).map Prod.snd

theorem lookup_append_of_lt {front rest : List Pair} {key : List UInt8} (h : ∀ p ∈ front, p.k < key) :
    lookup (front ++ rest) key = lookup rest key := by
  have hnone : front.find? (fun p => p.k = key) = none := by
    rw [List.find?_eq_none]
    intro p hp hpk
    have hlt := h p hp
    rw [of_decide_eq_true hpk] at hlt
    exact List.lt_irrefl _ hlt
  simp [lookup, List.find?_append, hnone]

theorem lookup_eq_none_of_gt {back : List Pair} {key : List UInt8} (h : ∀ p ∈ back, key < p.k) :
    lookup back key = none := by
  have hnone : back.find? (fun p => p.k = key) = none := by
    rw [List.find?_eq_none]
    intro p hp hpk
    have hlt := h p hp
    rw [of_decide_eq_true hpk] at hlt
    exact List.lt_irrefl _ hlt
  simp [lookup, hnone]

/-- A lookup of another key sees only the pairs of other keys. -/
theorem lookup_filter {ps : List Pair} {key key' : List UInt8} (h : key' ≠ key) :
    lookup (ps.filter fun p => p.k ≠ key) key' = lookup ps key' := by
  simp only [lookup, List.find?_filter]
  congr 2
  funext p
  by_cases hp : p.k = key'
  · simp [hp, h]
  · simp [hp]

namespace Record

variable {r : Record} {key : List UInt8} {e : Value}

@[simp] theorem invalidate_pairs (r : Record) : r.invalidate.pairs = r.pairs := rfl

theorem atLeast_keyAtLeast (ps : List Pair) (key : List UInt8) :
    Search.AtLeast Pair.k ps key (keyAtLeast ps key) := by
  intro i hi
  simp only [keyAtLeast, List.getD_eq_getElem?_getD, List.getElem?_eq_getElem hi, Option.getD_some,
    decide_eq_true_eq, ge_iff_le]
  exact List.not_lt.symm

/-- What `Set` does to sorted pairs: the keys below the new one stay in front, those above it stay
behind, and the pairs between, of the key itself, give way to the new pair. -/
theorem set_spec (hs : Sorted r.pairs) :
    ∃ front mid back, r.pairs = front ++ mid ++ back ∧
      (r.set key e).pairs = front ++ ⟨key, encodeToBytes e⟩ :: back ∧
      (∀ p ∈ front, p.k < key) ∧ (∀ p ∈ mid, p.k = key) ∧ (∀ p ∈ back, key < p.k) := by
  have hf := atLeast_keyAtLeast r.pairs key
  have hle := Search.search_le r.pairs.length (keyAtLeast r.pairs key)
  have hfront := Search.lt_of_mem_take_search hs hf
  simp only [set, invalidate_pairs]
  generalize hsearch : Search.search r.pairs.length (keyAtLeast r.pairs key) = i at hle hfront ⊢
  rcases hget : r.pairs[i]? with _ | p
  · -- past the last key: append
    have hi : i = r.pairs.length := by
      have := List.getElem?_eq_none_iff.1 hget
      omega
    subst hi
    refine ⟨r.pairs, [], [], by simp, by simp, by simpa using hfront, by simp, by simp⟩
  · obtain ⟨hi, rfl⟩ := List.getElem?_eq_some_iff.1 hget
    by_cases hk : r.pairs[i].k = key
    · -- the key is there: overwrite its value
      refine ⟨r.pairs.take i, [r.pairs[i]], r.pairs.drop (i + 1), ?_, ?_, hfront, by simpa using hk,
        Search.lt_of_mem_drop_succ hs hi hk⟩
      · rw [List.append_assoc, List.singleton_append, ← List.drop_eq_getElem_cons hi, List.take_append_drop]
      · dsimp only
        rw [if_pos hk, hk, List.set_eq_take_append_cons_drop, if_pos hi]
    · -- a new key: insert it before the first greater one
      have hnot := Search.not_lt_of_search_le hs hf (by rw [hsearch]) hi
      refine ⟨r.pairs.take i, [], r.pairs.drop i, by simp, ?_, hfront, by simp,
        Search.lt_of_mem_drop_of_ne hs hi hnot hk⟩
      dsimp only
      rw [if_neg hk, Search.insertIdx_eq_take_drop _ (by omega)]

theorem sorted_set (hs : Sorted r.pairs) : Sorted (r.set key e).pairs := by
  obtain ⟨front, mid, back, hr, hset, hfront, -, hback⟩ := @set_spec r key e hs
  have hsub : Sorted (front ++ back) := by
    refine List.Pairwise.sublist ?_ hs
    rw [hr, List.append_assoc]
    exact List.Sublist.append_left (List.sublist_append_right mid back) front
  unfold Sorted at hsub ⊢
  rw [hset]
  rw [List.pairwise_append] at hsub ⊢
  obtain ⟨hf, hb, hfb⟩ := hsub
  refine ⟨hf, List.pairwise_cons.2 ⟨hback, hb⟩, fun a ha b hb' => ?_⟩
  rcases List.mem_cons.1 hb' with rfl | hb'
  · exact hfront a ha
  · exact hfb a ha b hb'

/-- `Set` of a key leaves every pair of another key as it was, in the same order. -/
theorem filter_set (hs : Sorted r.pairs) :
    (r.set key e).pairs.filter (fun p => p.k ≠ key) = r.pairs.filter (fun p => p.k ≠ key) := by
  obtain ⟨front, mid, back, hr, hset, -, hmid, -⟩ := @set_spec r key e hs
  have hmid' : mid.filter (fun p => p.k ≠ key) = [] :=
    List.filter_eq_nil_iff.2 fun p hp => by simp [hmid p hp]
  rw [hset, hr, List.filter_append, List.filter_append, List.filter_append, hmid', List.filter_cons]
  simp

theorem lookup_set (hs : Sorted r.pairs) (key' : List UInt8) :
    lookup (r.set key e).pairs key' = if key' = key then some (encodeToBytes e) else lookup r.pairs key' := by
  split_ifs with hk
  · subst hk
    obtain ⟨front, mid, back, -, hset, hfront, -, -⟩ := @set_spec r key' e hs
    rw [hset, lookup_append_of_lt hfront]
    simp [lookup]
  · rw [← lookup_filter hk, filter_set hs, lookup_filter hk]

/-- `Load` finds what is stored under the key, and decodes it. -/
theorem load_eq_lookup (hs : Sorted r.pairs) (key : List UInt8) :
    r.load key =
      match lookup r.pairs key with
      | some b =>
        match decodeBytes b with
        | .ok v => .ok v
        | .error err => .error ⟨key, .rlp err⟩
      | none => .error ⟨key, .notFound⟩ := by
  have hf := atLeast_keyAtLeast r.pairs key
  have hle := Search.search_le r.pairs.length (keyAtLeast r.pairs key)
  have hfront := Search.lt_of_mem_take_search hs hf
  unfold load
  generalize hsearch : Search.search r.pairs.length (keyAtLeast r.pairs key) = i at hle hfront ⊢
  dsimp only
  rcases hget : r.pairs[i]? with _ | p
  · -- every key is below `key`
    have hi : i = r.pairs.length := by
      have := List.getElem?_eq_none_iff.1 hget
      omega
    subst hi
    rw [List.take_length] at hfront
    have hnone : lookup r.pairs key = none := by
      simpa [lookup] using @lookup_append_of_lt _ [] _ hfront
    rw [hnone]
  · obtain ⟨hi, rfl⟩ := List.getElem?_eq_some_iff.1 hget
    have hlook : lookup r.pairs key = lookup (r.pairs[i] :: r.pairs.drop (i + 1)) key := by
      conv_lhs => rw [← List.take_append_drop i r.pairs]
      rw [lookup_append_of_lt hfront, List.drop_eq_getElem_cons hi]
    rw [hlook]
    dsimp only
    by_cases hk : r.pairs[i].k = key
    · rw [if_pos hk]
      simp only [lookup, List.find?_cons, hk, decide_true, Option.map_some]
    · have hnot := Search.not_lt_of_search_le hs hf (by rw [hsearch]) hi
      have hback := Search.lt_of_mem_drop_of_ne hs hi hnot hk
      rw [List.drop_eq_getElem_cons hi] at hback
      rw [if_neg hk, lookup_eq_none_of_gt hback]

/-- The pairs stay sorted through a run of `Set` calls, and a key is looked up as the last `Set` of it
stored it, or as before the run. -/
theorem lookup_setAll (hs : Sorted r.pairs) (ops : List (List UInt8 × Value)) :
    Sorted (r.setAll ops).pairs ∧
      ∀ key, lookup (r.setAll ops).pairs key = ((lastSet ops key).map encodeToBytes).or (lookup r.pairs key) := by
  induction ops generalizing r with
  | nil => simp [setAll, lastSet, hs]
  | cons o ops ih =>
    obtain ⟨hsorted, hlookup⟩ := ih (@sorted_set r o.1 o.2 hs)
    refine ⟨hsorted, fun key => ?_⟩
    rw [show r.setAll (o :: ops) = (r.set o.1 o.2).setAll ops from rfl, hlookup, lookup_set hs]
    simp only [lastSet, List.reverse_cons, List.find?_append, List.find?_singleton]
    cases ops.reverse.find? (fun o' => o'.1 = key) with
    | some o' => simp
    | none =>
      by_cases hk : key = o.1
      · simp [hk]
      · simp [hk, Ne.symm hk]

/-- After a run of `Set` calls, `Load` returns the value of the last `Set` of the key, or what it
returned before the run. -/
theorem load_setAll (hs : Sorted r.pairs) (ops : List (List UInt8 × Value)) (hfits : ∀ o ∈ ops, o.2.fits)
    (key : List UInt8) :
    (r.setAll ops).load key = match lastSet ops key with
      | some v => .ok v
      | none => r.load key := by
  obtain ⟨hsorted, hlookup⟩ := lookup_setAll hs ops
  rw [load_eq_lookup hsorted, hlookup, load_eq_lookup hs]
  cases hlast : lastSet ops key with
  | none => rfl
  | some v =>
    have hv : v.fits := by
      simp only [lastSet, Option.map_eq_some_iff] at hlast
      obtain ⟨o, ho, rfl⟩ := hlast
      exact hfits o (List.mem_reverse.1 (List.mem_of_find?_eq_some ho))
    simp [encodeToBytes_eq_encode hv, decodeBytes_encode hv]

/-- A record as `Set` builds it: its pairs sorted, each value one RLP value. -/
structure Valid (r : Record) : Prop where
  sorted : Sorted r.pairs
  raw : ∀ p ∈ r.pairs, IsRaw p.v

theorem valid_empty : empty.Valid := ⟨List.Pairwise.nil, fun _ h => absurd h List.not_mem_nil⟩

theorem valid_set (hv : r.Valid) (he : e.fits) : (r.set key e).Valid := by
  obtain ⟨front, mid, back, hr, hset, -, -, -⟩ := @set_spec r key e hv.sorted
  refine ⟨sorted_set hv.sorted, fun p hp => ?_⟩
  rw [hset, List.mem_append, List.mem_cons] at hp
  rcases hp with hp | rfl | hp
  · exact hv.raw p (by rw [hr]; simp [hp])
  · rw [encodeToBytes_eq_encode he]
    exact isRaw_encode he
  · exact hv.raw p (by rw [hr]; simp [hp])

theorem valid_setAll (hv : r.Valid) {ops : List (List UInt8 × Value)} (hfits : ∀ o ∈ ops, o.2.fits) :
    (r.setAll ops).Valid := by
  induction ops generalizing r with
  | nil => exact hv
  | cons o ops ih =>
    exact ih (valid_set hv (hfits o List.mem_cons_self)) fun o' h => hfits o' (List.mem_cons_of_mem _ h)

end Record

/-! ### The encoding -/

/-- What `AppendElements` writes after the sequence number: each key, then its value. -/
def encodePairs (ps : List Pair) : List UInt8 := ps.flatMap fun p => Rlp.encode (.bytes p.k) ++ p.v

/-- The payload of an encoded record: the signature, the sequence number, the pairs. -/
def body (sig : List UInt8) (seq : UInt64) (ps : List Pair) : List UInt8 :=
  Rlp.encode (.bytes sig) ++ Rlp.encode (.bytes (toBytes seq.toNat)) ++ encodePairs ps

theorem length_encodePairs (ps : List Pair) : ps.length ≤ (encodePairs ps).length := by
  induction ps with
  | nil => simp [encodePairs]
  | cons p ps ih =>
    have := List.length_pos_iff.2 (encode_ne_nil (.bytes p.k))
    simp only [encodePairs, List.flatMap_cons, List.length_append, List.length_cons] at ih ⊢
    omega

/-- An encoded record is the list of its signature, sequence number and pairs, within `SizeLimit`. -/
theorem encode_eq {r : Record} {sig raw : List UInt8} (h : r.encode sig = .ok raw) :
    raw.length ≤ sizeLimit ∧ raw = lengthPrefix 0xC0 (body sig r.seq r.pairs).length ++ body sig r.seq r.pairs := by
  unfold Record.encode at h
  dsimp only at h
  split_ifs at h with hsize
  obtain rfl := Except.ok.inj h
  refine ⟨Nat.le_of_not_lt hsize, ?_⟩
  rw [encodeElements_eq] at hsize ⊢
  generalize hW : (Record.appendElements r [.bytes sig]).flatMap (fun e => (Encbuf.reset.writeElement e).str) = W
    at hsize ⊢
  have hWlen : W.length < 2 ^ 64 := by
    simp only [sizeLimit, List.length_append] at hsize
    omega
  -- every string is shorter than the whole payload, so each element writes its encoding
  have hout : W = (Record.appendElements r [.bytes sig]).flatMap Element.out := by
    rw [← hW]
    refine List.flatMap_congr fun e he => reset_writeElement fun b hb => ?_
    subst hb
    have h1 := length_le_writeElement b
    have h2 : (Encbuf.reset.writeElement (.bytes b)).str.length ≤ W.length := by
      rw [← hW, List.length_flatMap]
      exact List.le_sum_of_mem (List.mem_map_of_mem he)
    omega
  have hbody : W = body sig r.seq r.pairs := by
    rw [hout]
    simp [Record.appendElements, body, encodePairs, Element.out, List.flatMap_assoc]
  rw [show (0xF7 : UInt8) = 0xC0 + 55 by decide, puthead_eq_lengthPrefix hWlen, hbody]

/-! ### The loop of `decodeRecord`, a pair per round -/

/-- The order check passes on every pair of `ps`, read after `i` pairs of which the last had the key
`prevkey`. -/
def KeysOk : Nat → List UInt8 → List Pair → Prop
  | _, _, [] => True
  | i, prevkey, p :: ps => checkKey i prevkey p.k = none ∧ KeysOk (i + 1) p.k ps

theorem checkKey_succ_eq_none {i : Nat} {prevkey k : List UInt8} : checkKey (i + 1) prevkey k = none ↔ prevkey < k := by
  simp only [checkKey, Nat.succ_pos, if_true]
  split_ifs with h1 h2
  · subst h1
    simp
  · simpa using List.lt_asymm h2
  · simp only [true_iff]
    rcases Std.lt_trichotomy prevkey k with h | h | h
    · exact h
    · exact absurd h.symm h1
    · exact absurd h h2

theorem keysOk_succ_iff {i : Nat} {prevkey : List UInt8} :
    ∀ {ps : List Pair}, KeysOk (i + 1) prevkey ps ↔ (∀ p ∈ ps, prevkey < p.k) ∧ Sorted ps
  | [] => by simp [KeysOk, Sorted]
  | p :: ps => by
    rw [KeysOk, checkKey_succ_eq_none, keysOk_succ_iff]
    unfold Sorted
    rw [List.pairwise_cons, List.forall_mem_cons]
    constructor
    · rintro ⟨hp, hps, hs⟩
      exact ⟨⟨hp, fun q hq => List.lt_trans hp (hps q hq)⟩, hps, hs⟩
    · rintro ⟨⟨hp, -⟩, hps, hs⟩
      exact ⟨hp, hps, hs⟩

/-- From the first pair on, the checks pass exactly on sorted pairs. -/
theorem keysOk_zero_iff {prevkey : List UInt8} {ps : List Pair} : KeysOk 0 prevkey ps ↔ Sorted ps := by
  cases ps with
  | nil => simp [KeysOk, Sorted]
  | cons p ps =>
    rw [KeysOk, keysOk_succ_iff]
    unfold Sorted
    rw [List.pairwise_cons]
    simp [checkKey]

/-- One round of the loop, at a key and a raw value with room for them: the pair is read, then
checked. -/
theorem decodePairs_cons {t : Stream} {p : Pair} {rest : List UInt8} (hk : p.k.length < 2 ^ 64) (hv : IsRaw p.v)
    (ht : InList t (Rlp.encode (.bytes p.k) ++ p.v ++ rest)) (fuel i : Nat) (prevkey : List UInt8) (acc : List Pair) :
    ∃ t', InList t' rest ∧ decodePairs (fuel + 1) t i prevkey acc =
      match checkKey i prevkey p.k with
      | some e => (.error e, t')
      | none => decodePairs fuel t' (i + 1) p.k (acc ++ [p]) := by
  rw [List.append_assoc] at ht
  obtain ⟨after, hr⟩ := ht.input
  obtain ⟨t1, hb, hread1⟩ := bytes_complete (by simpa [Value.fits] using hk) ht.kind ht.room_append.1
    (by rw [hr, List.append_assoc])
  have ht1 := ht.reads hread1
  obtain ⟨after1, hr1⟩ := ht1.input
  obtain ⟨t2, hraw, hread2⟩ := raw_isRaw hv ht1.kind ht1.room_append.1 (by rw [hr1, List.append_assoc])
  refine ⟨t2, ht1.reads hread2, ?_⟩
  simp only [decodePairs, decodeString, decodeByteSlice, hb, decodeRawValue, hraw]

/-- At the end of the list, the loop returns the pairs it read. -/
theorem decodePairs_nil {t : Stream} (ht : InList t []) (fuel i : Nat) (prevkey : List UInt8) (acc : List Pair) :
    decodePairs (fuel + 1) t i prevkey acc = (.ok acc, { t with kinderr := none }) := by
  have hb : t.bytes = (.error .eol, { t with kinderr := none }) := by simp [bytes, ht.getKind_nil]
  simp [decodePairs, decodeString, decodeByteSlice, hb, wrapStreamError]

/-- A key that fails to decode, other than at the end of the list, ends the loop with its error. -/
theorem decodePairs_key_error {t t' : Stream} {err : Rlp.Error} (h : decodeString t = (.error err, t'))
    (herr : err ≠ .eol) (fuel i : Nat) (prevkey : List UInt8) (acc : List Pair) :
    decodePairs (fuel + 1) t i prevkey acc = (.error (.rlp err), t') := by
  unfold decodePairs
  rw [h]
  cases err with
  | eol => exact absurd rfl herr
  | _ => rfl

/-- Sorted pairs, each a key and a raw value, are read one per round. -/
theorem decodePairs_keysOk : ∀ (ps : List Pair), (∀ p ∈ ps, p.k.length < 2 ^ 64) → (∀ p ∈ ps, IsRaw p.v) →
    ∀ {t : Stream} {rest : List UInt8} {i : Nat} {prevkey : List UInt8} {acc : List Pair},
      KeysOk i prevkey ps → InList t (encodePairs ps ++ rest) → ∀ fuel,
        ∃ t', InList t' rest ∧ decodePairs (fuel + ps.length) t i prevkey acc =
          decodePairs fuel t' (i + ps.length) ((ps.map Pair.k).getLastD prevkey) (acc ++ ps)
  | [], _, _, t, _, _, _, acc, _, ht, fuel => ⟨t, by simpa [encodePairs] using ht, by simp⟩
  | p :: ps, hk, hv, t, rest, i, prevkey, acc, hok, ht, fuel => by
    obtain ⟨t1, ht1, hstep⟩ := decodePairs_cons (hk p List.mem_cons_self) (hv p List.mem_cons_self)
      (by simpa [encodePairs, List.append_assoc] using ht) (fuel + ps.length) i prevkey acc
    rw [hok.1] at hstep
    dsimp only at hstep
    obtain ⟨t', ht', heq⟩ := decodePairs_keysOk ps (fun q hq => hk q (List.mem_cons_of_mem _ hq))
      (fun q hq => hv q (List.mem_cons_of_mem _ hq)) hok.2 ht1 fuel
    refine ⟨t', ht', ?_⟩
    have hi : i + 1 + ps.length = i + (ps.length + 1) := by omega
    rw [List.length_cons, ← Nat.add_assoc, hstep, heq, hi, List.map_cons, List.getLastD_cons, List.append_assoc,
      List.singleton_append]

/-- The order check fails only on a repeated or a smaller key. -/
theorem checkKey_eq_some {i : Nat} {prevkey k : List UInt8} {err : EnrError} (h : checkKey i prevkey k = some err) :
    err = .notSorted ∨ err = .duplicateKey := by
  unfold checkKey at h
  split_ifs at h <;> simp_all

/-- Pairs out of order are refused by the order check, given a round for each pair. -/
theorem decodePairs_not_keysOk : ∀ (ps : List Pair), (∀ p ∈ ps, p.k.length < 2 ^ 64) → (∀ p ∈ ps, IsRaw p.v) →
    ∀ {t : Stream} {rest : List UInt8} {i : Nat} {prevkey : List UInt8} {acc : List Pair},
      ¬ KeysOk i prevkey ps → InList t (encodePairs ps ++ rest) → ∀ fuel, ps.length ≤ fuel →
        ∃ err t', decodePairs fuel t i prevkey acc = (.error err, t') ∧ (err = .notSorted ∨ err = .duplicateKey)
  | [], _, _, _, _, _, _, _, hok, _, _, _ => absurd trivial hok
  | _ :: _, _, _, _, _, _, _, _, _, _, 0, hfuel => absurd hfuel (by simp)
  | p :: ps, hk, hv, t, rest, i, prevkey, acc, hok, ht, fuel + 1, hfuel => by
    obtain ⟨t1, ht1, hstep⟩ := decodePairs_cons (hk p List.mem_cons_self) (hv p List.mem_cons_self)
      (by simpa [encodePairs, List.append_assoc] using ht) fuel i prevkey acc
    rw [hstep]
    cases hc : checkKey i prevkey p.k with
    | some err => exact ⟨err, t1, rfl, checkKey_eq_some hc⟩
    | none =>
      have hok' : ¬ KeysOk (i + 1) p.k ps := fun h => hok ⟨hc, h⟩
      exact decodePairs_not_keysOk ps (fun q hq => hk q (List.mem_cons_of_mem _ hq))
        (fun q hq => hv q (List.mem_cons_of_mem _ hq)) hok' ht1 fuel (by simpa using hfuel)

/-- An odd number of raw values up to the end of the list is refused, given a round for each value:
the last key finds no value, unless a key fails to decode or the order check fails before it.  The
error is the code's, never the model's bound on the rounds. -/
theorem decodePairs_odd : ∀ (es : List (List UInt8)), (∀ e ∈ es, IsRaw e) → es.length % 2 = 1 →
    ∀ {t : Stream} {i : Nat} {prevkey : List UInt8} {acc : List Pair}, InList t es.flatten →
      ∀ fuel, es.length ≤ fuel →
        ∃ err t', decodePairs fuel t i prevkey acc = (.error err, t') ∧ err ≠ .rlp .outOfFuel
  | [], _, hodd, _, _, _, _, _, _, _ => absurd hodd (by decide)
  | _ :: _, _, _, _, _, _, _, _, 0, hfuel => absurd hfuel (by simp)
  | e :: es, hraw, hodd, t, i, prevkey, acc, ht, fuel + 1, hfuel => by
    obtain ⟨after, hr⟩ := ht.input
    rw [List.flatten_cons] at ht hr
    rcases bytes_isRaw (hraw e List.mem_cons_self) ht.kind ht.room_append.1 (by rw [hr, List.append_assoc]) with
      ⟨err, t1, hb, herr⟩ | ⟨k, t1, hb, hread⟩
    · -- the key fails to decode: it is a list, or a byte written as a string
      have hkey := bytes_isRaw_error (hraw e List.mem_cons_self) ht.kind ht.room_append.1
        (by rw [hr, List.append_assoc]) hb
      refine ⟨.rlp (wrapStreamError err), t1, decodePairs_key_error (by simp [decodeString, decodeByteSlice, hb])
        (fun h => herr (wrapStreamError_eq_eol.1 h)) fuel i prevkey acc, ?_⟩
      rcases hkey with rfl | rfl <;> decide
    have ht1 := ht.reads hread
    cases es with
    | nil =>
      -- the last key: its value is missing
      have hraw1 : t1.raw = (.error .eol, { t1 with kinderr := none }) := by simp [raw, ht1.getKind_nil]
      exact ⟨.incompletePair, { t1 with kinderr := none },
        by simp [decodePairs, decodeString, decodeByteSlice, hb, decodeRawValue, hraw1], by decide⟩
    | cons e2 es =>
      obtain ⟨after1, hr1⟩ := ht1.input
      rw [List.flatten_cons] at ht1 hr1
      obtain ⟨t2, hraw2, hread2⟩ := raw_isRaw (hraw e2 (by simp)) ht1.kind ht1.room_append.1 (by rw [hr1, List.append_assoc])
      have hstep : decodePairs (fuel + 1) t i prevkey acc =
          match checkKey i prevkey k with
          | some err => (.error err, t2)
          | none => decodePairs fuel t2 (i + 1) k (acc ++ [⟨k, e2⟩]) := by
        simp only [decodePairs, decodeString, decodeByteSlice, hb, decodeRawValue, hraw2]
      rw [hstep]
      cases hc : checkKey i prevkey k with
      | some err =>
        refine ⟨err, t2, rfl, ?_⟩
        rcases checkKey_eq_some hc with rfl | rfl <;> decide
      | none =>
        simp only [List.length_cons] at hodd hfuel
        have hodd' : es.length % 2 = 1 := by omega
        exact decodePairs_odd es (fun x hx => hraw x (by simp [hx])) hodd'
          (ht1.reads hread2) fuel (by omega)

/-! ### The container: the round trip, and what is refused -/

/-- A key stands inside the encoding of the pairs. -/
theorem length_key_le {ps : List Pair} {p : Pair} (hp : p ∈ ps) : p.k.length ≤ (encodePairs ps).length :=
  calc p.k.length ≤ (Rlp.encode (.bytes p.k) ++ p.v).length := by
        rw [List.length_append]
        have := length_le_encode_bytes p.k
        omega
    _ ≤ (encodePairs ps).length := by
        rw [encodePairs, List.length_flatMap]
        exact List.le_sum_of_mem (List.mem_map_of_mem hp)

/-- The container of sorted pairs of keys and raw values reads back the signature, the sequence
number and the pairs. -/
theorem decodeContainer_body {sig : List UInt8} {seq : UInt64} {ps : List Pair} (hs : Sorted ps)
    (hv : ∀ p ∈ ps, IsRaw p.v) (hlen : (body sig seq ps).length < 2 ^ 64) :
    decodeContainer (lengthPrefix 0xC0 (body sig seq ps).length ++ body sig seq ps) =
      .ok ⟨seq, some sig, none, ps⟩ := by
  have hsig := length_le_encode_bytes sig
  simp only [body, List.length_append] at hlen
  have hsig' : sig.length < 2 ^ 64 := by omega
  have hpairs : (encodePairs ps).length < 2 ^ 64 := by omega
  obtain ⟨t, hlist, ht⟩ := list_reset (P := body sig seq ps) (by simp only [body, List.length_append]; omega)
  rw [body, List.append_assoc] at ht
  -- the signature
  obtain ⟨after, hr⟩ := ht.input
  obtain ⟨t1, hb1, hread1⟩ := bytes_complete (by simpa [Value.fits] using hsig') ht.kind ht.room_append.1
    (by rw [hr, List.append_assoc])
  have ht1 := ht.reads hread1
  -- the sequence number
  obtain ⟨after1, hr1⟩ := ht1.input
  obtain ⟨t2, hu, hread2⟩ := uint_complete seq.toNat_lt ht1.kind ht1.room_append.1 (by rw [hr1, List.append_assoc])
  have ht2 : InList t2 (encodePairs ps ++ []) := by
    rw [List.append_nil]
    exact ht1.reads hread2
  -- the pairs, with fuel for all of them and the end of the list
  have hk : ∀ p ∈ ps, p.k.length < 2 ^ 64 := fun p hp => lt_of_le_of_lt (length_key_le hp) hpairs
  obtain ⟨t3, ht3, hloop⟩ := decodePairs_keysOk ps hk hv (keysOk_zero_iff.2 hs) ht2 (t2.r.length - ps.length + 1)
  have hfuel : t2.r.length + 1 = t2.r.length - ps.length + 1 + ps.length := by
    obtain ⟨after2, hr2⟩ := ht2.input
    have := length_encodePairs ps
    rw [hr2, List.length_append, List.length_append]
    omega
  obtain ⟨tos, up, hst, hpos⟩ := ht3.last
  have hend := (listEnd_ok (s := { t3 with kinderr := none })).2 ⟨tos, up, hst, by simpa using hpos, rfl⟩
  have hseq : seq.toNat.toUInt64 = seq := UInt64.ofNat_toNat
  unfold decodeContainer
  simp only [hlist, decodeByteSlice, hb1, decodeUint, hu, hseq]
  rw [hfuel, hloop, decodePairs_nil ht3, List.nil_append]
  simp only [hend]

/-- A record of sorted pairs with raw values reads back from its encoding with its sequence number,
signature and pairs. -/
theorem decodeRecord_encode {r : Record} {sig raw : List UInt8} (hv : r.Valid) (h : r.encode sig = .ok raw) :
    ∃ s', decodeRecord (Stream.reset raw 0) = (.ok (⟨r.seq, some sig, none, r.pairs⟩, raw), s') := by
  obtain ⟨hsize, rfl⟩ := encode_eq h
  generalize hB : body sig r.seq r.pairs = B at hsize ⊢
  have hlen : B.length < 2 ^ 64 := by
    simp only [sizeLimit, List.length_append] at hsize
    omega
  have hraw : IsRaw (lengthPrefix 0xC0 B.length ++ B) := IsRaw.sized (k := .list) (by decide) hlen
  obtain ⟨s', hr, -⟩ := raw_isRaw hraw rfl ((reset_room _ _).2 le_rfl) (List.append_nil _).symm
  refine ⟨s', ?_⟩
  subst hB
  rw [decodeRecord, hr]
  dsimp only
  rw [if_neg (Nat.not_lt.2 hsize), decodeContainer_body hv.sorted hv.raw hlen]
  rfl

/-- Past a signature and a sequence number that are one raw value each, the container fails when its
loop fails on what follows them, with the rounds the container gives it. -/
theorem decodeContainer_error_of_pairs {sig seq rest : List UInt8} (hsig : IsRaw sig) (hseq : IsRaw seq)
    (hlen : (sig ++ seq ++ rest).length < 2 ^ 64)
    (hpairs : ∀ t, InList t rest → ∃ err t', decodePairs (t.r.length + 1) t 0 [] [] = (.error err, t')) :
    ∃ err, decodeContainer (lengthPrefix 0xC0 (sig ++ seq ++ rest).length ++ (sig ++ seq ++ rest)) = .error err := by
  obtain ⟨t, hlist, ht⟩ := list_reset hlen
  rw [List.append_assoc] at ht
  obtain ⟨after, hr⟩ := ht.input
  unfold decodeContainer
  rw [hlist]
  dsimp only
  rcases bytes_isRaw hsig ht.kind ht.room_append.1 (by rw [hr, List.append_assoc]) with
    ⟨e, t1, hb, -⟩ | ⟨c, t1, hb, hread1⟩
  · exact ⟨.rlp (wrapStreamError e), by simp only [decodeByteSlice, hb]⟩
  have ht1 := ht.reads hread1
  rcases hu : t1.uint 64 with ⟨res, t2⟩
  rcases res with e | x
  · exact ⟨.rlp (wrapStreamError e), by simp only [decodeByteSlice, hb, decodeUint, hu]⟩
  -- the sequence number read is the value `seq`
  obtain ⟨hf, hread⟩ := bytes_sound ht1.kind (uint_bytes ht1.kind hu)
  obtain ⟨after1, hr1⟩ := ht1.input
  have ht2 := ht1.reads (hread.of_isRaw (isRaw_encode hf) hseq (by rw [hr1, List.append_assoc]))
  obtain ⟨err, t3, hloop⟩ := hpairs t2 ht2
  exact ⟨err, by simp only [decodeByteSlice, hb, decodeUint, hu, hloop]⟩

/-- An odd number of key and value elements after the signature and the sequence number is refused. -/
theorem decodeContainer_odd {sig seq : List UInt8} {kvs : List (List UInt8)} (hsig : IsRaw sig) (hseq : IsRaw seq)
    (hkvs : ∀ e ∈ kvs, IsRaw e) (hodd : kvs.length % 2 = 1) (hlen : (sig ++ seq ++ kvs.flatten).length < 2 ^ 64) :
    ∃ err, decodeContainer (lengthPrefix 0xC0 (sig ++ seq ++ kvs.flatten).length ++ (sig ++ seq ++ kvs.flatten)) =
      .error err := by
  refine decodeContainer_error_of_pairs hsig hseq hlen fun t ht => ?_
  -- every element takes a byte, so the container's rounds cover them
  have hfuel : kvs.length ≤ t.r.length + 1 := by
    obtain ⟨after, hr⟩ := ht.input
    have hone : ∀ n ∈ kvs.map List.length, 1 ≤ n := by
      simp only [List.mem_map, forall_exists_index, and_imp, forall_apply_eq_imp_iff₂]
      exact fun e he => (hkvs e he).length_pos
    have hsum := List.length_le_sum_of_one_le (kvs.map List.length) hone
    rw [List.length_map] at hsum
    rw [hr, List.length_append, List.length_flatten]
    omega
  obtain ⟨err, t', hloop, -⟩ := decodePairs_odd kvs hkvs hodd ht (t.r.length + 1) hfuel
  exact ⟨err, t', hloop⟩

/-- Pairs whose keys are not strictly increasing are refused. -/
theorem decodeContainer_not_sorted {sig seq : List UInt8} {ps : List Pair} (hsig : IsRaw sig) (hseq : IsRaw seq)
    (hv : ∀ p ∈ ps, IsRaw p.v) (hs : ¬ Sorted ps) (hlen : (sig ++ seq ++ encodePairs ps).length < 2 ^ 64) :
    ∃ err, decodeContainer (lengthPrefix 0xC0 (sig ++ seq ++ encodePairs ps).length ++ (sig ++ seq ++ encodePairs ps)) =
      .error err := by
  have hk : ∀ p ∈ ps, p.k.length < 2 ^ 64 := fun p hp => by
    have := length_key_le hp
    simp only [List.length_append] at hlen
    omega
  refine decodeContainer_error_of_pairs hsig hseq hlen fun t ht => ?_
  -- every pair takes a byte, so the container's rounds cover them
  have hfuel : ps.length ≤ t.r.length + 1 := by
    obtain ⟨after, hr⟩ := ht.input
    have := length_encodePairs ps
    rw [hr, List.length_append]
    omega
  obtain ⟨err, t', hloop, -⟩ :=
    decodePairs_not_keysOk ps hk hv (mt keysOk_zero_iff.1 hs) (by rwa [List.append_nil]) (t.r.length + 1) hfuel
  exact ⟨err, t', hloop⟩

/-- A stream at a list whose container is refused refuses the record. -/
theorem decodeRecord_error_of_container {s : Stream} {P rest : List UInt8} (hs : s.kind = none)
    (hP : P.length < 2 ^ 64) (hr : s.r = lengthPrefix 0xC0 P.length ++ P ++ rest)
    (hc : ∃ err, decodeContainer (lengthPrefix 0xC0 P.length ++ P) = .error err) :
    ∃ err s', decodeRecord s = (.error err, s') := by
  rcases hraw : s.raw with ⟨res, s'⟩
  rcases res with e | out
  · exact ⟨.rlp e, s', by simp only [decodeRecord, hraw]⟩
  -- `Raw` read the whole list
  obtain ⟨hout, hread⟩ := raw_sound hs hraw
  have heq : out = lengthPrefix 0xC0 P.length ++ P :=
    IsRaw.append_inj hout (IsRaw.sized (k := .list) (by decide) hP) (hread.input.symm.trans hr)
  subst heq
  obtain ⟨err, herr⟩ := hc
  by_cases hbig : (lengthPrefix 0xC0 P.length ++ P).length > sizeLimit
  · exact ⟨.tooBig, s', by simp only [decodeRecord, hraw, if_pos hbig]⟩
  · exact ⟨err, s', by simp only [decodeRecord, hraw, if_neg hbig, herr, Except.map]⟩

/-- The record as a sorted map and its codec: a run of `Set` calls keeps the pairs strictly sorted, and
`Load` then returns the last value set under a key; `Set` of a key leaves the pairs of every other
key as they were; every record that `Set` builds reads back from its encoding; and a list of raw
values whose key and value elements are odd in number, or whose keys are out of order, is refused. -/
theorem enr_record_map_codec :
    (∀ (r : Record) (ops : List (List UInt8 × Value)), Sorted r.pairs → (∀ o ∈ ops, o.2.fits) →
      Sorted (r.setAll ops).pairs ∧
        ∀ key, (r.setAll ops).load key = match lastSet ops key with
          | some v => .ok v
          | none => r.load key) ∧
    (∀ (r : Record) (ops : List (List UInt8 × Value)), r.Valid → (∀ o ∈ ops, o.2.fits) → (r.setAll ops).Valid) ∧
    (∀ (r : Record) (key : List UInt8) (e : Value), Sorted r.pairs →
      (r.set key e).pairs.filter (fun p => p.k ≠ key) = r.pairs.filter (fun p => p.k ≠ key)) ∧
    (∀ (r : Record) (sig raw : List UInt8), r.Valid → r.encode sig = .ok raw →
      ∃ s', decodeRecord (Stream.reset raw 0) = (.ok (⟨r.seq, some sig, none, r.pairs⟩, raw), s')) ∧
    (∀ (s : Stream) (sig seq : List UInt8) (kvs : List (List UInt8)) (rest : List UInt8),
      IsRaw sig → IsRaw seq → (∀ e ∈ kvs, IsRaw e) → kvs.length % 2 = 1 →
      (sig ++ seq ++ kvs.flatten).length < 2 ^ 64 → s.kind = none →
      s.r = lengthPrefix 0xC0 (sig ++ seq ++ kvs.flatten).length ++ (sig ++ seq ++ kvs.flatten) ++ rest →
      ∃ err s', decodeRecord s = (.error err, s')) ∧
    (∀ (s : Stream) (sig seq : List UInt8) (ps : List Pair) (rest : List UInt8),
      IsRaw sig → IsRaw seq → (∀ p ∈ ps, IsRaw p.v) → ¬ Sorted ps →
      (sig ++ seq ++ encodePairs ps).length < 2 ^ 64 → s.kind = none →
      s.r = lengthPrefix 0xC0 (sig ++ seq ++ encodePairs ps).length ++ (sig ++ seq ++ encodePairs ps) ++ rest →
      ∃ err s', decodeRecord s = (.error err, s')) := by
  refine ⟨?_, ?_, ?_, ?_, ?_, ?_⟩
  · intro r ops hs hfits
    exact ⟨(Record.lookup_setAll hs ops).1, Record.load_setAll hs ops hfits⟩
  · intro r ops hv hfits
    exact Record.valid_setAll hv hfits
  · intro r key e hs
    exact Record.filter_set hs
  · intro r sig raw hv h
    exact decodeRecord_encode hv h
  · intro s sig seq kvs rest hsig hseq hkvs hodd hlen hs hr
    exact decodeRecord_error_of_container hs hlen hr (decodeContainer_odd hsig hseq hkvs hodd hlen)
  · intro s sig seq ps rest hsig hseq hv hunsorted hlen hs hr
    exact decodeRecord_error_of_container hs hlen hr (decodeContainer_not_sorted hsig hseq hv hunsorted hlen)

/-- Two `Set` calls of one key on the empty record: `Load` returns the second value. -/
theorem enr_record_map_codec_set_twice :
    (Record.empty.setAll [([1], .bytes [2]), ([1], .bytes [3])]).load [1] = .ok (.bytes [3]) := by
  rw [(enr_record_map_codec.1 Record.empty _ List.Pairwise.nil (by decide)).2 [1]]
  rfl

end Go420coin.Enr
