import Go420coin.Lib.BitArray
import Mathlib.Data.List.Basic

/-!
# Sparse bitset compression (`common/bitutil/compress.go`)

`bitsetEncodeBytes` writes a byte string as the bitset of its non-zero bytes (bit `i` is bit
`7 - i % 8` of byte `i / 8`), itself encoded the same way, followed by the non-zero bytes; a string
of zeros encodes to nothing and a single byte to itself.  `bitsetDecodePartialBytes` reads the
bitset back from the front of its input, recursively, and puts the bytes that follow at the set
positions; it refuses missing bytes, zero bytes, and set bits past the target.

Both directions recurse on the length, through the bitset, which is shorter from two bytes on.
Decoding an encoding gives the bytes back (`bitsetDecodeBytes_encode`), and an input that decodes
is the encoding of what it decodes to (`encode_of_bitsetDecodeBytes`): the encoding is canonical.
No index the decoder reads or writes is out of range (`decompressBytes_ne_panic`).
-/

namespace Go420coin.Bitutil

/-- The errors of decompression, and `panic` for a run-time panic of Go (an index out of range, or
`make` with a negative length), which no input reaches. -/
inductive Error where
  | missingData
  | unreferencedData
  | exceededTarget
  | zeroContent
  | panic
  deriving DecidableEq, Repr

/-- `1 << byte(7-i%8)`: the bit of position `i` in its byte. -/
def mask (i : Nat) : UInt8 := (1 : UInt8) <<< (7 - i % 8).toUInt8

/-- Bit `i` of a bitset: bit `7 - i % 8` of byte `i / 8`, unset past the end. -/
def bitAt (bitset : List UInt8) (i : Nat) : Bool := (bitset.getD (i / 8) 0).toNat.testBit (7 - i % 8)

/-- A round of the loop of `bitsetEncodeBytes`, at the byte `e.1` of index `e.2`: a non-zero byte
is kept and its bit set. -/
def encodeStep (acc : List UInt8 × List UInt8) (e : UInt8 × Nat) : List UInt8 × List UInt8 :=
  if e.1 ≠ 0 then (acc.1.modify (e.2 / 8) (· ||| mask e.2), acc.2 ++ [e.1]) else acc

/-- The loop of `bitsetEncodeBytes`: the bitset of the non-zero bytes, and the non-zero bytes in
order. -/
def encodeLoop (data : List UInt8) : List UInt8 × List UInt8 :=
  data.zipIdx.foldl encodeStep (List.replicate ((data.length + 7) / 8) 0, [])

theorem length_foldl_encodeStep_fst :
    ∀ (l : List UInt8) (k : Nat) (acc : List UInt8 × List UInt8),
      ((l.zipIdx k).foldl encodeStep acc).1.length = acc.1.length
  | [], _, _ => rfl
  | b :: l, k, acc => by
    rw [List.zipIdx_cons, List.foldl_cons, length_foldl_encodeStep_fst l (k + 1), encodeStep]
    split_ifs <;> simp

theorem length_encodeLoop_fst (data : List UInt8) : (encodeLoop data).1.length = (data.length + 7) / 8 := by
  rw [encodeLoop, length_foldl_encodeStep_fst, List.length_replicate]

/-- `bitsetEncodeBytes`. -/
def bitsetEncodeBytes (data : List UInt8) : List UInt8 :=
  match data with
  | [] => []
  | [b] => if b = 0 then [] else [b]
  | a :: b :: rest =>
    let r := encodeLoop (a :: b :: rest)
    if r.2.length = 0 then [] else bitsetEncodeBytes r.1 ++ r.2
termination_by data.length
decreasing_by
  rw [length_encodeLoop_fst]
  simp only [List.length_cons]
  omega

/-- `CompressBytes`: the encoding if it is shorter, the bytes themselves otherwise. -/
def compressBytes (data : List UInt8) : List UInt8 :=
  let out := bitsetEncodeBytes data
  if out.length < data.length then out else data

/-- The loop of `bitsetDecodePartialBytes` over the bits of the bitset, from bit `i` for `n` more
bits: each set bit takes the next byte of `data` at `ptr` into `decomp`. -/
def decodeLoop (data bitset : List UInt8) : Nat → Nat → Nat → List UInt8 → Except Error (List UInt8 × Nat)
  | 0, _, ptr, decomp => .ok (decomp, ptr)
  | n + 1, i, ptr, decomp =>
    match bitset[i / 8]? with
    | none => .error .panic
    | some bits =>
      if bits &&& mask i ≠ 0 then
        if h : ptr < data.length then
          if i < decomp.length then
            if data[ptr] = 0 then .error .zeroContent
            else decodeLoop data bitset n (i + 1) (ptr + 1) (decomp.set i data[ptr])
          else .error .exceededTarget
        else .error .missingData
      else decodeLoop data bitset n (i + 1) ptr decomp

/-- `bitsetDecodePartialBytes`: the bytes decoded from the front of `data`, and how many bytes of
`data` they took. -/
def bitsetDecodePartialBytes (data : List UInt8) (target : Nat) : Except Error (List UInt8 × Nat) :=
  if target = 0 then .ok ([], 0)
  else
    let decomp := List.replicate target 0
    match data with
    | [] => .ok (decomp, 0)
    | d0 :: _ =>
      if target = 1 then
        if d0 ≠ 0 then .ok (decomp.set 0 d0, 1) else .ok (decomp.set 0 d0, 0)
      else
        match bitsetDecodePartialBytes data ((target + 7) / 8) with
        | .error e => .error e
        | .ok (nonZeroBitset, ptr) => decodeLoop data nonZeroBitset (8 * nonZeroBitset.length) 0 ptr decomp
termination_by target
decreasing_by omega

/-- `bitsetDecodeBytes`: every byte of `data` must be used.  A negative target panics at `make`. -/
def bitsetDecodeBytes (data : List UInt8) (target : Int) : Except Error (List UInt8) :=
  if target < 0 then .error .panic
  else
    match bitsetDecodePartialBytes data target.toNat with
    | .error e => .error e
    | .ok (out, size) => if size ≠ data.length then .error .unreferencedData else .ok out

/-- `DecompressBytes`: input as long as the target was not compressed. -/
def decompressBytes (data : List UInt8) (target : Int) : Except Error (List UInt8) :=
  if (data.length : Int) > target then .error .exceededTarget
  else if (data.length : Int) = target then .ok data
  else bitsetDecodeBytes data target

/-! ### Bits of a bitset -/

theorem toNat_mask (i : Nat) : (mask i).toNat = 2 ^ (7 - i % 8) := by
  have key : ∀ a : Fin 8, ((1 : UInt8) <<< (7 - a.val).toUInt8).toNat = 2 ^ (7 - a.val) := by decide
  exact key ⟨i % 8, Nat.mod_lt _ (by decide)⟩

theorem testBit_mask (i j : Nat) : (mask i).toNat.testBit (7 - j % 8) = decide (i % 8 = j % 8) := by
  have hi := Nat.mod_lt i (show 0 < 8 by decide)
  have hj := Nat.mod_lt j (show 0 < 8 by decide)
  rw [toNat_mask, Nat.testBit_two_pow]
  simp only [decide_eq_decide]
  omega

/-- The test of the decoder reads bit `7 - i % 8` of the byte. -/
theorem and_mask_ne_zero_iff (b : UInt8) (i : Nat) : b &&& mask i ≠ 0 ↔ b.toNat.testBit (7 - i % 8) = true := by
  have hand : (b &&& mask i).toNat = (b.toNat.testBit (7 - i % 8)).toNat * 2 ^ (7 - i % 8) := by
    rw [UInt8.toNat_and, toNat_mask, Nat.and_two_pow]
  constructor
  · intro hne
    cases ht : b.toNat.testBit (7 - i % 8)
    · rw [ht, Bool.toNat_false, Nat.zero_mul] at hand
      exact absurd (UInt8.toNat_inj.1 (hand.trans UInt8.toNat_zero.symm)) hne
    · rfl
  · intro ht h0
    rw [ht, Bool.toNat_true, Nat.one_mul, h0, UInt8.toNat_zero] at hand
    exact absurd hand.symm (Nat.pow_pos (by decide)).ne'

@[simp] theorem bitAt_replicate_zero (n j : Nat) : bitAt (List.replicate n 0) j = false := by
  unfold bitAt
  rw [List.getD_eq_getElem?_getD, List.getElem?_replicate]
  split <;> simp

/-- Or-ing the mask of `i` into its byte sets bit `i` and leaves the others. -/
theorem bitAt_modify (bs : List UInt8) {i : Nat} (hi : i / 8 < bs.length) (j : Nat) :
    bitAt (bs.modify (i / 8) (· ||| mask i)) j = (bitAt bs j || decide (i = j)) := by
  unfold bitAt
  rw [List.getD_eq_getElem?_getD, List.getD_eq_getElem?_getD]
  by_cases hij : i / 8 = j / 8
  · rw [← hij, List.getElem?_modify_eq, List.getElem?_eq_getElem hi, Option.map_eq_map, Option.map_some,
      Option.getD_some, Option.getD_some, UInt8.toNat_or, Nat.testBit_or, testBit_mask]
    congr 1
    simp only [decide_eq_decide]
    omega
  · rw [List.getElem?_modify_ne _ _ hij]
    have hne : i ≠ j := fun h => hij (h ▸ rfl)
    simp [hne]

/-- Two bitsets of one length with the same bits are equal. -/
theorem eq_of_bitAt {a b : List UInt8} (hlen : a.length = b.length) (hbits : ∀ j, bitAt a j = bitAt b j) : a = b := by
  apply List.ext_getElem hlen
  intro k hka hkb
  apply UInt8.toNat_inj.1
  apply Nat.eq_of_testBit_eq
  intro m
  by_cases hm : m < 8
  · -- bit `m` of byte `k` is bit `8 * k + (7 - m)` of the bitset
    have h := hbits (8 * k + (7 - m))
    have hdiv : (8 * k + (7 - m)) / 8 = k := by omega
    have hmod : 7 - (8 * k + (7 - m)) % 8 = m := by omega
    rw [bitAt, bitAt, hdiv, hmod, List.getD_eq_getElem _ _ hka, List.getD_eq_getElem _ _ hkb] at h
    exact h
  · have ha : a[k].toNat < 2 ^ m := lt_of_lt_of_le a[k].toNat_lt (Nat.pow_le_pow_right (by decide) (by omega))
    have hb : b[k].toNat < 2 ^ m := lt_of_lt_of_le b[k].toNat_lt (Nat.pow_le_pow_right (by decide) (by omega))
    rw [Nat.testBit_eq_false_of_lt ha, Nat.testBit_eq_false_of_lt hb]

/-- A bitset with no bit set is all zero bytes. -/
theorem eq_zero_of_bitAt {a : List UInt8} (h : ∀ j, bitAt a j = false) : ∀ x ∈ a, x = 0 := by
  have heq : a = List.replicate a.length 0 :=
    eq_of_bitAt (List.length_replicate ..).symm fun j => by rw [h j, bitAt_replicate_zero]
  intro x hx
  rw [heq] at hx
  exact List.eq_of_mem_replicate hx

/-- A set bit lies in a non-zero byte. -/
theorem exists_ne_zero_of_bitAt {a : List UInt8} {j : Nat} (h : bitAt a j = true) : ∃ x ∈ a, x ≠ 0 := by
  unfold bitAt at h
  rw [List.getD_eq_getElem?_getD] at h
  cases hget : a[j / 8]? with
  | none => rw [hget, Option.getD_none, UInt8.toNat_zero, Nat.zero_testBit] at h; cases h
  | some x =>
    refine ⟨x, List.mem_of_getElem? hget, fun hx => ?_⟩
    rw [hget, Option.getD_some, hx, UInt8.toNat_zero, Nat.zero_testBit] at h
    cases h

/-! ### The encoder -/

/-- The loop keeps the non-zero bytes in order. -/
theorem snd_foldl_encodeStep : ∀ (l : List UInt8) (k : Nat) (acc : List UInt8 × List UInt8),
    ((l.zipIdx k).foldl encodeStep acc).2 = acc.2 ++ l.filter (· ≠ 0)
  | [], _, acc => by simp
  | b :: l, k, acc => by
    rw [List.zipIdx_cons, List.foldl_cons, snd_foldl_encodeStep l (k + 1), encodeStep]
    by_cases hb : b = 0
    · simp [hb]
    · simp [hb]

/-- The loop sets the bits of the non-zero bytes it passes, as long as the bitset is long enough. -/
theorem bitAt_foldl_encodeStep : ∀ (l : List UInt8) (k : Nat) (acc : List UInt8 × List UInt8),
    k + l.length ≤ 8 * acc.1.length → ∀ j,
      bitAt ((l.zipIdx k).foldl encodeStep acc).1 j = (bitAt acc.1 j || (decide (k ≤ j) && (l.getD (j - k) 0 != 0)))
  | [], _, acc, _, j => by simp
  | b :: l, k, acc, hlen, j => by
    have hk : k / 8 < acc.1.length := by simp at hlen; omega
    rw [List.zipIdx_cons, List.foldl_cons]
    have hstep : bitAt (encodeStep acc (b, k)).1 j = (bitAt acc.1 j || (decide (k = j) && b != 0)) := by
      rw [encodeStep]
      by_cases hb : b = 0
      · simp [hb]
      · have hb' : (b != 0) = true := bne_iff_ne.2 hb
        simp only [ne_eq, hb, not_false_eq_true, if_true, bitAt_modify _ hk, hb', Bool.and_true]
    have hlen' : k + 1 + l.length ≤ 8 * (encodeStep acc (b, k)).1.length := by
      have : (encodeStep acc (b, k)).1.length = acc.1.length := by
        rw [encodeStep]; split_ifs <;> simp
      rw [this]; simp at hlen; omega
    rw [bitAt_foldl_encodeStep l (k + 1) _ hlen' j, hstep]
    -- bit `j` is the new byte's if `j = k`, one of the rest's if `k < j`
    rcases Nat.lt_trichotomy j k with hjk | rfl | hjk
    · simp [show ¬ k = j by omega, show ¬ k ≤ j by omega, show ¬ k + 1 ≤ j by omega]
    · simp
    · have hsub : j - k = (j - (k + 1)) + 1 := by omega
      simp [show ¬ k = j by omega, show k ≤ j by omega, show k + 1 ≤ j by omega, hsub]

theorem bitAt_encodeLoop (data : List UInt8) (j : Nat) : bitAt (encodeLoop data).1 j = (data.getD j 0 != 0) := by
  rw [encodeLoop, bitAt_foldl_encodeStep _ _ _ (by simp; omega)]
  simp

theorem encodeLoop_snd (data : List UInt8) : (encodeLoop data).2 = data.filter (· ≠ 0) := by
  rw [encodeLoop, snd_foldl_encodeStep]
  simp

theorem bitsetEncodeBytes_nil : bitsetEncodeBytes [] = [] := by
  rw [bitsetEncodeBytes]

theorem bitsetEncodeBytes_single (b : UInt8) : bitsetEncodeBytes [b] = if b = 0 then [] else [b] := by
  rw [bitsetEncodeBytes]

theorem bitsetEncodeBytes_cons_cons (a b : UInt8) (rest : List UInt8) :
    bitsetEncodeBytes (a :: b :: rest) =
      if (encodeLoop (a :: b :: rest)).2.length = 0 then []
      else bitsetEncodeBytes (encodeLoop (a :: b :: rest)).1 ++ (encodeLoop (a :: b :: rest)).2 := by
  rw [bitsetEncodeBytes]

/-- Zeros encode to nothing. -/
theorem bitsetEncodeBytes_of_zero {d : List UInt8} (h : ∀ x ∈ d, x = 0) : bitsetEncodeBytes d = [] := by
  match d with
  | [] => exact bitsetEncodeBytes_nil
  | [b] => rw [bitsetEncodeBytes_single, if_pos (h b (by simp))]
  | a :: b :: rest =>
    have hf : (a :: b :: rest).filter (· ≠ 0) = [] := List.filter_eq_nil_iff.2 fun x hx => by simp [h x hx]
    rw [bitsetEncodeBytes_cons_cons, encodeLoop_snd, hf, List.length_nil, if_pos rfl]

/-- From two bytes on, a string with a non-zero byte encodes as the encoding of its bitset, then its
non-zero bytes. -/
theorem bitsetEncodeBytes_of_ne_zero {d : List UInt8} (h2 : 2 ≤ d.length) (hx : ∃ x ∈ d, x ≠ 0) :
    bitsetEncodeBytes d = bitsetEncodeBytes (encodeLoop d).1 ++ d.filter (· ≠ 0) := by
  obtain ⟨x, hxd, hx0⟩ := hx
  match d, h2 with
  | a :: b :: rest, _ =>
    have hf : ((a :: b :: rest).filter (· ≠ 0)).length ≠ 0 := by
      rw [Ne, List.length_eq_zero_iff, List.filter_eq_nil_iff]
      intro hall
      exact hall x hxd (by simpa using hx0)
    rw [bitsetEncodeBytes_cons_cons, encodeLoop_snd, if_neg hf]

/-! ### The decoder's loop -/

section DecodeLoop

variable {data bitset : List UInt8}

theorem bitAt_of_getElem? {bits : UInt8} {i : Nat} (hb : bitset[i / 8]? = some bits) :
    bitAt bitset i = bits.toNat.testBit (7 - i % 8) := by
  rw [bitAt, List.getD_eq_getElem?_getD, hb, Option.getD_some]

/-- A round of the loop at a set bit takes the next byte. -/
theorem decodeLoop_succ_set {n i ptr : Nat} {decomp : List UInt8} (hi8 : i / 8 < bitset.length)
    (hbit : bitAt bitset i = true) (hp : ptr < data.length) (hi : i < decomp.length) (hz : data[ptr] ≠ 0) :
    decodeLoop data bitset (n + 1) i ptr decomp = decodeLoop data bitset n (i + 1) (ptr + 1) (decomp.set i data[ptr]) := by
  have hb := List.getElem?_eq_getElem hi8
  rw [bitAt_of_getElem? hb] at hbit
  simp only [decodeLoop, hb, (and_mask_ne_zero_iff _ _).2 hbit, ne_eq, not_false_eq_true, if_true, dif_pos hp,
    if_pos hi, if_neg hz]

/-- A round of the loop at an unset bit moves on. -/
theorem decodeLoop_succ_unset {n i ptr : Nat} {decomp : List UInt8} (hi8 : i / 8 < bitset.length)
    (hbit : bitAt bitset i = false) :
    decodeLoop data bitset (n + 1) i ptr decomp = decodeLoop data bitset n (i + 1) ptr decomp := by
  have hb := List.getElem?_eq_getElem hi8
  rw [bitAt_of_getElem? hb] at hbit
  have hnot : ¬ (bitset[i / 8] &&& mask i ≠ 0) := fun h => by
    rw [(and_mask_ne_zero_iff _ _).1 h] at hbit
    cases hbit
  simp only [decodeLoop, hb, hnot, if_false]

/-- What a round of the loop that ends well did. -/
theorem decodeLoop_succ_ok {n i ptr : Nat} {decomp : List UInt8} {r : List UInt8 × Nat}
    (h : decodeLoop data bitset (n + 1) i ptr decomp = .ok r) :
    i / 8 < bitset.length ∧
      ((bitAt bitset i = true ∧ ∃ hp : ptr < data.length, i < decomp.length ∧ data[ptr] ≠ 0 ∧
          decodeLoop data bitset n (i + 1) (ptr + 1) (decomp.set i data[ptr]) = .ok r) ∨
        (bitAt bitset i = false ∧ decodeLoop data bitset n (i + 1) ptr decomp = .ok r)) := by
  cases hb : bitset[i / 8]? with
  | none => simp [decodeLoop, hb] at h
  | some bits =>
    have hi8 : i / 8 < bitset.length := (List.getElem?_eq_some_iff.1 hb).1
    refine ⟨hi8, ?_⟩
    rw [bitAt_of_getElem? hb]
    simp only [decodeLoop, hb] at h
    split_ifs at h with hset hp hi hz
    · exact .inl ⟨(and_mask_ne_zero_iff _ _).1 hset, hp, hi, hz, h⟩
    · exact .inr ⟨by simpa [and_mask_ne_zero_iff] using hset, h⟩

/-- The loop reads the bitset only below its end, so it never panics. -/
theorem decodeLoop_ne_panic : ∀ (n i ptr : Nat) (decomp : List UInt8), i + n ≤ 8 * bitset.length →
    decodeLoop data bitset n i ptr decomp ≠ .error .panic
  | 0, _, _, _, _ => by simp [decodeLoop]
  | n + 1, i, ptr, decomp, hn => by
    have hi8 : i / 8 < bitset.length := by omega
    have hb := List.getElem?_eq_getElem hi8
    have ih := fun ptr' decomp' => decodeLoop_ne_panic n (i + 1) ptr' decomp' (by omega)
    simp only [decodeLoop, hb]
    split_ifs
    all_goals first
      | exact ih _ _
      | simp

/-- Positions before `i` filled from `d`, the rest zero: the buffer the loop fills. -/
theorem set_take_append_replicate {d : List UInt8} {i : Nat} (hi : i < d.length) :
    (d.take i ++ List.replicate (d.length - i) 0).set i d[i] = d.take (i + 1) ++ List.replicate (d.length - (i + 1)) 0 := by
  have hlen : (d.take i).length = i := by simp; omega
  rw [List.set_append_right _ _ (by omega), hlen, Nat.sub_self,
    show d.length - i = d.length - (i + 1) + 1 by omega, List.replicate_succ, List.set_cons_zero,
    List.take_add_one, List.getElem?_eq_getElem hi, Option.toList_some, List.append_assoc, List.singleton_append]

theorem take_append_replicate_of_zero {d : List UInt8} {i : Nat} (h : d.getD i 0 = 0) :
    d.take i ++ List.replicate (d.length - i) 0 = d.take (i + 1) ++ List.replicate (d.length - (i + 1)) 0 := by
  by_cases hi : i < d.length
  · rw [List.getD_eq_getElem _ _ hi] at h
    rw [List.take_add_one, List.getElem?_eq_getElem hi, Option.toList_some, h, List.append_assoc,
      show d.length - i = d.length - (i + 1) + 1 by omega, List.replicate_succ, List.singleton_append]
  · rw [List.take_of_length_le (by omega), List.take_of_length_le (by omega),
      show d.length - i = 0 by omega, show d.length - (i + 1) = 0 by omega]

/-- The non-zero bytes of the next `n + 1` positions from `i`, when position `i` holds a zero. -/
theorem filter_take_drop_of_zero {d : List UInt8} {i : Nat} (h : d.getD i 0 = 0) (n : Nat) :
    ((d.drop i).take (n + 1)).filter (· ≠ 0) = ((d.drop (i + 1)).take n).filter (· ≠ 0) := by
  by_cases hi : i < d.length
  · rw [List.getD_eq_getElem _ _ hi] at h
    rw [List.drop_eq_getElem_cons hi, List.take_succ_cons, List.filter_cons, h]
    simp
  · rw [List.drop_of_length_le (by omega), List.drop_of_length_le (by omega), List.take_nil, List.take_nil]

/-- The non-zero bytes of the next `n + 1` positions from `i`, when position `i` holds one. -/
theorem filter_take_drop_of_ne_zero {d : List UInt8} {i : Nat} (hi : i < d.length) (h : d[i] ≠ 0) (n : Nat) :
    ((d.drop i).take (n + 1)).filter (· ≠ 0) = d[i] :: ((d.drop (i + 1)).take n).filter (· ≠ 0) := by
  rw [List.drop_eq_getElem_cons hi, List.take_succ_cons, List.filter_cons, if_pos (by simpa using h)]

/-- Given the bitset of `d` and its non-zero bytes at `ptr`, the loop rebuilds `d` position by
position; the induction is on the bits left, with the buffer filled up to `i` as the invariant. -/
theorem decodeLoop_of_bits {d R : List UInt8} (hbits : ∀ j, bitAt bitset j = (d.getD j 0 != 0)) :
    ∀ (n i ptr : Nat), i + n ≤ 8 * bitset.length → data.drop ptr = ((d.drop i).take n).filter (· ≠ 0) ++ R →
      decodeLoop data bitset n i ptr (d.take i ++ List.replicate (d.length - i) 0) =
        .ok (d.take (i + n) ++ List.replicate (d.length - (i + n)) 0,
          ptr + (((d.drop i).take n).filter (· ≠ 0)).length) := by
  intro n
  induction n with
  | zero => intro i ptr _ _; simp [decodeLoop]
  | succ n ih =>
    intro i ptr hn hdata
    have hi8 : i / 8 < bitset.length := by omega
    by_cases hdi : d.getD i 0 = 0
    · -- a zero byte: its bit is unset and the loop moves on
      rw [decodeLoop_succ_unset hi8 (by rw [hbits, hdi]; rfl), take_append_replicate_of_zero hdi,
        filter_take_drop_of_zero hdi] at *
      rw [ih (i + 1) ptr (by omega) hdata, show i + 1 + n = i + (n + 1) by omega]
    · -- a non-zero byte: its bit is set and the next byte of `data` is it
      have hi : i < d.length := by
        by_contra hge
        exact hdi (List.getD_eq_default _ _ (by omega))
      rw [List.getD_eq_getElem _ _ hi] at hdi
      rw [filter_take_drop_of_ne_zero hi hdi, List.cons_append] at hdata
      have hp : ptr < data.length := by
        have := congrArg List.length hdata
        simp only [List.length_drop, List.length_cons] at this
        omega
      have hdp : data[ptr] = d[i] := by
        have := congrArg (·[0]?) hdata
        simp only [List.getElem?_drop, Nat.add_zero, List.getElem?_cons_zero, List.getElem?_eq_getElem hp] at this
        exact Option.some.inj this
      have hlen : i < (d.take i ++ List.replicate (d.length - i) 0).length := by simp; omega
      rw [decodeLoop_succ_set hi8 (by rw [hbits, List.getD_eq_getElem _ _ hi]; simpa using hdi) hp hlen
        (by rw [hdp]; exact hdi), hdp, set_take_append_replicate hi,
        ih (i + 1) (ptr + 1) (by omega) (by rw [← List.drop_drop, hdata, List.drop_one, List.tail_cons]),
        filter_take_drop_of_ne_zero hi hdi, List.length_cons, show i + 1 + n = i + (n + 1) by omega,
        show ptr + 1 + (((d.drop (i + 1)).take n).filter (· ≠ 0)).length =
          ptr + ((((d.drop (i + 1)).take n).filter (· ≠ 0)).length + 1) by omega]

/-- What a loop that ends well leaves: the positions before `i` as they were, the bits it passed
set exactly at the non-zero bytes it wrote, and those bytes the ones it read from `ptr` on.  The
induction is on the bits left; the buffer is zero from `i` on. -/
theorem decodeLoop_ok : ∀ (n i ptr : Nat) (decomp o : List UInt8) (p : Nat),
    decodeLoop data bitset n i ptr decomp = .ok (o, p) → ptr ≤ data.length →
    (∀ j, i ≤ j → decomp.getD j 0 = 0) →
    o.length = decomp.length ∧ o.take i = decomp.take i ∧ ptr ≤ p ∧ p ≤ data.length ∧
      (∀ j, i ≤ j → j < i + n → bitAt bitset j = (o.getD j 0 != 0)) ∧
      ((o.drop i).take n).filter (· ≠ 0) = (data.drop ptr).take (p - ptr)
  | 0, i, ptr, decomp, o, p, h, hptr, _ => by
    simp only [decodeLoop, Except.ok.injEq, Prod.mk.injEq] at h
    obtain ⟨rfl, rfl⟩ := h
    refine ⟨rfl, rfl, le_rfl, hptr, fun j hj hj' => absurd hj' (by omega), by simp⟩
  | n + 1, i, ptr, decomp, o, p, h, hptr, hzero => by
    obtain ⟨hi8, ⟨hbit, hp, hi, hz, hrest⟩ | ⟨hbit, hrest⟩⟩ := decodeLoop_succ_ok h
    · -- a set bit: byte `ptr` of `data` went to position `i`
      have hzero' : ∀ j, i + 1 ≤ j → (decomp.set i data[ptr]).getD j 0 = 0 := fun j hj => by
        rw [List.getD_eq_getElem?_getD, List.getElem?_set_ne (by omega), ← List.getD_eq_getElem?_getD]
        exact hzero j (by omega)
      obtain ⟨hlen, htake, hle, hpl, hbits, hfilter⟩ := decodeLoop_ok n (i + 1) (ptr + 1) _ o p hrest hp hzero'
      rw [List.length_set] at hlen
      have hoi : o[i]? = some data[ptr] := by
        have := congrArg (·[i]?) htake
        simpa [List.getElem?_take, hi] using this
      have hio : i < o.length := by omega
      have hoi' : o[i] = data[ptr] := Option.some.inj ((List.getElem?_eq_getElem hio).symm.trans hoi)
      refine ⟨hlen, ?_, by omega, hpl, fun j hj hj' => ?_, ?_⟩
      · have := congrArg (List.take i) htake
        rwa [List.take_take, List.take_take, Nat.min_eq_left (by omega), List.take_set_of_le (by omega)] at this
      · rcases Nat.eq_or_lt_of_le hj with rfl | hj
        · rw [hbit, List.getD_eq_getElem _ _ hio, hoi']
          simpa using hz
        · exact hbits j hj (by omega)
      · rw [filter_take_drop_of_ne_zero hio (by rw [hoi']; exact hz), hfilter, hoi',
          show p - ptr = p - (ptr + 1) + 1 by omega, List.drop_eq_getElem_cons hp, List.take_succ_cons]
    · -- an unset bit: position `i` keeps its zero
      obtain ⟨hlen, htake, hle, hpl, hbits, hfilter⟩ :=
        decodeLoop_ok n (i + 1) ptr decomp o p hrest hptr fun j hj => hzero j (by omega)
      have hoi : o.getD i 0 = 0 := by
        have := congrArg (·.getD i 0) htake
        simp only [List.getD_eq_getElem?_getD, List.getElem?_take, show i < i + 1 by omega, if_true] at this
        rw [List.getD_eq_getElem?_getD, this, ← List.getD_eq_getElem?_getD]
        exact hzero i le_rfl
      refine ⟨hlen, ?_, hle, hpl, fun j hj hj' => ?_, ?_⟩
      · have := congrArg (List.take i) htake
        rwa [List.take_take, List.take_take, Nat.min_eq_left (by omega)] at this
      · rcases Nat.eq_or_lt_of_le hj with rfl | hj
        · rw [hbit, hoi]
          rfl
        · exact hbits j hj (by omega)
      · rw [filter_take_drop_of_zero hoi, hfilter]

end DecodeLoop

/-! ### The decoder -/

theorem bitsetDecodePartialBytes_zero (data : List UInt8) : bitsetDecodePartialBytes data 0 = .ok ([], 0) := by
  rw [bitsetDecodePartialBytes, if_pos rfl]

theorem bitsetDecodePartialBytes_nil {target : Nat} (h : target ≠ 0) :
    bitsetDecodePartialBytes [] target = .ok (List.replicate target 0, 0) := by
  rw [bitsetDecodePartialBytes, if_neg h]

theorem bitsetDecodePartialBytes_one (d0 : UInt8) (rest : List UInt8) :
    bitsetDecodePartialBytes (d0 :: rest) 1 = .ok ([d0], if d0 ≠ 0 then 1 else 0) := by
  rw [bitsetDecodePartialBytes]
  by_cases h : d0 ≠ 0 <;> simp [h]

/-- From two bytes on, the bitset is decoded first, then its bits are walked. -/
theorem bitsetDecodePartialBytes_of_two_le {d0 : UInt8} {rest : List UInt8} {target : Nat} (h : 2 ≤ target) :
    bitsetDecodePartialBytes (d0 :: rest) target =
      match bitsetDecodePartialBytes (d0 :: rest) ((target + 7) / 8) with
      | .error e => .error e
      | .ok (nonZeroBitset, ptr) =>
        decodeLoop (d0 :: rest) nonZeroBitset (8 * nonZeroBitset.length) 0 ptr (List.replicate target 0) := by
  rw [bitsetDecodePartialBytes, if_neg (by omega)]
  simp only [show target ≠ 1 by omega, if_false]

/-- The decoder reads back what the encoder wrote, whatever follows it, as long as something
non-zero was encoded or nothing follows; the induction is on the length, through the bitset. -/
theorem bitsetDecodePartialBytes_encode (d rest : List UInt8) (h : (∃ x ∈ d, x ≠ 0) ∨ rest = []) :
    bitsetDecodePartialBytes (bitsetEncodeBytes d ++ rest) d.length = .ok (d, (bitsetEncodeBytes d).length) := by
  induction hlen : d.length using Nat.strong_induction_on generalizing d rest with
  | _ t ih =>
  match d, h, hlen with
  | [], _, hlen =>
    subst hlen
    rw [bitsetEncodeBytes_nil, List.nil_append, List.length_nil, bitsetDecodePartialBytes_zero]
  | [b], h, hlen =>
    subst hlen
    rw [List.length_singleton]
    by_cases hb : b = 0
    · -- a zero byte encodes to nothing, and nothing follows it
      have hrest : rest = [] := h.resolve_left fun ⟨x, hx, hx0⟩ => hx0 (by simp at hx; rw [hx, hb])
      subst hb hrest
      rw [bitsetEncodeBytes_single, if_pos rfl, List.nil_append, bitsetDecodePartialBytes_nil (by decide)]
      rfl
    · rw [bitsetEncodeBytes_single, if_neg hb, List.singleton_append, bitsetDecodePartialBytes_one, if_pos hb]
      rfl
  | a :: b :: r, h, hlen =>
    subst hlen
    set d := a :: b :: r with hd
    have h2 : 2 ≤ d.length := by simp [hd]
    by_cases hz : ∃ x ∈ d, x ≠ 0
    · -- the bitset has a set bit, so its own encoding reads back with the bytes after it
      obtain ⟨x, hxd, hx0⟩ := hz
      obtain ⟨k, hk, rfl⟩ := List.getElem_of_mem hxd
      have hB : ∃ y ∈ (encodeLoop d).1, y ≠ 0 :=
        exists_ne_zero_of_bitAt (j := k) (by rw [bitAt_encodeLoop, List.getD_eq_getElem _ _ hk]; simpa using hx0)
      have hBlen := length_encodeLoop_fst d
      have hF : d.filter (· ≠ 0) ≠ [] := fun hnil =>
        (List.filter_eq_nil_iff.1 hnil) d[k] (List.getElem_mem hk) (by simpa using hx0)
      rw [bitsetEncodeBytes_of_ne_zero h2 ⟨_, List.getElem_mem hk, hx0⟩, List.append_assoc]
      obtain ⟨d0, tail, hsplit⟩ := List.exists_cons_of_ne_nil
        (show bitsetEncodeBytes (encodeLoop d).1 ++ (d.filter (· ≠ 0) ++ rest) ≠ [] from
          fun he => hF (List.append_eq_nil_iff.1 (List.append_eq_nil_iff.1 he).2).1)
      have hinner := ih _ (by omega) (encodeLoop d).1 (d.filter (· ≠ 0) ++ rest) (.inl hB) hBlen
      rw [hsplit] at hinner ⊢
      rw [bitsetDecodePartialBytes_of_two_le h2, hinner]
      dsimp only
      have hdata : (d0 :: tail).drop (bitsetEncodeBytes (encodeLoop d).1).length =
          ((d.drop 0).take (8 * (encodeLoop d).1.length)).filter (· ≠ 0) ++ rest := by
        rw [← hsplit, List.drop_left, List.drop_zero, List.take_of_length_le (l := d) (by omega)]
      have hloop := decodeLoop_of_bits (bitAt_encodeLoop d) (8 * (encodeLoop d).1.length) 0
        (bitsetEncodeBytes (encodeLoop d).1).length (by omega) hdata
      rw [List.take_zero, List.nil_append, Nat.sub_zero, Nat.zero_add, List.take_of_length_le (l := d) (by omega),
        show d.length - 8 * (encodeLoop d).1.length = 0 by omega, List.replicate_zero, List.append_nil,
        List.drop_zero, List.take_of_length_le (l := d) (by omega)] at hloop
      rw [hloop, List.length_append]
    · -- only zeros: nothing is encoded and nothing follows
      have hall : ∀ x ∈ d, x = 0 := fun x hx => by
        by_contra hne
        exact hz ⟨x, hx, hne⟩
      have hrest : rest = [] := h.resolve_left hz
      subst hrest
      rw [bitsetEncodeBytes_of_zero hall, List.append_nil, bitsetDecodePartialBytes_nil (by omega), List.length_nil]
      congr 2
      exact (List.eq_replicate_iff.2 ⟨rfl, hall⟩).symm

theorem bitAt_of_le {bs : List UInt8} {j : Nat} (h : 8 * bs.length ≤ j) : bitAt bs j = false := by
  rw [bitAt, List.getD_eq_default _ _ (by omega), UInt8.toNat_zero, Nat.zero_testBit]

/-- An input the decoder reads is the encoding of what it reads back: the encoding is canonical.
The induction is on the target, through the bitset. -/
theorem encode_of_bitsetDecodePartialBytes (t : Nat) : ∀ (c o : List UInt8) (p : Nat),
    bitsetDecodePartialBytes c t = .ok (o, p) → p ≤ c.length ∧ bitsetEncodeBytes o = c.take p ∧ o.length = t := by
  induction t using Nat.strong_induction_on with
  | _ t ih =>
  intro c o p h
  by_cases ht0 : t = 0
  · subst ht0
    rw [bitsetDecodePartialBytes_zero] at h
    cases h
    exact ⟨Nat.zero_le _, bitsetEncodeBytes_nil, rfl⟩
  match c, h with
  | [], h =>
    rw [bitsetDecodePartialBytes_nil ht0] at h
    cases h
    exact ⟨le_rfl, bitsetEncodeBytes_of_zero fun x hx => List.eq_of_mem_replicate hx, List.length_replicate ..⟩
  | d0 :: rest, h =>
    by_cases ht1 : t = 1
    · -- one byte: it is taken if it is not zero
      subst ht1
      rw [bitsetDecodePartialBytes_one] at h
      cases h
      refine ⟨by split_ifs <;> simp, ?_, rfl⟩
      rw [bitsetEncodeBytes_single]
      by_cases hd : d0 = 0 <;> simp [hd]
    · -- the bitset first, then the bytes at its set bits
      rw [bitsetDecodePartialBytes_of_two_le (by omega)] at h
      cases hB : bitsetDecodePartialBytes (d0 :: rest) ((t + 7) / 8) with
      | error e => rw [hB] at h; cases h
      | ok r =>
      obtain ⟨B, p0⟩ := r
      rw [hB] at h
      dsimp only at h
      obtain ⟨hp0, hEB, hBlen⟩ := ih _ (by omega) _ _ _ hB
      obtain ⟨hlen, -, hle, hpl, hbits, hfilter⟩ := decodeLoop_ok _ 0 p0 _ o p h hp0
        fun j _ => by rw [List.getD_eq_getElem?_getD, List.getElem?_replicate]; split <;> rfl
      rw [List.length_replicate] at hlen
      rw [List.drop_zero, List.take_of_length_le (by omega)] at hfilter
      -- the bitset of what was read is the bitset that was read
      have hbitset : (encodeLoop o).1 = B := by
        refine eq_of_bitAt (by rw [length_encodeLoop_fst, hlen, hBlen]) fun j => ?_
        rw [bitAt_encodeLoop]
        by_cases hj : j < 8 * B.length
        · exact (hbits j (Nat.zero_le j) (by omega)).symm
        · rw [bitAt_of_le (by omega), List.getD_eq_default _ _ (by omega)]
          rfl
      refine ⟨hpl, ?_, hlen⟩
      by_cases hz : ∃ x ∈ o, x ≠ 0
      · rw [bitsetEncodeBytes_of_ne_zero (by omega) hz, hbitset, hEB, hfilter, ← List.take_add,
          Nat.add_sub_cancel' hle]
      · -- nothing non-zero was read, so nothing was taken
        have hall : ∀ x ∈ o, x = 0 := fun x hx => by
          by_contra hne
          exact hz ⟨x, hx, hne⟩
        have hBzero : ∀ x ∈ B, x = 0 := eq_zero_of_bitAt fun j => by
          rw [← hbitset, bitAt_encodeLoop]
          by_cases hj : j < o.length
          · rw [List.getD_eq_getElem _ _ hj, hall _ (List.getElem_mem hj)]
            rfl
          · rw [List.getD_eq_default _ _ (by omega)]
            rfl
        have hp0z : p0 = 0 := by
          rw [bitsetEncodeBytes_of_zero hBzero] at hEB
          rcases List.take_eq_nil_iff.1 hEB.symm with h0 | h0
          · exact h0
          · cases h0
        have hpp : p = p0 := by
          rw [List.filter_eq_nil_iff.2 fun x hx => by simp [hall x hx]] at hfilter
          rcases List.take_eq_nil_iff.1 hfilter.symm with h0 | h0
          · omega
          · rw [List.drop_eq_nil_iff] at h0
            omega
        rw [bitsetEncodeBytes_of_zero hall, hpp, hp0z, List.take_zero]

/-- The decoder never panics. -/
theorem bitsetDecodePartialBytes_ne_panic (t : Nat) : ∀ c : List UInt8, bitsetDecodePartialBytes c t ≠ .error .panic := by
  induction t using Nat.strong_induction_on with
  | _ t ih =>
  intro c
  by_cases ht0 : t = 0
  · subst ht0
    rw [bitsetDecodePartialBytes_zero]
    simp
  match c with
  | [] =>
    rw [bitsetDecodePartialBytes_nil ht0]
    simp
  | d0 :: rest =>
    by_cases ht1 : t = 1
    · subst ht1
      rw [bitsetDecodePartialBytes_one]
      simp
    · rw [bitsetDecodePartialBytes_of_two_le (by omega)]
      have hinner := ih ((t + 7) / 8) (by omega) (d0 :: rest)
      cases hB : bitsetDecodePartialBytes (d0 :: rest) ((t + 7) / 8) with
      | error e =>
        rw [hB] at hinner
        exact hinner
      | ok r => exact decodeLoop_ne_panic _ 0 _ _ (by omega)

/-! ### Compression -/

theorem bitsetDecodeBytes_encode (d : List UInt8) : bitsetDecodeBytes (bitsetEncodeBytes d) d.length = .ok d := by
  have h := bitsetDecodePartialBytes_encode d [] (.inr rfl)
  rw [List.append_nil] at h
  rw [bitsetDecodeBytes, if_neg (by omega), Int.toNat_natCast, h]
  simp

theorem encode_of_bitsetDecodeBytes {c o : List UInt8} {t : Int} (h : bitsetDecodeBytes c t = .ok o) :
    bitsetEncodeBytes o = c := by
  unfold bitsetDecodeBytes at h
  split_ifs at h with hneg
  cases hp : bitsetDecodePartialBytes c t.toNat with
  | error e => rw [hp] at h; cases h
  | ok r =>
    obtain ⟨out, size⟩ := r
    rw [hp] at h
    dsimp only at h
    split_ifs at h with hsize
    cases h
    obtain ⟨-, hE, -⟩ := encode_of_bitsetDecodePartialBytes _ _ _ _ hp
    rw [hE, Decidable.not_not.1 hsize, List.take_length]

theorem decompressBytes_compressBytes (d : List UInt8) : decompressBytes (compressBytes d) d.length = .ok d := by
  unfold compressBytes
  dsimp only
  split_ifs with hshort
  · rw [decompressBytes, if_neg (by omega), if_neg (by omega), bitsetDecodeBytes_encode]
  · rw [decompressBytes, if_neg (by omega), if_pos rfl]

theorem decompressBytes_ne_panic (c : List UInt8) (t : Int) : decompressBytes c t ≠ .error .panic := by
  unfold decompressBytes
  split_ifs with hgt heq
  · simp
  · simp
  · -- the target is above the input's length, so `make` gets a length it takes
    rw [bitsetDecodeBytes, if_neg (by omega)]
    have := bitsetDecodePartialBytes_ne_panic t.toNat c
    cases hp : bitsetDecodePartialBytes c t.toNat with
    | error e => rw [hp] at this; simpa using this
    | ok r =>
      dsimp only
      split_ifs <;> simp

/-- Decompressing a compression, and decoding an encoding, give the bytes back; an input that
decodes is the encoding of what it decodes to; and decompression never panics. -/
theorem bitset_compression_round_trip :
    (∀ d : List UInt8, decompressBytes (compressBytes d) d.length = .ok d) ∧
    (∀ d : List UInt8, bitsetDecodeBytes (bitsetEncodeBytes d) d.length = .ok d) ∧
    (∀ (c o : List UInt8) (t : Int), bitsetDecodeBytes c t = .ok o → bitsetEncodeBytes o = c) ∧
    ∀ (c : List UInt8) (t : Int), decompressBytes c t ≠ .error .panic :=
  ⟨decompressBytes_compressBytes, bitsetDecodeBytes_encode, fun _ _ _ h => encode_of_bitsetDecodeBytes h,
    decompressBytes_ne_panic⟩

/-- `[0x40, 5]` decodes to `[0, 5]`: the bitset byte `0x40` marks position 1. -/
theorem bitset_compression_round_trip_two :
    bitsetDecodeBytes [0x40, 5] 2 = .ok [0, 5] ∧ bitsetEncodeBytes [0, 5] = [0x40, 5] := by
  have h : bitsetDecodeBytes [0x40, 5] 2 = .ok [0, 5] := by
    rw [bitsetDecodeBytes, if_neg (by decide), show (2 : Int).toNat = 2 from rfl,
      bitsetDecodePartialBytes_of_two_le (Nat.le_refl 2), show (2 + 7) / 8 = 1 from rfl, bitsetDecodePartialBytes_one,
      if_pos (by decide)]
    rfl
  exact ⟨h, bitset_compression_round_trip.2.2.1 _ _ _ h⟩

end Go420coin.Bitutil
