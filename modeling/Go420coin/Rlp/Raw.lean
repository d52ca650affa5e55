import Go420coin.Lib.KeyOrder
import Go420coin.Rlp.StreamSpec

/-!
# Raw RLP values (`rlp/raw.go`)

`Split` reads the header of the first value of a byte string (`readKind`, with `readSize` for a long
form) and cuts the string after the value.  A header is accepted exactly when it is the canonical
length prefix of a size the rest of the input holds, and a one-byte string is refused where the byte
would stand for itself (`readKind_sized`, `readKind_byte`).

`AppendUint64` appends the RLP encoding of an unsigned 64-bit integer: `0x80` for zero, the byte
itself below 128, and from 128 on the tag `0x80` plus the length of the integer's shortest big-endian
bytes, then those bytes (`appendUint64_of_le`).  Read as keys, these encodings sort as `DeriveSha`
needs: the single bytes `1 .. 127`, then `0x80`, then the longer encodings by length and, within a
length, by value (`parts_appendUint64`).
-/

namespace Go420coin.Rlp

open BigEndian

/-- `readSize`: a size of `slen` bytes, big-endian (the unrolled cases of the source), at least 56 and
without a leading zero byte. -/
def readSize (b : List UInt8) (slen : Nat) : Except Error Nat :=
  if slen > b.length then .error .unexpectedEOF
  else
    let s := if 1 ≤ slen ∧ slen ≤ 8 then ofBytes (b.take slen) else 0
    if s < 56 ∨ b.headD 0 = 0 then .error .canonSize else .ok s

/-- `readKind`: the kind of the value at the start of `buf`, the size of its header and the size of its
contents. -/
def readKind (buf : List UInt8) : Except Error (Kind × Nat × Nat) :=
  match buf with
  | [] => .error .unexpectedEOF
  | b :: rest =>
    let header : Except Error (Kind × Nat × Nat) :=
      if b < 0x80 then .ok (.byte, 0, 1)
      else if b < 0xB8 then
        -- strings that should have been single bytes
        if (b - 0x80).toNat = 1 ∧ buf.length > 1 ∧ rest.headD 0 < 128 then .error .canonSize
        else .ok (.string, 1, (b - 0x80).toNat)
      else if b < 0xC0 then
        (readSize rest (b - 0xB7).toNat).map fun size => (.string, (b - 0xB7).toNat + 1, size)
      else if b < 0xF8 then .ok (.list, 1, (b - 0xC0).toNat)
      else (readSize rest (b - 0xF7).toNat).map fun size => (.list, (b - 0xF7).toNat + 1, size)
    match header with
    | .error e => .error e
    | .ok (k, tagsize, contentsize) =>
      -- values larger than the input
      if contentsize > buf.length - tagsize then .error .valueTooLarge else .ok (k, tagsize, contentsize)

/-! ### Headers -/

theorem readSize_ok {b : List UInt8} {slen s : Nat} :
    readSize b slen = .ok s ↔
      56 ≤ s ∧ s < 2 ^ 64 ∧ (toBytes s).length = slen ∧ ∃ rest, b = toBytes s ++ rest := by
  unfold readSize
  by_cases hlen : slen > b.length
  · rw [if_pos hlen]
    refine ⟨fun h => (nomatch h), ?_⟩
    rintro ⟨-, -, hl, rest, rfl⟩
    simp only [List.length_append] at hlen
    omega
  rw [if_neg hlen]
  -- the bytes of the size, and the size they denote
  by_cases hw : 1 ≤ slen ∧ slen ≤ 8
  · have hhead : (b.take slen).head? = some (b.headD 0) := by
      cases b with
      | nil => simp at hlen; omega
      | cons x b => cases slen with
        | zero => omega
        | succ k => simp
    dsimp only
    rw [if_pos hw]
    by_cases hbad : ofBytes (b.take slen) < 56 ∨ b.headD 0 = 0
    · rw [if_pos hbad]
      refine ⟨fun h => (nomatch h), ?_⟩
      rintro ⟨h56, -, hl, rest, rfl⟩
      have htake : (toBytes s ++ rest).take slen = toBytes s := by rw [← hl, List.take_left]
      rw [htake, ofBytes_toBytes] at hbad
      have hne := head_toBytes_ne_zero (show s ≠ 0 by omega)
      rcases hbad with hbad | hbad
      · omega
      · cases h' : toBytes s with
        | nil => simp [h'] at hl; omega
        | cons c cs => simp_all
    · rw [if_neg hbad]
      simp only [not_or] at hbad
      constructor
      · rintro ⟨⟩
        have hne : (b.take slen).head? ≠ some 0 := by rw [hhead]; simpa using hbad.2
        have htb := toBytes_ofBytes hne
        have hlt : ofBytes (b.take slen) < 2 ^ 64 := by
          calc ofBytes (b.take slen) < 256 ^ (b.take slen).length := ofBytes_lt _
            _ ≤ 256 ^ 8 := Nat.pow_le_pow_right (by norm_num) (by simp; omega)
            _ = 2 ^ 64 := by norm_num
        refine ⟨by omega, hlt, by rw [htb]; simp; omega, b.drop slen, by rw [htb, List.take_append_drop]⟩
      · rintro ⟨-, -, hl, rest, rfl⟩
        rw [← hl, List.take_left, ofBytes_toBytes]
  · dsimp only
    rw [if_neg hw, if_pos (Or.inl (by norm_num))]
    refine ⟨fun h => (nomatch h), ?_⟩
    rintro ⟨h56, hlt, hl, -⟩
    have h1 : 1 ≤ (toBytes s).length := by
      have := (@length_toBytes_le s 0).not.2 (by omega)
      omega
    have h8 : (toBytes s).length ≤ 8 := length_toBytes_le.2 (by simpa using hlt)
    omega


theorem readKind_cons_byte {x : UInt8} (hx : x < 0x80) (rest : List UInt8) :
    readKind (x :: rest) = .ok (.byte, 0, 1) := by
  simp [readKind, hx]

/-- A tag byte that is a whole string or list header: a one-byte string whose byte would stand for
itself is refused, and the contents must be in the input. -/
theorem readKind_cons_short {x : UInt8} {k : Kind} (hk : k ≠ .byte) (h1 : (Stream.tagOf k).toNat ≤ x.toNat)
    (h2 : x.toNat < (Stream.tagOf k).toNat + 56) (rest : List UInt8) :
    readKind (x :: rest) =
      if k = .string ∧ (x - Stream.tagOf k).toNat = 1 ∧ rest ≠ [] ∧ rest.headD 0 < 128 then .error .canonSize
      else if (x - Stream.tagOf k).toNat > rest.length then .error .valueTooLarge
      else .ok (k, 1, (x - Stream.tagOf k).toNat) := by
  cases k with
  | byte => exact absurd rfl hk
  | string =>
    simp only [Stream.tagOf, UInt8.reduceToNat] at h1 h2
    have hx1 : ¬ x < 0x80 := by simp [UInt8.lt_iff_toNat_lt]; omega
    have hx2 : x < 0xB8 := by simp [UInt8.lt_iff_toNat_lt]; omega
    simp only [readKind, hx1, hx2, if_false, if_true, List.length_cons, Stream.tagOf, true_and]
    by_cases hc : (x - 0x80).toNat = 1 ∧ rest ≠ [] ∧ rest.headD 0 < 128
    · rw [if_pos ⟨hc.1, by simp [List.length_pos_iff, hc.2.1], hc.2.2⟩, if_pos hc]
    · rw [if_neg (fun h => hc ⟨h.1, fun h' => by simp [h'] at h, h.2.2⟩), if_neg hc]
      simp only [Nat.add_sub_cancel]
      rfl
  | list =>
    simp only [Stream.tagOf, UInt8.reduceToNat] at h1 h2
    have hx1 : ¬ x < 0x80 := by simp [UInt8.lt_iff_toNat_lt]; omega
    have hx2 : ¬ x < 0xB8 := by simp [UInt8.lt_iff_toNat_lt]; omega
    have hx3 : ¬ x < 0xC0 := by simp [UInt8.lt_iff_toNat_lt]; omega
    have hx4 : x < 0xF8 := by simp [UInt8.lt_iff_toNat_lt]; omega
    simp only [readKind, hx1, hx2, hx3, hx4, if_false, if_true, List.length_cons, Stream.tagOf, reduceCtorEq,
      false_and, Nat.add_sub_cancel]
    rfl

/-- A tag byte of a long string or list header: the size follows in as many bytes as the tag says. -/
theorem readKind_cons_long {x : UInt8} {k : Kind} (hk : k ≠ .byte) (h1 : (Stream.tagOf k).toNat + 56 ≤ x.toNat)
    (h2 : x.toNat < (Stream.tagOf k).toNat + 64) (rest : List UInt8) :
    readKind (x :: rest) =
      match readSize rest (x - (Stream.tagOf k + 55)).toNat with
      | .error e => .error e
      | .ok size =>
        if size > rest.length - (x - (Stream.tagOf k + 55)).toNat then .error .valueTooLarge
        else .ok (k, (x - (Stream.tagOf k + 55)).toNat + 1, size) := by
  cases k with
  | byte => exact absurd rfl hk
  | string =>
    simp only [Stream.tagOf, UInt8.reduceToNat] at h1 h2
    have hx1 : ¬ x < 0x80 := by simp [UInt8.lt_iff_toNat_lt]; omega
    have hx2 : ¬ x < 0xB8 := by simp [UInt8.lt_iff_toNat_lt]; omega
    have hx3 : x < 0xC0 := by simp [UInt8.lt_iff_toNat_lt]; omega
    simp only [readKind, hx1, hx2, hx3, if_false, if_true, List.length_cons, Stream.tagOf, UInt8.reduceAdd]
    cases readSize rest (x - 0xB7).toNat <;> simp [Except.map, Nat.add_sub_add_right]
  | list =>
    simp only [Stream.tagOf, UInt8.reduceToNat] at h1 h2
    have hx1 : ¬ x < 0x80 := by simp [UInt8.lt_iff_toNat_lt]; omega
    have hx2 : ¬ x < 0xB8 := by simp [UInt8.lt_iff_toNat_lt]; omega
    have hx3 : ¬ x < 0xC0 := by simp [UInt8.lt_iff_toNat_lt]; omega
    have hx4 : ¬ x < 0xF8 := by simp [UInt8.lt_iff_toNat_lt]; omega
    simp only [readKind, hx1, hx2, hx3, hx4, if_false, List.length_cons, Stream.tagOf, UInt8.reduceAdd]
    cases readSize rest (x - 0xF7).toNat <;> simp [Except.map, Nat.add_sub_add_right]

/-- A tag byte from `0x80` on starts a string or a list header. -/
theorem exists_tag {x : UInt8} (hx : ¬ x < 0x80) :
    ∃ k, k ≠ .byte ∧ (Stream.tagOf k).toNat ≤ x.toNat ∧ x.toNat < (Stream.tagOf k).toNat + 64 := by
  have := x.toNat_lt
  simp only [UInt8.lt_iff_toNat_lt, UInt8.reduceToNat, Nat.not_lt] at hx
  by_cases hs : x.toNat < 0xC0
  · exact ⟨.string, by decide, by simp [Stream.tagOf]; omega, by simp [Stream.tagOf]; omega⟩
  · exact ⟨.list, by decide, by simp [Stream.tagOf]; omega, by simp [Stream.tagOf]; omega⟩

/-- What `readKind` reads after a tag byte of a string or list header: a header of that kind. -/
private theorem readKind_of_tag {x : UInt8} {rest : List UInt8} {k k' : Kind} {ts cs : Nat} (hk : k ≠ .byte)
    (h1 : (Stream.tagOf k).toNat ≤ x.toNat) (h2 : x.toNat < (Stream.tagOf k).toNat + 64)
    (h : readKind (x :: rest) = .ok (k', ts, cs)) :
    k' = k ∧ cs < 2 ^ 64 ∧ ts = (lengthPrefix (Stream.tagOf k) cs).length ∧
      ∃ rest', x :: rest = lengthPrefix (Stream.tagOf k) cs ++ rest' ∧ cs ≤ rest'.length ∧
        ¬ (k = .string ∧ cs = 1 ∧ rest'.headD 0 < 128) := by
  have htag : (Stream.tagOf k).toNat + 64 ≤ 256 := by cases k <;> decide
  by_cases hshort : x.toNat < (Stream.tagOf k).toNat + 56
  · -- the tag byte is the whole header
    rw [readKind_cons_short hk h1 hshort] at h
    split_ifs at h with hc hlen
    cases h
    have hp := lengthPrefix_of_short_tag (by omega) h1 hshort
    have hb := (x - Stream.tagOf k).toNat_lt
    refine ⟨rfl, by omega, by rw [hp]; rfl, rest, by rw [hp]; rfl, by omega, fun ⟨hks, h1', hh⟩ => hc ⟨hks, h1', ?_, hh⟩⟩
    rintro rfl
    simp at hlen
    omega
  · -- a long header: the size follows the tag
    rw [readKind_cons_long hk (by omega) h2] at h
    have h55 : (Stream.tagOf k + 55).toNat = (Stream.tagOf k).toNat + 55 := by
      simp only [UInt8.toNat_add, UInt8.reduceToNat]; omega
    have hn : (x - (Stream.tagOf k + 55)).toNat = x.toNat - ((Stream.tagOf k).toNat + 55) := by
      rw [UInt8.toNat_sub_of_le _ _ (by simp only [UInt8.le_iff_toNat_le, h55]; omega), h55]
    split at h
    · cases h
    · rename_i size hsize
      split_ifs at h with hlen
      cases h
      obtain ⟨h56, hlt, hl, rest', rfl⟩ := readSize_ok.1 hsize
      have hp := lengthPrefix_of_long_tag (by omega) h2 htag h56 (by rw [hl, hn])
      refine ⟨rfl, hlt, by rw [hp, List.length_cons, hl], rest', by rw [hp]; rfl, ?_, fun h => by omega⟩
      simp only [List.length_append, hl] at hlen
      omega

/-- A string or list header is read exactly when the input starts with the canonical length prefix of a
size that the rest of the input holds, and a one-byte string does not hold a byte below `0x80`. -/
theorem readKind_sized {buf : List UInt8} {k : Kind} {ts cs : Nat} (hk : k ≠ .byte) :
    readKind buf = .ok (k, ts, cs) ↔
      cs < 2 ^ 64 ∧ ts = (lengthPrefix (Stream.tagOf k) cs).length ∧
        ∃ rest, buf = lengthPrefix (Stream.tagOf k) cs ++ rest ∧ cs ≤ rest.length ∧
          ¬ (k = .string ∧ cs = 1 ∧ rest.headD 0 < 128) := by
  constructor
  · intro h
    cases buf with
    | nil => simp [readKind] at h
    | cons x rest =>
      by_cases hx : x < 0x80
      · rw [readKind_cons_byte hx] at h
        cases h
        exact absurd rfl hk
      · obtain ⟨k', hk', h1, h2⟩ := exists_tag hx
        obtain ⟨rfl, hrest⟩ := readKind_of_tag hk' h1 h2 h
        exact hrest
  · rintro ⟨hcs, rfl, rest, rfl, hlen, hcanon⟩
    have htag : (Stream.tagOf k).toNat + 64 ≤ 256 := by cases k <;> decide
    have htag' : 128 ≤ (Stream.tagOf k).toNat := by cases k <;> first | exact absurd rfl hk | decide
    rcases lengthPrefix_cases (Stream.tagOf k) hcs with ⟨h56, hp⟩ | ⟨h56, hk1, hk8, hp⟩
    · -- a short header: its tag byte
      have hv : (Stream.tagOf k + cs.toUInt8).toNat = (Stream.tagOf k).toNat + cs := by simp [Nat.toUInt8]; omega
      have hsub : (Stream.tagOf k + cs.toUInt8 - Stream.tagOf k).toNat = cs := by
        rw [UInt8.toNat_sub_of_le _ _ (by simp only [UInt8.le_iff_toNat_le, hv]; omega), hv]
        omega
      rw [hp, List.singleton_append, readKind_cons_short hk (by omega) (by omega), hsub,
        if_neg (fun hc => hcanon ⟨hc.1, hc.2.1, hc.2.2.2⟩), if_neg (by omega), List.length_singleton]
    · -- a long header: the tag byte, then the size
      have hv : (Stream.tagOf k + 55 + (toBytes cs).length.toUInt8).toNat = (Stream.tagOf k).toNat + 55 + (toBytes cs).length := by
        simp [Nat.toUInt8]; omega
      have h55 : (Stream.tagOf k + 55).toNat = (Stream.tagOf k).toNat + 55 := by
        simp only [UInt8.toNat_add, UInt8.reduceToNat]; omega
      have hn : (Stream.tagOf k + 55 + (toBytes cs).length.toUInt8 - (Stream.tagOf k + 55)).toNat = (toBytes cs).length := by
        rw [UInt8.toNat_sub_of_le _ _ (by simp only [UInt8.le_iff_toNat_le, hv, h55]; omega), hv, h55]
        omega
      have hsize : readSize (toBytes cs ++ rest) (toBytes cs).length = .ok cs :=
        readSize_ok.2 ⟨h56, hcs, rfl, rest, rfl⟩
      rw [hp, List.cons_append, readKind_cons_long hk (by omega) (by omega), hn, hsize]
      simp only [List.length_append, Nat.add_sub_cancel_left, List.length_cons]
      rw [if_neg (by omega), Nat.add_comm]

/-- A byte below `0x80` is a value of its own. -/
theorem readKind_byte {buf : List UInt8} {ts cs : Nat} :
    readKind buf = .ok (.byte, ts, cs) ↔ ts = 0 ∧ cs = 1 ∧ ∃ x rest, buf = x :: rest ∧ x < 0x80 := by
  constructor
  · intro h
    cases buf with
    | nil => simp [readKind] at h
    | cons x rest =>
      by_cases hx : x < 0x80
      · rw [readKind_cons_byte hx] at h
        cases h
        exact ⟨rfl, rfl, x, rest, rfl, hx⟩
      · obtain ⟨k', hk', h1, h2⟩ := exists_tag hx
        obtain ⟨rfl, -⟩ := readKind_of_tag hk' h1 h2 h
        exact absurd rfl hk'
  · rintro ⟨rfl, rfl, x, rest, rfl, hx⟩
    exact readKind_cons_byte hx rest

/-! ### `AppendUint64` -/

/-- `AppendUint64`: `b` followed by the RLP encoding of `i`. -/
def appendUint64 (b : List UInt8) (i : UInt64) : List UInt8 :=
  if i = 0 then b ++ [0x80]
  else if i < 128 then b ++ [i.toUInt8]
  else if i < (1 : UInt64) <<< 8 then b ++ [(0x81 : UInt8), i.toUInt8]
  else if i < (1 : UInt64) <<< 16 then b ++ [(0x82 : UInt8), (i >>> 8).toUInt8, i.toUInt8]
  else if i < (1 : UInt64) <<< 24 then b ++ [(0x83 : UInt8), (i >>> 16).toUInt8, (i >>> 8).toUInt8, i.toUInt8]
  else if i < (1 : UInt64) <<< 32 then
    b ++ [(0x84 : UInt8), (i >>> 24).toUInt8, (i >>> 16).toUInt8, (i >>> 8).toUInt8, i.toUInt8]
  else if i < (1 : UInt64) <<< 40 then
    b ++ [(0x85 : UInt8), (i >>> 32).toUInt8, (i >>> 24).toUInt8, (i >>> 16).toUInt8, (i >>> 8).toUInt8, i.toUInt8]
  else if i < (1 : UInt64) <<< 48 then
    b ++ [(0x86 : UInt8), (i >>> 40).toUInt8, (i >>> 32).toUInt8, (i >>> 24).toUInt8, (i >>> 16).toUInt8,
      (i >>> 8).toUInt8, i.toUInt8]
  else if i < (1 : UInt64) <<< 56 then
    b ++ [(0x87 : UInt8), (i >>> 48).toUInt8, (i >>> 40).toUInt8, (i >>> 32).toUInt8, (i >>> 24).toUInt8,
      (i >>> 16).toUInt8, (i >>> 8).toUInt8, i.toUInt8]
  else
    b ++ [(0x88 : UInt8), (i >>> 56).toUInt8, (i >>> 48).toUInt8, (i >>> 40).toUInt8, (i >>> 32).toUInt8,
      (i >>> 24).toUInt8, (i >>> 16).toUInt8, (i >>> 8).toUInt8, i.toUInt8]

theorem appendUint64_zero (b : List UInt8) : appendUint64 b 0 = b ++ [0x80] := rfl

theorem appendUint64_of_lt {i : UInt64} (h0 : i ≠ 0) (h : i.toNat < 128) (b : List UInt8) :
    appendUint64 b i = b ++ [i.toUInt8] := by
  rw [appendUint64, if_neg h0, if_pos (UInt64.lt_iff_toNat_lt.2 h)]

/-- `AppendUint64` from 128 on: the tag `0x80` plus the number of bytes of `i`, then the shortest
big-endian bytes of `i`. -/
theorem appendUint64_of_le {i : UInt64} (h : 128 ≤ i.toNat) (b : List UInt8) :
    appendUint64 b i = b ++ (0x80 + (toBytes i.toNat).length.toUInt8) :: toBytes i.toNat := by
  have h0 : i ≠ 0 := fun h' => by subst h'; simp at h
  have h1 : ¬ i < 128 := fun h' => by rw [UInt64.lt_iff_toNat_lt] at h'; simp at h'; omega
  have hi := i.toNat_lt
  rw [appendUint64, if_neg h0, if_neg h1]
  simp only [UInt64.lt_iff_toNat_lt, UInt64.toUInt8, UInt64.toNat_shiftRight, UInt64.toNat_shiftLeft,
    UInt64.reduceToNat, Nat.reduceMod, Nat.reduceShiftLeft, Nat.reducePow]
  -- each branch writes a tag and the low bytes of `i` up to the first power of `256` above it
  split_ifs with c1 c2 c3 c4 c5 c6 c7
  · rw [← lowBytes_eq_toBytes (k := 0) (by omega) (by omega)]
    rfl
  · rw [← lowBytes_eq_toBytes (k := 1) (by omega) (by omega)]
    rfl
  · rw [← lowBytes_eq_toBytes (k := 2) (by omega) (by omega)]
    rfl
  · rw [← lowBytes_eq_toBytes (k := 3) (by omega) (by omega)]
    rfl
  · rw [← lowBytes_eq_toBytes (k := 4) (by omega) (by omega)]
    rfl
  · rw [← lowBytes_eq_toBytes (k := 5) (by omega) (by omega)]
    rfl
  · rw [← lowBytes_eq_toBytes (k := 6) (by omega) (by omega)]
    rfl
  · rw [← lowBytes_eq_toBytes (k := 7) (by omega) (by simpa using hi)]
    rfl

theorem length_toBytes_toNat_le (i : UInt64) : (toBytes i.toNat).length ≤ 8 :=
  length_toBytes_le.2 (by simpa using i.toNat_lt)

/-- `AppendUint64` is the encoding of the integer's shortest big-endian bytes as a string. -/
theorem appendUint64_eq_encode (i : UInt64) : appendUint64 [] i = encode (.bytes (toBytes i.toNat)) := by
  by_cases h0 : i = 0
  · subst h0
    rfl
  have hi0 : i.toNat ≠ 0 := fun h => h0 (UInt64.toNat_inj.1 (by simpa using h))
  by_cases h128 : i.toNat < 128
  · rw [appendUint64_of_lt h0 h128, toBytes_of_lt_256 hi0 (by omega)]
    have hlt : i.toNat.toUInt8 < 0x80 := by simp [UInt8.lt_iff_toNat_lt, Nat.toUInt8]; omega
    simp only [encode, List.length_singleton, List.headD_cons, hlt, and_self, if_true, List.nil_append]
    rfl
  · have h56 : (toBytes i.toNat).length < 56 := by have := length_toBytes_toNat_le i; omega
    rw [appendUint64_of_le (by omega), encode, if_neg, lengthPrefix, if_pos h56]
    · simp
    · rintro ⟨h1, hh⟩
      have hlt : i.toNat < 256 := by simpa using (length_toBytes_le (k := 1)).1 (by omega)
      rw [toBytes_of_lt_256 hi0 hlt] at hh
      simp [UInt8.lt_iff_toNat_lt, Nat.toUInt8] at hh
      omega

/-- The tag of an integer from 128 on. -/
theorem toNat_tag (i : UInt64) :
    (0x80 + (toBytes i.toNat).length.toUInt8).toNat = 0x80 + (toBytes i.toNat).length := by
  have hl := length_toBytes_toNat_le i
  simp only [UInt8.toNat_add, UInt8.reduceToNat, Nat.toUInt8_eq, UInt8.toNat_ofNat']
  omega

theorem one_le_length_toBytes {i : UInt64} (h : 128 ≤ i.toNat) : 1 ≤ (toBytes i.toNat).length := by
  rcases hl : toBytes i.toNat with _ | ⟨b, bs⟩
  · rw [toBytes_eq_nil] at hl
    omega
  · simp

/-- The encodings of two integers from 128 on part in the integers' order: by the tag where the
larger has more bytes, else by the bytes. -/
theorem parts_appendUint64 {i j : UInt64} (hi : 128 ≤ i.toNat) (hij : i.toNat < j.toNat) :
    KeyOrder.Parts (appendUint64 [] i) (appendUint64 [] j) := by
  have hj : 128 ≤ j.toNat := by omega
  rw [appendUint64_of_le hi, appendUint64_of_le hj, List.nil_append, List.nil_append]
  have hle : (toBytes i.toNat).length ≤ (toBytes j.toNat).length :=
    length_toBytes_le.2 (lt_trans hij (length_toBytes_le.1 le_rfl))
  rcases hle.lt_or_eq with hlt | heq
  · -- more bytes: a larger tag
    refine KeyOrder.parts_cons_cons.2 (.inl ?_)
    rw [UInt8.lt_iff_toNat_lt, toNat_tag i, toNat_tag j]
    omega
  · -- as many bytes: the bytes decide
    refine KeyOrder.parts_cons_cons.2 (.inr ⟨by rw [heq], parts_of_ofBytes_lt heq ?_⟩)
    rwa [ofBytes_toBytes, ofBytes_toBytes]

/-! ### Splitting -/

/-- `Split`: the kind and the contents of the first value of `b`, and the bytes after it. -/
def split (b : List UInt8) : Except Error (Kind × List UInt8 × List UInt8) :=
  match readKind b with
  | .error e => .error e
  | .ok (k, ts, cs) => .ok (k, (b.drop ts).take cs, b.drop (ts + cs))

/-- `SplitString`: the contents of the string at the start of `b`, and the bytes after it. -/
def splitString (b : List UInt8) : Except Error (List UInt8 × List UInt8) :=
  match split b with
  | .error e => .error e
  | .ok (k, content, rest) => if k = .list then .error .expectedString else .ok (content, rest)

/-- `SplitUint64`: the integer at the start of `b`, and the bytes after it. -/
def splitUint64 (b : List UInt8) : Except Error (UInt64 × List UInt8) :=
  match splitString b with
  | .error e => .error e
  | .ok (content, rest) =>
    if content.length = 0 then .ok (0, rest)
    else if content.length = 1 then
      if content.headD 0 = 0 then .error .canonInt else .ok ((content.headD 0).toUInt64, rest)
    else if content.length > 8 then .error .uintOverflow
    else
      match readSize content content.length with
      | .error _ => .error .canonInt
      | .ok x => .ok (x.toUInt64, rest)

theorem split_eq_ok {b : List UInt8} {k : Kind} {content rest : List UInt8} :
    split b = .ok (k, content, rest) ↔
      ∃ ts cs, readKind b = .ok (k, ts, cs) ∧ content = (b.drop ts).take cs ∧ rest = b.drop (ts + cs) := by
  unfold split
  cases readKind b with
  | error e => simp
  | ok r =>
    obtain ⟨k', ts, cs⟩ := r
    simp only [Except.ok.injEq, Prod.mk.injEq]
    constructor
    · rintro ⟨rfl, rfl, rfl⟩
      exact ⟨ts, cs, ⟨rfl, rfl, rfl⟩, rfl, rfl⟩
    · rintro ⟨ts', cs', ⟨rfl, rfl, rfl⟩, rfl, rfl⟩
      exact ⟨rfl, rfl, rfl⟩

theorem splitString_eq_ok {b content rest : List UInt8} :
    splitString b = .ok (content, rest) ↔ ∃ k, k ≠ .list ∧ split b = .ok (k, content, rest) := by
  unfold splitString
  rcases split b with e | ⟨k, c, r⟩
  · simp
  · by_cases hk : k = .list
    · simp [hk]
    · simp only [hk, if_false, Except.ok.injEq, Prod.mk.injEq]
      constructor
      · rintro ⟨rfl, rfl⟩
        exact ⟨k, hk, rfl, rfl, rfl⟩
      · rintro ⟨k', -, rfl, rfl, rfl⟩
        exact ⟨rfl, rfl⟩

/-- `Split` of an encoded byte below `0x80`: the byte stands for itself. -/
theorem split_encode_byte {x : UInt8} (hx : x < 0x80) (rest : List UInt8) :
    split (encode (.bytes [x]) ++ rest) = .ok (.byte, [x], rest) := by
  have he : encode (.bytes [x]) = [x] := by rw [encode, if_pos ⟨rfl, hx⟩]
  rw [he]
  exact split_eq_ok.2 ⟨0, 1, readKind_cons_byte hx rest, rfl, rfl⟩

/-- `Split` of an encoded string that is not a byte standing for itself: a string, its contents, and
the bytes after it. -/
theorem split_encode_string {b : List UInt8} (hb : b.length < 2 ^ 64) (hs : ¬ (b.length = 1 ∧ b.headD 0 < 0x80))
    (rest : List UInt8) : split (encode (.bytes b) ++ rest) = .ok (.string, b, rest) := by
  have hrk : readKind (lengthPrefix 0x80 b.length ++ (b ++ rest)) =
      .ok (.string, (lengthPrefix 0x80 b.length).length, b.length) := by
    refine (readKind_sized (k := .string) (by decide)).2 ⟨hb, rfl, b ++ rest, rfl, by simp, ?_⟩
    rintro ⟨-, h1, hh⟩
    obtain ⟨x, rfl⟩ := List.length_eq_one_iff.1 h1
    exact hs ⟨rfl, hh⟩
  rw [encode, if_neg hs, List.append_assoc]
  exact split_eq_ok.2 ⟨_, _, hrk, by simp, by simp⟩

/-- `SplitString` of an encoded string gives the string back. -/
theorem splitString_encode {b : List UInt8} (hb : b.length < 2 ^ 64) (rest : List UInt8) :
    splitString (encode (.bytes b) ++ rest) = .ok (b, rest) := by
  by_cases hsingle : b.length = 1 ∧ b.headD 0 < 0x80
  · obtain ⟨x, rfl⟩ := List.length_eq_one_iff.1 hsingle.1
    exact splitString_eq_ok.2 ⟨.byte, by decide, split_encode_byte hsingle.2 rest⟩
  · exact splitString_eq_ok.2 ⟨.string, by decide, split_encode_string hb hsingle rest⟩

/-- What `SplitString` accepts is the encoding of the string it returns, followed by the rest. -/
theorem encode_of_splitString {b content rest : List UInt8} (h : splitString b = .ok (content, rest)) :
    content.length < 2 ^ 64 ∧ b = encode (.bytes content) ++ rest := by
  obtain ⟨k, hkl, hs⟩ := splitString_eq_ok.1 h
  obtain ⟨ts, cs, hrk, rfl, rfl⟩ := split_eq_ok.1 hs
  by_cases hkb : k = .byte
  · subst hkb
    obtain ⟨rfl, rfl, x, r, rfl, hx⟩ := readKind_byte.1 hrk
    refine ⟨by simp, ?_⟩
    simp [encode, hx]
  · obtain ⟨hcs, rfl, r, rfl, hlen, hcanon⟩ := (readKind_sized hkb).1 hrk
    have hks : k = .string := by cases k <;> simp_all
    subst hks
    have hc : (r.take cs).length = cs := by simp; omega
    rw [List.drop_left, List.drop_length_add_append, hc]
    refine ⟨hcs, ?_⟩
    rw [encode, if_neg, hc, List.append_assoc, List.take_append_drop]
    · rfl
    · rintro ⟨h1, hh⟩
      rw [hc] at h1
      subst h1
      exact hcanon ⟨rfl, rfl, by cases r <;> simp_all⟩

/-- `SplitUint64` reads the contents of the string `SplitString` reads as the shortest big-endian bytes
of the integer it returns. -/
theorem splitUint64_eq_ok {b content rest : List UInt8} (h : splitString b = .ok (content, rest)) {x : UInt64}
    {r : List UInt8} : splitUint64 b = .ok (x, r) ↔ r = rest ∧ content = toBytes x.toNat := by
  simp only [splitUint64, h]
  constructor
  · intro hs
    by_cases h0 : content.length = 0
    · rw [if_pos h0] at hs
      obtain ⟨rfl, rfl⟩ := Prod.mk.inj (Except.ok.inj hs)
      exact ⟨rfl, by simp [List.length_eq_zero_iff.1 h0]⟩
    rw [if_neg h0] at hs
    by_cases h1 : content.length = 1
    · -- one byte, not zero
      rw [if_pos h1] at hs
      obtain ⟨c, rfl⟩ := List.length_eq_one_iff.1 h1
      by_cases hz : c = 0
      · simp [hz] at hs
      simp only [List.headD_cons, hz, if_false] at hs
      obtain ⟨rfl, rfl⟩ := Prod.mk.inj (Except.ok.inj hs)
      have hc : c.toNat ≠ 0 := fun h' => hz (UInt8.toNat_inj.1 (by simpa using h'))
      refine ⟨rfl, ?_⟩
      rw [show c.toUInt64.toNat = c.toNat by simp, toBytes_of_lt_256 hc c.toNat_lt]
      simp [Nat.toUInt8]
    rw [if_neg h1] at hs
    by_cases h8 : content.length > 8
    · rw [if_pos h8] at hs
      cases hs
    -- two to eight bytes: a size without a leading zero, from 56 on
    rw [if_neg h8] at hs
    split at hs
    · cases hs
    · rename_i v hv
      obtain ⟨rfl, rfl⟩ := Prod.mk.inj (Except.ok.inj hs)
      obtain ⟨-, hlt, hl, rest', hcv⟩ := readSize_ok.1 hv
      have hrest : rest' = [] := by
        have := congrArg List.length hcv
        simp only [List.length_append, hl] at this
        exact List.length_eq_zero_iff.1 (by omega)
      refine ⟨rfl, ?_⟩
      rw [hcv, hrest, List.append_nil, Nat.toUInt64, UInt64.toNat_ofNat', Nat.mod_eq_of_lt hlt]
  · rintro ⟨rfl, rfl⟩
    have hx := x.toNat_lt
    by_cases hx0 : x.toNat = 0
    · have : x = 0 := UInt64.toNat_inj.1 (by simpa using hx0)
      subst this
      simp
    by_cases hx256 : x.toNat < 256
    · -- one byte, not zero
      rw [toBytes_of_lt_256 hx0 hx256]
      have hz : ¬ x.toNat.toUInt8 = 0 := fun h' => by
        have := congrArg UInt8.toNat h'
        simp [Nat.toUInt8] at this
        omega
      simp only [List.length_singleton, one_ne_zero, if_false, if_true, List.headD_cons, hz]
      congr
      apply UInt64.toNat_inj.1
      simp [Nat.toUInt8]
      omega
    · -- two to eight bytes
      have h2 : 2 ≤ (toBytes x.toNat).length := by
        have := (length_toBytes_le (k := 1)).not.2 (by simpa using hx256)
        omega
      have h8 : (toBytes x.toNat).length ≤ 8 := length_toBytes_toNat_le x
      have hv : readSize (toBytes x.toNat) (toBytes x.toNat).length = .ok x.toNat :=
        readSize_ok.2 ⟨by omega, hx, rfl, [], by simp⟩
      rw [if_neg (by omega), if_neg (by omega), if_neg (by omega), hv]
      simp


/-! ### Lists -/

/-- `SplitList`: the contents of the list at the start of `b`, and the bytes after it. -/
def splitList (b : List UInt8) : Except Error (List UInt8 × List UInt8) :=
  match split b with
  | .error e => .error e
  | .ok (k, content, rest) => if k ≠ .list then .error .expectedList else .ok (content, rest)

/-- The loop of `CountValues`, for at most `fuel` values: each turn skips the value whose header
`readKind` reads at the front. -/
def countValuesLoop : Nat → List UInt8 → Except Error Nat
  | _, [] => .ok 0
  | 0, _ :: _ => .ok 0
  | fuel + 1, x :: rest =>
    match readKind (x :: rest) with
    | .error e => .error e
    | .ok (_, tagsize, size) => (countValuesLoop fuel ((x :: rest).drop (tagsize + size))).map (· + 1)

/-- `CountValues`: the number of values encoded one after another in `b`.  Every value takes a byte at
least, so `b.length` turns are enough (`countValuesLoop_congr`). -/
def countValues (b : List UInt8) : Except Error Nat := countValuesLoop b.length b

/-- A value whose header `readKind` reads takes a byte at least, and no more than the input holds. -/
theorem readKind_ok_length {b : List UInt8} {k : Kind} {ts cs : Nat} (h : readKind b = .ok (k, ts, cs)) :
    0 < ts + cs ∧ ts + cs ≤ b.length := by
  by_cases hk : k = .byte
  · subst hk
    obtain ⟨rfl, rfl, x, rest, rfl, -⟩ := readKind_byte.1 h
    simp
  · obtain ⟨-, rfl, rest, rfl, hlen, -⟩ := (readKind_sized hk).1 h
    have hp := length_lengthPrefix_pos (Stream.tagOf k) cs
    simp only [List.length_append]
    omega

theorem split_rest_lt {b content rest : List UInt8} {k : Kind} (h : split b = .ok (k, content, rest)) :
    rest.length < b.length := by
  obtain ⟨ts, cs, hrk, -, rfl⟩ := split_eq_ok.1 h
  have := readKind_ok_length hrk
  rw [List.length_drop]
  omega

theorem splitString_rest_lt {b content rest : List UInt8} (h : splitString b = .ok (content, rest)) :
    rest.length < b.length := by
  obtain ⟨k, -, hs⟩ := splitString_eq_ok.1 h
  exact split_rest_lt hs

/-- The contents of a list are shorter than the input: the list header takes a byte at least. -/
theorem splitList_content_lt {b content rest : List UInt8} (h : splitList b = .ok (content, rest)) :
    content.length < b.length := by
  unfold splitList at h
  rcases hs : split b with e | ⟨k, c, r⟩
  · rw [hs] at h
    cases h
  · rw [hs] at h
    dsimp only at h
    split_ifs at h with hk
    cases h
    obtain ⟨ts, cs, hrk, rfl, -⟩ := split_eq_ok.1 hs
    obtain ⟨-, rfl, r', rfl, hlen, -⟩ := (readKind_sized (not_not.1 hk ▸ (by decide : Kind.list ≠ .byte))).1 hrk
    have hp := length_lengthPrefix_pos (Stream.tagOf k) cs
    simp only [List.length_take, List.length_drop, List.length_append]
    omega

/-- Once the fuel covers the input, more fuel changes nothing: the loop never runs out. -/
theorem countValuesLoop_congr : ∀ {f g : Nat} {b : List UInt8}, b.length ≤ f → b.length ≤ g →
    countValuesLoop f b = countValuesLoop g b
  | f, g, [], _, _ => by cases f <;> cases g <;> rfl
  | 0, _, _ :: _, hf, _ => absurd hf (by simp)
  | _ + 1, 0, _ :: _, _, hg => absurd hg (by simp)
  | f + 1, g + 1, x :: rest, hf, hg => by
    simp only [countValuesLoop]
    rcases h : readKind (x :: rest) with e | ⟨k, ts, cs⟩
    · rfl
    · have hlen := readKind_ok_length h
      simp only [List.length_cons] at hf hg hlen
      dsimp only
      rw [countValuesLoop_congr (f := f) (g := g) (b := (x :: rest).drop (ts + cs)) (by simp; omega)
        (by simp; omega)]

/-- `Split` of an encoded list: its contents and the bytes after it. -/
theorem split_encode_list {vs : List Value} (hf : (Value.list vs).fits) (rest : List UInt8) :
    split (encode (.list vs) ++ rest) = .ok (.list, encodeList vs, rest) := by
  have hlen : (encodeList vs).length < 2 ^ 64 := by
    simp only [Value.fits, Bool.and_eq_true, decide_eq_true_eq] at hf
    exact hf.1
  have hrk : readKind (encode (.list vs) ++ rest) =
      .ok (.list, (lengthPrefix 0xC0 (encodeList vs).length).length, (encodeList vs).length) :=
    (readKind_sized (k := .list) (by decide)).2
      ⟨hlen, rfl, encodeList vs ++ rest, by simp [encode, Stream.tagOf], by simp, by simp⟩
  refine split_eq_ok.2 ⟨_, _, hrk, ?_, ?_⟩ <;> simp [encode]

/-- `Split` reads every value within the encoder's sizes off the front of its encoding. -/
theorem split_encode {v : Value} (hv : v.fits) (rest : List UInt8) :
    ∃ k content, split (encode v ++ rest) = .ok (k, content, rest) := by
  cases v with
  | bytes b =>
    have hb : b.length < 2 ^ 64 := by simpa [Value.fits] using hv
    by_cases hs : b.length = 1 ∧ b.headD 0 < 0x80
    · obtain ⟨x, rfl⟩ := List.length_eq_one_iff.1 hs.1
      exact ⟨.byte, [x], split_encode_byte hs.2 rest⟩
    · exact ⟨.string, b, split_encode_string hb hs rest⟩
  | list vs => exact ⟨.list, encodeList vs, split_encode_list hv rest⟩

theorem splitList_encode {vs : List Value} (hf : (Value.list vs).fits) (rest : List UInt8) :
    splitList (encode (.list vs) ++ rest) = .ok (encodeList vs, rest) := by
  simp [splitList, split_encode_list hf rest]

/-- `CountValues` counts the values of a list one by one from its contents. -/
theorem countValuesLoop_encodeList : ∀ {vs : List Value}, (∀ v ∈ vs, v.fits) → ∀ {fuel : Nat},
    (encodeList vs).length ≤ fuel → countValuesLoop fuel (encodeList vs) = .ok vs.length
  | [], _, fuel, _ => by cases fuel <;> rfl
  | v :: vs, hf, fuel, hlen => by
    obtain ⟨k, content, hs⟩ := split_encode (hf v (by simp)) (encodeList vs)
    obtain ⟨ts, cs, hrk, -, hrest⟩ := split_eq_ok.1 hs
    have hpos := readKind_ok_length hrk
    -- the encoding of `v` is where the first turn skips to the encodings of the others
    have hdrop := congrArg List.length hrest
    rw [List.length_drop] at hdrop
    have hlist : encodeList (v :: vs) = encode v ++ encodeList vs := rfl
    rw [hlist] at hlen ⊢
    obtain ⟨x, r, hxr⟩ := List.exists_cons_of_length_pos (l := encode v ++ encodeList vs) (by omega)
    obtain ⟨f, rfl⟩ : ∃ f, fuel = f + 1 := ⟨fuel - 1, by omega⟩
    rw [hxr, countValuesLoop, ← hxr, hrk]
    dsimp only
    rw [← hrest, countValuesLoop_encodeList (fun w hw => hf w (by simp [hw])) (by omega)]
    rfl

/-- `CountValues` of the contents of an encoded list is the number of its values. -/
theorem countValues_encodeList {vs : List Value} (hf : ∀ v ∈ vs, v.fits) :
    countValues (encodeList vs) = .ok vs.length :=
  countValuesLoop_encodeList hf le_rfl

end Go420coin.Rlp
