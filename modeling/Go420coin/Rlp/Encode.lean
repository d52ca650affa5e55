import Go420coin.Lib.BigEndian

/-!
# The RLP encoder (`rlp/encode.go`)

`EncodeToBytes` of an `interface{}` holding byte slices and slices of `interface{}` values.  The
encoder buffer `encbuf` keeps the string data apart from the list headers: `list` records where a
list starts, `listEnd` fills in its payload size once the elements are written, and `toBytes` splices
the headers into the string data.  Lengths are Go `int`s and sizes `uint64`s, both modelled by `Nat`
(no Go slice reaches `2 ^ 63` bytes).

The main result is `encodeToBytes_eq_encode`: this deferred bookkeeping produces the recursive RLP
encoding `encode` (header, then payload), for every value whose strings and list payloads are shorter
than `2 ^ 64` bytes (`Value.fits`).
-/

namespace Go420coin.Rlp

open BigEndian

/-- The values held by an `interface{}` that `rlp` encodes and `decodeInterface` produces: a byte
slice, or a slice of such values. -/
inductive Value where
  | bytes (b : List UInt8)
  | list (vs : List Value)
  deriving Repr

/-- `putint`: `i` in big-endian order, in the least number of bytes (one byte for zero). -/
def putint (i : Nat) : List UInt8 :=
  if i < 1 <<< 8 then [i.toUInt8]
  else if i < 1 <<< 16 then [(i >>> 8).toUInt8, i.toUInt8]
  else if i < 1 <<< 24 then [(i >>> 16).toUInt8, (i >>> 8).toUInt8, i.toUInt8]
  else if i < 1 <<< 32 then [(i >>> 24).toUInt8, (i >>> 16).toUInt8, (i >>> 8).toUInt8, i.toUInt8]
  else if i < 1 <<< 40 then
    [(i >>> 32).toUInt8, (i >>> 24).toUInt8, (i >>> 16).toUInt8, (i >>> 8).toUInt8, i.toUInt8]
  else if i < 1 <<< 48 then
    [(i >>> 40).toUInt8, (i >>> 32).toUInt8, (i >>> 24).toUInt8, (i >>> 16).toUInt8, (i >>> 8).toUInt8,
      i.toUInt8]
  else if i < 1 <<< 56 then
    [(i >>> 48).toUInt8, (i >>> 40).toUInt8, (i >>> 32).toUInt8, (i >>> 24).toUInt8, (i >>> 16).toUInt8,
      (i >>> 8).toUInt8, i.toUInt8]
  else
    [(i >>> 56).toUInt8, (i >>> 48).toUInt8, (i >>> 40).toUInt8, (i >>> 32).toUInt8, (i >>> 24).toUInt8,
      (i >>> 16).toUInt8, (i >>> 8).toUInt8, i.toUInt8]

/-- `intsize`: the least number of bytes needed to store `i`. -/
def intsize (i : Nat) : Nat :=
  if i >>> 8 = 0 then 1 else intsize (i >>> 8) + 1
termination_by i
decreasing_by
  simp only [Nat.shiftRight_eq_div_pow] at *
  omega

/-- `headsize`: the size of a list or string header for a value of the given size. -/
def headsize (size : Nat) : Nat :=
  if size < 56 then 1 else 1 + intsize size

/-- `puthead`: the bytes of a list or string header written to `buf`. -/
def puthead (smalltag largetag : UInt8) (size : Nat) : List UInt8 :=
  if size < 56 then [smalltag + size.toUInt8]
  else (largetag + (putint size).length.toUInt8) :: putint size

/-- A list header recorded by `encbuf.list`: where it goes in the string data and, once `listEnd` ran,
the size of the list payload (before that, the header bytes written so far). -/
structure ListHead where
  offset : Nat
  size : Nat
  deriving Repr, DecidableEq

/-- `encbuf`: string data, list headers, and the total size of the headers already closed. -/
structure Encbuf where
  str : List UInt8
  lheads : List ListHead
  lhsize : Nat
  deriving Repr, DecidableEq

namespace Encbuf

/-- A buffer after `reset`. -/
def reset : Encbuf := ⟨[], [], 0⟩

def size (w : Encbuf) : Nat := w.str.length + w.lhsize

def encodeStringHeader (w : Encbuf) (size : Nat) : Encbuf :=
  if size < 56 then { w with str := w.str ++ [0x80 + size.toUInt8] }
  else { w with str := w.str ++ ((0xB7 + (putint size).length.toUInt8) :: putint size) }

def encodeString (w : Encbuf) (b : List UInt8) : Encbuf :=
  if b.length = 1 ∧ b.headD 0 ≤ 0x7F then { w with str := w.str ++ [b.headD 0] }
  else
    let w := w.encodeStringHeader b.length
    { w with str := w.str ++ b }

/-- `encodeUint`: zero is the empty string, an integer below 128 its own byte, any other the string of
its `putint` bytes. -/
def encodeUint (w : Encbuf) (i : UInt64) : Encbuf :=
  if i = 0 then { w with str := w.str ++ [0x80] }
  else if i < 128 then { w with str := w.str ++ [i.toUInt8] }
  else
    let s := (putint i.toNat).length
    { w with str := w.str ++ (0x80 + s.toUInt8) :: putint i.toNat }

/-- `list`: record a new list header; returns its index. -/
def list (w : Encbuf) : Nat × Encbuf :=
  (w.lheads.length, { w with lheads := w.lheads ++ [⟨w.str.length, w.lhsize⟩] })

/-- `listEnd`: the payload size of the list at `index` is everything written since `list`.  (An index
out of range, a panic in Go, leaves the buffer as it is.) -/
def listEnd (w : Encbuf) (index : Nat) : Encbuf :=
  match w.lheads[index]? with
  | none => w
  | some lh =>
    let size := w.size - lh.offset - lh.size
    { w with
      lheads := w.lheads.set index { lh with size := size }
      lhsize := if size < 56 then w.lhsize + 1 else w.lhsize + (1 + intsize size) }

/-- The output of `toBytes` from string position `strpos` on: the string data before each header, the
header, and the string data after the last header. -/
def render (str : List UInt8) : List ListHead → Nat → List UInt8
  | [], strpos => str.drop strpos
  | head :: heads, strpos =>
    (str.take head.offset).drop strpos ++ puthead 0xC0 0xF7 head.size ++ render str heads head.offset

def toBytes (w : Encbuf) : List UInt8 := render w.str w.lheads 0

mutual
/-- The writer `rlp` uses for a value behind an `interface{}`: `writeBytes` for a byte slice, the
slice writer (`list`, the elements, the deferred `listEnd`) for a slice of values. -/
def writeValue (w : Encbuf) : Value → Encbuf
  | .bytes b => w.encodeString b
  | .list vs =>
    let (index, w) := w.list
    (w.writeValues vs).listEnd index

def writeValues (w : Encbuf) : List Value → Encbuf
  | [] => w
  | v :: vs => (w.writeValue v).writeValues vs
end

end Encbuf

/-- `EncodeToBytes`. -/
def encodeToBytes (v : Value) : List UInt8 := (Encbuf.reset.writeValue v).toBytes

/-! ### The RLP encoding -/

/-- The RLP length prefix of a payload of `len` bytes: `offset + len` for fewer than 56 bytes, else
`offset + 55 +` the length of the big-endian length, followed by that length. -/
def lengthPrefix (offset : UInt8) (len : Nat) : List UInt8 :=
  if len < 56 then [offset + len.toUInt8]
  else (offset + 55 + (toBytes len).length.toUInt8) :: toBytes len

mutual
/-- The RLP encoding of a value: a single byte below `0x80` stands for itself; other byte strings and
lists get a length prefix before their payload. -/
def encode : Value → List UInt8
  | .bytes b => if b.length = 1 ∧ b.headD 0 < 0x80 then b else lengthPrefix 0x80 b.length ++ b
  | .list vs => lengthPrefix 0xC0 (encodeList vs).length ++ encodeList vs

/-- The concatenated encodings of the elements of a list. -/
def encodeList : List Value → List UInt8
  | [] => []
  | v :: vs => encode v ++ encodeList vs
end

mutual
/-- Every string and list payload of the value is shorter than `2 ^ 64` bytes, as every Go slice is. -/
def Value.fits : Value → Bool
  | .bytes b => decide (b.length < 2 ^ 64)
  | .list vs => decide ((encodeList vs).length < 2 ^ 64) && Value.fitsList vs

def Value.fitsList : List Value → Bool
  | [] => true
  | v :: vs => v.fits && Value.fitsList vs
end

/-! ### Sizes and headers -/

theorem putint_eq_toBytes {i : Nat} (h0 : i ≠ 0) (h : i < 2 ^ 64) : putint i = toBytes i := by
  unfold putint
  simp only [Nat.one_shiftLeft]
  -- each branch writes the low bytes of `i` up to the first power of `256` above it
  split_ifs with h1 h2 h3 h4 h5 h6 h7
  · exact lowBytes_eq_toBytes (k := 0) (by omega) (by omega)
  · exact lowBytes_eq_toBytes (k := 1) (by omega) (by omega)
  · exact lowBytes_eq_toBytes (k := 2) (by omega) (by omega)
  · exact lowBytes_eq_toBytes (k := 3) (by omega) (by omega)
  · exact lowBytes_eq_toBytes (k := 4) (by omega) (by omega)
  · exact lowBytes_eq_toBytes (k := 5) (by omega) (by omega)
  · exact lowBytes_eq_toBytes (k := 6) (by omega) (by omega)
  · exact lowBytes_eq_toBytes (k := 7) (by omega) (by omega)

theorem intsize_eq_length {i : Nat} (h0 : i ≠ 0) : intsize i = (toBytes i).length := by
  induction i using intsize.induct with
  | case1 i h =>
    rw [intsize, if_pos h, length_toBytes_div h0]
    simp only [Nat.shiftRight_eq_div_pow] at h
    simp [h]
  | case2 i h ih =>
    rw [intsize, if_neg h, ih h, length_toBytes_div h0]
    simp [Nat.shiftRight_eq_div_pow]

theorem puthead_eq_lengthPrefix {tag : UInt8} {size : Nat} (h : size < 2 ^ 64) :
    puthead tag (tag + 55) size = lengthPrefix tag size := by
  unfold puthead lengthPrefix
  split_ifs with hs
  · rfl
  · rw [putint_eq_toBytes (by omega) h]

theorem length_lengthPrefix (o : UInt8) {len : Nat} (h : len < 2 ^ 64) :
    (lengthPrefix o len).length = headsize len := by
  unfold lengthPrefix headsize
  split_ifs with hs
  · rfl
  · simp [intsize_eq_length (show len ≠ 0 by omega), Nat.add_comm]

theorem length_lengthPrefix_pos (t : UInt8) (n : Nat) : 0 < (lengthPrefix t n).length := by
  unfold lengthPrefix
  split <;> simp

/-- A tag byte in the short range is the whole prefix of its size. -/
theorem lengthPrefix_of_short_tag {t b : UInt8} (ht : t.toNat + 56 ≤ 256) (h1 : t.toNat ≤ b.toNat)
    (h2 : b.toNat < t.toNat + 56) : lengthPrefix t (b - t).toNat = [b] := by
  have hlt : (b - t).toNat < 56 := by rw [UInt8.toNat_sub_of_le _ _ h1]; omega
  simp only [lengthPrefix, hlt, if_true, List.cons.injEq, and_true]
  apply UInt8.toNat_inj.1
  simp only [UInt8.toNat_add, Nat.toUInt8, UInt8.toNat_ofNat', UInt8.toNat_sub_of_le _ _ h1]
  omega

/-- A tag byte in the long range starts the prefix of a size with as many bytes as the tag says. -/
theorem lengthPrefix_of_long_tag {t b : UInt8} {size : Nat} (h1 : t.toNat + 55 < b.toNat) (h2 : b.toNat < t.toNat + 64)
    (ht : t.toNat + 64 ≤ 256) (h56 : 56 ≤ size) (hlen : (toBytes size).length = b.toNat - (t.toNat + 55)) :
    lengthPrefix t size = b :: toBytes size := by
  simp only [lengthPrefix, Nat.not_lt.mpr h56, if_false, List.cons.injEq, and_true]
  apply UInt8.toNat_inj.1
  simp only [UInt8.toNat_add, Nat.toUInt8, UInt8.toNat_ofNat', hlen, UInt8.reduceToNat]
  omega

/-- The first byte of a length prefix, and the tail after it. -/
theorem lengthPrefix_cases (t : UInt8) {size : Nat} (hsz : size < 2 ^ 64) :
    (size < 56 ∧ lengthPrefix t size = [t + size.toUInt8]) ∨
    (56 ≤ size ∧ 1 ≤ (toBytes size).length ∧ (toBytes size).length ≤ 8 ∧
      lengthPrefix t size = (t + 55 + (toBytes size).length.toUInt8) :: toBytes size) := by
  by_cases h : size < 56
  · exact .inl ⟨h, by simp [lengthPrefix, h]⟩
  · refine .inr ⟨by omega, ?_, ?_, by simp [lengthPrefix, h]⟩
    · have := (@length_toBytes_le size 0).not.2 (by omega)
      omega
    · exact length_toBytes_le.2 (by simpa using hsz)

/-! ### Writing a value only appends to the buffer -/

namespace Encbuf

/-- `u` written after `w`: the string data of `u` follows that of `w`, and so do its list headers. -/
def append (w u : Encbuf) : Encbuf :=
  { str := w.str ++ u.str
    lheads := w.lheads ++ u.lheads.map fun h => { h with offset := h.offset + w.str.length }
    lhsize := w.lhsize + u.lhsize }

@[simp] theorem append_reset (w : Encbuf) : w.append reset = w := by simp [append, reset]

@[simp] theorem reset_append (u : Encbuf) : reset.append u = u := by simp [append, reset]

theorem append_assoc (w u x : Encbuf) : (w.append u).append x = w.append (u.append x) := by
  simp only [append, List.append_assoc, List.map_append, List.map_map, List.length_append, Nat.add_assoc,
    mk.injEq, true_and, and_true]
  congr 2
  apply List.map_congr_left
  intro h _
  simp [Nat.add_comm u.str.length, Nat.add_assoc]

theorem listEnd_of_getElem? {w : Encbuf} {i : Nat} {lh : ListHead} (h : w.lheads[i]? = some lh) :
    w.listEnd i = { w with
      lheads := w.lheads.set i { lh with size := w.size - lh.offset - lh.size }
      lhsize := w.lhsize + headsize (w.size - lh.offset - lh.size) } := by
  unfold listEnd headsize
  simp only [h]
  split_ifs <;> simp_all

/-- Closing a list opened on `w` after the elements `C` were written. -/
private theorem close_list (w C : Encbuf) :
    (({ w with lheads := w.lheads ++ [⟨w.str.length, w.lhsize⟩] } : Encbuf).append C).listEnd w.lheads.length =
      w.append ⟨C.str, ⟨0, C.str.length + C.lhsize⟩ :: C.lheads, C.lhsize + headsize (C.str.length + C.lhsize)⟩ := by
  have hget : (({ w with lheads := w.lheads ++ [⟨w.str.length, w.lhsize⟩] } : Encbuf).append C).lheads[w.lheads.length]? =
      some ⟨w.str.length, w.lhsize⟩ := by
    simp [append]
  rw [listEnd_of_getElem? hget]
  have hs : (({ w with lheads := w.lheads ++ [⟨w.str.length, w.lhsize⟩] } : Encbuf).append C).size - w.str.length - w.lhsize =
      C.str.length + C.lhsize := by
    simp only [size, append, List.length_append]
    omega
  rw [hs]
  simp [append, Nat.add_assoc]

mutual
/-- Writing a value into any buffer appends what writing it into an empty buffer produces: the
headers of the lists it opens are closed again, and their sizes do not depend on what came before. -/
theorem writeValue_eq_append (w : Encbuf) : ∀ v, w.writeValue v = w.append (reset.writeValue v)
  | .bytes b => by
    simp only [writeValue, encodeString, encodeStringHeader, append, reset]
    split_ifs <;> simp
  | .list vs => by
    have hw := close_list w (reset.writeValues vs)
    have hr := close_list reset (reset.writeValues vs)
    simp only [reset_append] at hr
    rw [← writeValues_eq_append] at hw hr
    simp only [writeValue, list]
    rw [hw, hr]
theorem writeValues_eq_append (w : Encbuf) : ∀ vs, w.writeValues vs = w.append (reset.writeValues vs)
  | [] => by simp [writeValues]
  | v :: vs => by
    simp only [writeValues]
    rw [writeValues_eq_append _ vs, writeValue_eq_append w v, writeValues_eq_append (reset.writeValue v) vs,
      append_assoc]
end

theorem writeValue_list_reset (vs : List Value) :
    reset.writeValue (.list vs) =
      ⟨(reset.writeValues vs).str,
        ⟨0, (reset.writeValues vs).size⟩ :: (reset.writeValues vs).lheads,
        (reset.writeValues vs).lhsize + headsize (reset.writeValues vs).size⟩ := by
  have hr := close_list reset (reset.writeValues vs)
  simp only [reset_append] at hr
  rw [← writeValues_eq_append] at hr
  exact hr

/-! ### Splicing the headers into the string data -/

private theorem render_shift (A B : List UInt8) (HB : List ListHead) (q : Nat) :
    render (A ++ B) (HB.map fun h => { h with offset := h.offset + A.length }) (A.length + q) =
      render B HB q := by
  induction HB generalizing q with
  | nil => simp [render, List.drop_length_add_append]
  | cons h HB ih =>
    simp only [List.map_cons, render]
    rw [show h.offset + A.length = A.length + h.offset by omega, List.take_length_add_append,
      List.drop_length_add_append, ih]

private theorem render_after (A B : List UInt8) (HB : List ListHead) {p : Nat} (hp : p ≤ A.length) :
    render (A ++ B) (HB.map fun h => { h with offset := h.offset + A.length }) p =
      A.drop p ++ render B HB 0 := by
  cases HB with
  | nil => simp [render, List.drop_append_of_le_length hp]
  | cons h HB =>
    simp only [List.map_cons, render, List.drop_zero]
    rw [show h.offset + A.length = A.length + h.offset by omega, List.take_length_add_append,
      List.drop_append_of_le_length hp, render_shift]
    simp only [List.append_assoc]

/-- Every list header lies inside the string data. -/
def HeadsIn (w : Encbuf) : Prop := ∀ h ∈ w.lheads, h.offset ≤ w.str.length

theorem render_append (A B : List UInt8) (HA HB : List ListHead) {p : Nat} (hp : p ≤ A.length)
    (hA : ∀ h ∈ HA, h.offset ≤ A.length) :
    render (A ++ B) (HA ++ HB.map fun h => { h with offset := h.offset + A.length }) p =
      render A HA p ++ render B HB 0 := by
  induction HA generalizing p with
  | nil => simpa [render] using render_after A B HB hp
  | cons h HA ih =>
    have hh := hA h (by simp)
    simp only [List.cons_append, render, List.append_assoc]
    rw [List.take_append_of_le_length hh, ih hh (fun h' hm => hA h' (by simp [hm]))]

theorem toBytes_append {w : Encbuf} (hw : w.HeadsIn) (u : Encbuf) :
    (w.append u).toBytes = w.toBytes ++ u.toBytes :=
  render_append _ _ _ _ (Nat.zero_le _) hw

theorem headsIn_append {w u : Encbuf} (hw : w.HeadsIn) (hu : u.HeadsIn) : (w.append u).HeadsIn := by
  intro h hm
  simp only [append, List.mem_append, List.mem_map] at hm
  simp only [append, List.length_append]
  rcases hm with hm | ⟨h', hm', rfl⟩
  · have := hw h hm
    omega
  · have := hu h' hm'
    simp only
    omega

theorem size_append (w u : Encbuf) : (w.append u).size = w.size + u.size := by
  simp only [size, append, List.length_append]
  omega

/-- A string written into an empty buffer is its encoding, with no list header. -/
theorem reset_encodeString {b : List UInt8} (hb : b.length < 2 ^ 64) :
    reset.encodeString b = ⟨encode (.bytes b), [], 0⟩ := by
  have hsingle : (b.length = 1 ∧ b.headD 0 ≤ 0x7F) ↔ (b.length = 1 ∧ b.headD 0 < 0x80) := by
    rw [UInt8.le_iff_toNat_le, UInt8.lt_iff_toNat_lt]
    simp only [UInt8.reduceToNat]
    omega
  have hhead : encodeStringHeader reset b.length = ⟨lengthPrefix 0x80 b.length, [], 0⟩ := by
    rw [← puthead_eq_lengthPrefix hb]
    simp only [encodeStringHeader, puthead, reset, List.nil_append]
    split_ifs <;> rfl
  simp only [encodeString, encode, hsingle, hhead]
  split_ifs with h
  · obtain ⟨hl, -⟩ := h
    obtain ⟨c, rfl⟩ : ∃ c, b = [c] := List.length_eq_one_iff.1 hl
    rfl
  · rfl

private theorem toBytes_encodeString {b : List UInt8} (hb : b.length < 2 ^ 64) :
    (reset.writeValue (.bytes b)).toBytes = encode (.bytes b) ∧
      (reset.writeValue (.bytes b)).size = (encode (.bytes b)).length ∧
      (reset.writeValue (.bytes b)).HeadsIn := by
  simp only [writeValue, reset_encodeString hb]
  simp [toBytes, render, size, HeadsIn]

mutual
private theorem toBytes_writeValue : ∀ v : Value, v.fits →
    (reset.writeValue v).toBytes = encode v ∧ (reset.writeValue v).size = (encode v).length ∧
      (reset.writeValue v).HeadsIn
  | .bytes b, hf => toBytes_encodeString (by simpa [Value.fits] using hf)
  | .list vs, hf => by
    simp only [Value.fits, Bool.and_eq_true, decide_eq_true_eq] at hf
    obtain ⟨ht, hs, hh⟩ := toBytes_writeValues vs hf.2
    have hlen : (reset.writeValues vs).size < 2 ^ 64 := by rw [hs]; exact hf.1
    rw [writeValue_list_reset]
    refine ⟨?_, ?_, ?_⟩
    · change puthead 0xC0 0xF7 (reset.writeValues vs).size ++ (reset.writeValues vs).toBytes = _
      rw [show (0xF7 : UInt8) = 0xC0 + 55 by decide, puthead_eq_lengthPrefix hlen, hs, ht, encode]
    · rw [encode, List.length_append, length_lengthPrefix _ hf.1, ← hs]
      simp only [size]
      omega
    · intro h hm
      simp only [List.mem_cons] at hm
      rcases hm with rfl | hm
      · exact Nat.zero_le _
      · exact hh h hm

private theorem toBytes_writeValues : ∀ vs : List Value, Value.fitsList vs →
    (reset.writeValues vs).toBytes = encodeList vs ∧ (reset.writeValues vs).size = (encodeList vs).length ∧
      (reset.writeValues vs).HeadsIn
  | [], _ => by simp [writeValues, toBytes, render, encodeList, size, reset, HeadsIn]
  | v :: vs, hf => by
    simp only [Value.fitsList, Bool.and_eq_true] at hf
    obtain ⟨ht, hs, hh⟩ := toBytes_writeValue v hf.1
    obtain ⟨ht', hs', hh'⟩ := toBytes_writeValues vs hf.2
    simp only [writeValues]
    rw [writeValues_eq_append]
    refine ⟨?_, ?_, headsIn_append hh hh'⟩
    · rw [toBytes_append hh, ht, ht', encodeList]
    · rw [size_append, hs, hs', encodeList, List.length_append]
end

end Encbuf

/-- The encoder buffer's deferred list headers produce the RLP encoding, for every value whose strings
and list payloads fit the `uint64` sizes the headers hold. -/
theorem encodeToBytes_eq_encode {v : Value} (hv : v.fits) : encodeToBytes v = encode v :=
  (Encbuf.toBytes_writeValue v hv).1

/-- The size of the buffer, string data plus the closed list headers, is the length of the output. -/
theorem size_writeValue {v : Value} (hv : v.fits) :
    (Encbuf.reset.writeValue v).size = (encodeToBytes v).length := by
  rw [encodeToBytes_eq_encode hv]
  exact (Encbuf.toBytes_writeValue v hv).2.1

/-! ### Sizes of encodings -/

theorem length_lengthPrefix_le (o : UInt8) {len : Nat} (h : len < 2 ^ 64) : (lengthPrefix o len).length ≤ 9 := by
  unfold lengthPrefix
  split_ifs
  · simp
  · have : (toBytes len).length ≤ 8 := length_toBytes_le.2 (by simpa using h)
    simp only [List.length_cons]
    omega

theorem length_encode_bytes_le {b : List UInt8} (h : b.length < 2 ^ 64) : (encode (.bytes b)).length ≤ b.length + 9 := by
  unfold encode
  split_ifs
  · omega
  · have := length_lengthPrefix_le 0x80 h
    rw [List.length_append]
    omega

theorem length_le_encode_bytes (b : List UInt8) : b.length ≤ (encode (.bytes b)).length := by
  unfold encode
  split_ifs
  · exact le_rfl
  · rw [List.length_append]
    omega

theorem encodeList_append (vs ws : List Value) : encodeList (vs ++ ws) = encodeList vs ++ encodeList ws := by
  induction vs with
  | nil => simp [encodeList]
  | cons v vs ih => simp [encodeList, ih]

theorem fitsList_iff {vs : List Value} : Value.fitsList vs = true ↔ ∀ v ∈ vs, v.fits = true := by
  induction vs with
  | nil => simp [Value.fitsList]
  | cons v vs ih => simp [Value.fitsList, ih]

theorem length_encodeList_le {vs : List Value} {c : Nat} (h : ∀ v ∈ vs, (encode v).length ≤ c) :
    (encodeList vs).length ≤ vs.length * c := by
  induction vs with
  | nil => simp [encodeList]
  | cons v vs ih =>
    have hv := h v (by simp)
    have hvs := ih fun w hw => h w (by simp [hw])
    simp only [encodeList, List.length_append, List.length_cons]
    rw [Nat.succ_mul]
    omega

/-! ### Items written as they are -/

/-- An element of a list given to `rlp.Encode`: a value, or bytes that are an encoding already and
are written as they are (a type whose `EncodeRLP` writes its own bytes, such as the trie's
`rawNode`). -/
inductive Item where
  | value (v : Value)
  | raw (b : List UInt8)
  deriving Repr

namespace Encbuf

def writeItem (w : Encbuf) : Item → Encbuf
  | .value v => w.writeValue v
  | .raw b => { w with str := w.str ++ b }

/-- `rlp.Encode` of an array or a struct of items: open a list, write the items, close the list. -/
def writeItemList (w : Encbuf) (items : List Item) : Encbuf :=
  let (index, w) := w.list
  (items.foldl writeItem w).listEnd index

end Encbuf

/-- `rlp.Encode` of a list of items. -/
def encodeItems (items : List Item) : List UInt8 := (Encbuf.reset.writeItemList items).toBytes

/-- The item stands for the value: it is the value, or the value's encoding. -/
inductive Item.Encodes : Item → Value → Prop
  | value (v : Value) : Item.Encodes (.value v) v
  | raw (v : Value) : Item.Encodes (.raw (encode v)) v

namespace Encbuf

theorem writeItem_eq_append (w : Encbuf) : ∀ it, w.writeItem it = w.append (reset.writeItem it)
  | .value v => writeValue_eq_append w v
  | .raw b => by simp [writeItem, append, reset]

theorem foldl_writeItem (w : Encbuf) (items : List Item) :
    items.foldl writeItem w = w.append (items.foldl writeItem reset) := by
  induction items generalizing w with
  | nil => simp
  | cons it items ih =>
    simp only [List.foldl_cons]
    rw [ih, ih (reset.writeItem it), writeItem_eq_append w it, append_assoc]

private theorem toBytes_writeItems {items : List Item} {vs : List Value} (h : List.Forall₂ Item.Encodes items vs)
    (hf : Value.fitsList vs) :
    (items.foldl writeItem reset).toBytes = encodeList vs ∧
      (items.foldl writeItem reset).size = (encodeList vs).length ∧ (items.foldl writeItem reset).HeadsIn := by
  induction h with
  | nil => simp [toBytes, render, encodeList, size, reset, HeadsIn]
  | @cons it v items vs hit _ ih =>
    simp only [Value.fitsList, Bool.and_eq_true] at hf
    -- the item alone: a value is written as `writeValue` writes it, an encoding as it is
    have hone : (reset.writeItem it).toBytes = encode v ∧ (reset.writeItem it).size = (encode v).length ∧
        (reset.writeItem it).HeadsIn := by
      cases hit with
      | value v => exact toBytes_writeValue v hf.1
      | raw v => simp [writeItem, toBytes, render, size, reset, HeadsIn]
    obtain ⟨ht, hs, hh⟩ := hone
    obtain ⟨ht', hs', hh'⟩ := ih hf.2
    simp only [List.foldl_cons]
    rw [foldl_writeItem]
    refine ⟨?_, ?_, headsIn_append hh hh'⟩
    · rw [toBytes_append hh, ht, ht', encodeList]
    · rw [size_append, hs, hs', encodeList, List.length_append]

end Encbuf

/-- Writing items that stand for values gives the encoding of the list of the values. -/
theorem encodeItems_eq_encode {items : List Item} {vs : List Value} (h : List.Forall₂ Item.Encodes items vs)
    (hf : (Value.list vs).fits) : encodeItems items = encode (.list vs) := by
  simp only [Value.fits, Bool.and_eq_true, decide_eq_true_eq] at hf
  obtain ⟨ht, hs, -⟩ := Encbuf.toBytes_writeItems h hf.2
  set C := items.foldl Encbuf.writeItem Encbuf.reset
  have hlen : C.size < 2 ^ 64 := by rw [hs]; exact hf.1
  have hclose := Encbuf.close_list Encbuf.reset C
  simp only [Encbuf.reset_append] at hclose
  have hw : Encbuf.reset.writeItemList items =
      ⟨C.str, ⟨0, C.size⟩ :: C.lheads, C.lhsize + headsize C.size⟩ := by
    simp only [Encbuf.writeItemList, Encbuf.list]
    rw [Encbuf.foldl_writeItem]
    exact hclose
  rw [encodeItems, hw]
  change puthead 0xC0 0xF7 C.size ++ C.toBytes = _
  rw [show (0xF7 : UInt8) = 0xC0 + 55 by decide, puthead_eq_lengthPrefix hlen, hs, ht, encode]

end Go420coin.Rlp
