import Go420coin.Rlp.Canonical
import Go420coin.Rlp.RawStream

/-!
# The elements of a flat list

Some structures are written as one RLP list of byte strings, integers and values that are already
encoded (`rlp.RawValue`), through `rlp`'s writer for a `[]interface{}`, and are read back one element
at a time with `Stream.Decode`.

* Writing: every element only appends to the string data, so the list is its header followed by what
  the elements wrote (`encodeElements_eq`), the encoding of each (`reset_writeElement`).
* `IsRaw b`: `b` is one value as `Raw` returns it, a byte below `0x80` or a canonical string or list
  header and as many bytes as it declares.  The header fixes where the value ends
  (`IsRaw.append_inj`).
* Reading: what `Raw` returns is one value read off the input (`raw_sound`), and at a value with room
  for it `Raw` returns it (`raw_isRaw`).  `Bytes` reads a string back from its encoding, `Uint` an
  integer (`bytes_complete`, `uint_complete`), and what `Uint` accepts it reads as `Bytes` would
  (`uint_bytes`).  `Bytes` reports `EOL` only at the end of a list (`bytes_eol_at_end`).
-/

namespace Go420coin.Rlp

open BigEndian
open Go420coin.Rlp.Stream

/-! ### Writing a flat list -/

/-- An element of a `[]interface{}` given to `EncodeToBytes`, by the writer `rlp` picks for it: a
`[]byte` or a `string`, a `uint64`, an `rlp.RawValue`. -/
inductive Element where
  | bytes (b : List UInt8)
  | uint (i : UInt64)
  | raw (b : List UInt8)
  deriving Repr, DecidableEq

namespace Encbuf

/-- `writeBytes` and `writeString` (both `encodeString`), `writeUint`, `writeRawValue`. -/
def writeElement (w : Encbuf) : Element → Encbuf
  | .bytes b => w.encodeString b
  | .uint i => w.encodeUint i
  | .raw b => { w with str := w.str ++ b }

/-- An element only appends to the string data. -/
theorem writeElement_eq (w : Encbuf) (e : Element) :
    w.writeElement e = { w with str := w.str ++ (reset.writeElement e).str } := by
  cases e with
  | bytes b =>
    simp only [writeElement, encodeString, encodeStringHeader, reset]
    split_ifs <;> simp
  | uint i =>
    simp only [writeElement, encodeUint, reset]
    split_ifs <;> simp
  | raw b => simp [writeElement, reset]

theorem foldl_writeElement (w : Encbuf) (es : List Element) :
    es.foldl writeElement w = { w with str := w.str ++ es.flatMap fun e => (reset.writeElement e).str } := by
  induction es generalizing w with
  | nil => simp
  | cons e es ih =>
    rw [List.foldl_cons, ih, writeElement_eq]
    simp

end Encbuf

/-- `EncodeToBytes` of a `[]interface{}`: the slice writer opens a list, writes the elements and closes
the list. -/
def encodeElements (es : List Element) : List UInt8 :=
  let (index, w) := Encbuf.reset.list
  ((es.foldl Encbuf.writeElement w).listEnd index).toBytes

/-- The list is its header followed by what the elements wrote. -/
theorem encodeElements_eq (es : List Element) :
    encodeElements es = puthead 0xC0 0xF7 (es.flatMap fun e => (Encbuf.reset.writeElement e).str).length ++
      es.flatMap fun e => (Encbuf.reset.writeElement e).str := by
  simp only [encodeElements, Encbuf.list, Encbuf.foldl_writeElement]
  rw [@Encbuf.listEnd_of_getElem? _ _ ⟨0, 0⟩ (by simp [Encbuf.reset])]
  simp [Encbuf.toBytes, Encbuf.render, Encbuf.size, Encbuf.reset]

/-- What an element writes when its string is shorter than `2 ^ 64` bytes: the encoding of the string,
of the integer's shortest bytes, or the raw bytes. -/
def Element.out : Element → List UInt8
  | .bytes b => encode (.bytes b)
  | .uint i => encode (.bytes (toBytes i.toNat))
  | .raw b => b

theorem reset_writeElement {e : Element} (he : ∀ b, e = .bytes b → b.length < 2 ^ 64) :
    (Encbuf.reset.writeElement e).str = e.out := by
  cases e with
  | bytes b => simp [Encbuf.writeElement, Encbuf.reset_encodeString (he b rfl), Element.out]
  | uint i =>
    -- without list headers, the output of the buffer is its string data
    have hl : (Encbuf.reset.encodeUint i).lheads = [] := by
      unfold Encbuf.encodeUint
      split_ifs <;> rfl
    have h := encodeUint_toBytes i
    rw [appendUint64_eq_encode, Encbuf.toBytes, hl] at h
    simpa [Encbuf.render, Encbuf.writeElement, Element.out] using h
  | raw b => simp [Encbuf.writeElement, Encbuf.reset, Element.out]

/-- A string element writes at least its bytes. -/
theorem length_le_writeElement (b : List UInt8) : b.length ≤ (Encbuf.reset.writeElement (.bytes b)).str.length := by
  simp only [Encbuf.writeElement, Encbuf.encodeString, Encbuf.encodeStringHeader, Encbuf.reset]
  split_ifs <;> simp <;> omega

/-! ### Values as `Raw` returns them -/

/-- `b` is one value as `Raw` returns it: a byte below `0x80`, or a canonical string or list header
followed by as many bytes as it declares, whatever they hold. -/
inductive IsRaw : List UInt8 → Prop
  | byte {x : UInt8} (hx : x < 0x80) : IsRaw [x]
  | sized {k : Kind} (hk : k ≠ .byte) {c : List UInt8} (hc : c.length < 2 ^ 64) :
      IsRaw (lengthPrefix (tagOf k) c.length ++ c)

theorem IsRaw.length_pos {b : List UInt8} (h : IsRaw b) : 0 < b.length := by
  cases h with
  | byte => simp
  | @sized k hk c hc =>
    have := length_lengthPrefix_pos (tagOf k) c.length
    simp only [List.length_append]
    omega

/-- The encoding of a value is a raw value. -/
theorem isRaw_encode {v : Value} (hf : v.fits) : IsRaw (encode v) := by
  cases v with
  | bytes b =>
    simp only [Value.fits, decide_eq_true_eq] at hf
    by_cases hc : b.length = 1 ∧ b.headD 0 < 0x80
    · obtain ⟨c, rfl⟩ := List.length_eq_one_iff.1 hc.1
      rw [encode, if_pos hc]
      exact .byte (by simpa using hc.2)
    · rw [encode, if_neg hc]
      exact .sized (k := .string) (by decide) hf
  | list vs =>
    simp only [Value.fits, Bool.and_eq_true, decide_eq_true_eq] at hf
    rw [encode]
    exact .sized (k := .list) (by decide) hf.1

/-- The header of a value fixes where it ends: of two values at the front of one input, neither goes
past the other.  Both headers are read by `readKind` on one stream over the input. -/
theorem IsRaw.append_inj {a b x y : List UInt8} (ha : IsRaw a) (hb : IsRaw b) (h : a ++ x = b ++ y) :
    a = b := by
  have hroom : ∀ n, n ≤ (a ++ x).length → (Stream.reset (a ++ x) 0).Room n := fun n hn => (reset_room _ _).2 hn
  have hr : (Stream.reset (a ++ x) 0).r = a ++ x := rfl
  cases ha with
  | @byte c hc =>
    cases hb with
    | byte hd =>
      simp only [List.singleton_append, List.cons.injEq] at h
      rw [h.1]
    | @sized k hk d hd =>
      -- a byte below `0x80` is no header
      have h1 := Stream.readKind_byte.2 ⟨hroom 1 (by simp), rfl, c, x, hr, hc, rfl⟩
      have h2 := (Stream.readKind_sized hk).2 ⟨hd, hroom _ (by rw [h]; simp), d ++ y,
        by rw [hr, h, List.append_assoc], rfl⟩
      rw [h1] at h2
      exact absurd (congrArg (fun p => p.1.1) h2).symm hk
  | @sized k hk c hc =>
    have h1 := (Stream.readKind_sized hk).2 ⟨hc, hroom _ (by simp), c ++ x, by rw [hr, List.append_assoc], rfl⟩
    cases hb with
    | @byte d hd =>
      have h2 := Stream.readKind_byte.2 ⟨hroom 1 (by rw [h]; simp), rfl, d, y, by rw [hr, h]; rfl, hd, rfl⟩
      rw [h1] at h2
      exact absurd (congrArg (fun p => p.1.1) h2) hk
    | @sized k' hk' d hd =>
      have h2 := (Stream.readKind_sized hk').2 ⟨hd, hroom _ (by rw [h]; simp), d ++ y,
        by rw [hr, h, List.append_assoc], rfl⟩
      rw [h1] at h2
      have hkk : k = k' := congrArg (fun p => p.1.1) h2
      have hlen : c.length = d.length := congrArg (fun p => p.1.2.1) h2
      subst hkk
      rw [List.append_assoc, List.append_assoc, hlen, List.append_cancel_left_eq] at h
      rw [(List.append_inj h hlen).1]

/-- A reader that read a raw value off an input that starts with a raw value read that one. -/
theorem Stream.Reads.of_isRaw {s s' : Stream} {e b rest : List UInt8} (h : s.Reads e s') (he : IsRaw e) (hb : IsRaw b)
    (hr : s.r = b ++ rest) : s.Reads b s' := by
  have heq := IsRaw.append_inj he hb (h.input.symm.trans hr)
  rwa [heq] at h

/-! ### Reading the elements -/

private theorem raw_sound_sized {s s1 s' : Stream} {k : Kind} {size : Nat} {out : List UInt8} (hs : s.kind = none)
    (hk : k ≠ .byte) (hg : s.getKind = (.ok (k, size), s1)) (h : s1.raw = (.ok out, s')) :
    IsRaw out ∧ s.Reads out s' := by
  obtain ⟨hsz, hroom, -, rest, hr, rfl⟩ := (getKind_sized hs hk).1 hg
  obtain ⟨hroom', hlen, rfl, rfl⟩ := (raw_sized rfl rfl hk hsz).1 h
  dsimp only at hroom' hlen ⊢
  have hclen : (rest.take size).length = size := by simp only [List.length_take]; omega
  refine ⟨?_, ?_, by rw [hr, List.append_assoc, List.take_append_drop], rfl, ?_, rfl, ?_⟩
  · have := IsRaw.sized hk (c := rest.take size) (by omega)
    rwa [hclen] at this
  · rw [List.length_append, hclen]
    exact room_add.2 ⟨hroom, hroom'⟩
  · show chargeStack (chargeStack s.stack (lengthPrefix (tagOf k) size).length) size = _
    rw [chargeStack_add, List.length_append, hclen]
  · show ((s.charge (lengthPrefix (tagOf k) size).length).charge size).remaining = _
    rw [charge_charge, List.length_append, hclen]

/-- What `Raw` returns is one value, read off the front of the input. -/
theorem raw_sound {s s' : Stream} {out : List UInt8} (hs : s.kind = none) (h : s.raw = (.ok out, s')) :
    IsRaw out ∧ s.Reads out s' := by
  rcases hg : s.getKind with ⟨res, s1⟩
  rcases res with e | ⟨k, size⟩
  · simp [raw, hg] at h
  rw [raw_of_getKind hg] at h
  cases k with
  | byte =>
    obtain ⟨hroom, rfl, c, rest, hr, hc, rfl⟩ := (getKind_byte hs).1 hg
    rw [raw_byte rfl rfl] at h
    simp only [Prod.mk.injEq, Except.ok.injEq] at h
    obtain ⟨rfl, rfl⟩ := h
    exact ⟨.byte hc, hroom, by simp [hr], rfl, rfl, rfl, rfl⟩
  | string => exact raw_sound_sized hs (by decide) hg h
  | list => exact raw_sound_sized hs (by decide) hg h

/-- At a value with room for it, `Raw` returns the value. -/
theorem raw_isRaw {s : Stream} {b rest : List UInt8} (hb : IsRaw b) (hs : s.kind = none)
    (hroom : s.Room b.length) (hr : s.r = b ++ rest) : ∃ s', s.raw = (.ok b, s') ∧ s.Reads b s' := by
  obtain ⟨out, s', h⟩ : ∃ out s', s.raw = (.ok out, s') := by
    cases hb with
    | @byte x hx =>
      have hg := (getKind_byte hs).2 ⟨hroom, rfl, x, rest, hr, hx, rfl⟩
      exact ⟨_, _, by rw [raw_of_getKind hg, raw_byte rfl rfl]⟩
    | @sized k hk c hc =>
      rw [List.length_append] at hroom
      obtain ⟨h1, h2⟩ := room_add.1 hroom
      have hg := (getKind_sized hs hk).2 ⟨hc, h1, valueRoom_of_room h2, c ++ rest,
        by rw [hr, List.append_assoc], rfl⟩
      exact ⟨_, _, by rw [raw_of_getKind hg, (raw_sized rfl rfl hk hc).2 ⟨h2, by simp, rfl, rfl⟩]⟩
  obtain ⟨hraw, hread⟩ := raw_sound hs h
  have hout : out = b := IsRaw.append_inj hraw hb (hread.input.symm.trans hr)
  subst hout
  exact ⟨s', h, hread⟩

/-- `Bytes` reports `EOL` at the end of the innermost list only. -/
theorem bytes_eol_at_end {s s' : Stream} (hs : s.kind = none) (h : s.bytes = (.error .eol, s')) :
    ∃ tos up, s.stack = tos :: up ∧ tos.pos = tos.size := by
  rcases hg : s.getKind with ⟨res, s1⟩
  rcases res with e | ⟨k, size⟩
  · have hb : s.bytes = (.error e, s1) := by simp [bytes, hg]
    rw [hb] at h
    simp only [Prod.mk.injEq, Except.error.injEq] at h
    obtain ⟨rfl, rfl⟩ := h
    exact (getKind_eol_spec hs hg).1
  · obtain ⟨hk1, -, he1⟩ := getKind_ok_pending hs hg
    rw [bytes_of_getKind hg] at h
    exact absurd (congrArg Prod.fst h) (bytes_ne_eol hk1 he1)

/-- At a value with room for it, `Bytes` either fails without reporting `EOL`, or reads exactly that
value. -/
theorem bytes_isRaw {s : Stream} {b rest : List UInt8} (hb : IsRaw b) (hs : s.kind = none)
    (hroom : s.Room b.length) (hr : s.r = b ++ rest) :
    (∃ e s', s.bytes = (.error e, s') ∧ e ≠ .eol) ∨ ∃ c s', s.bytes = (.ok c, s') ∧ s.Reads b s' := by
  rcases hbs : s.bytes with ⟨res, s'⟩
  rcases res with e | c
  · refine .inl ⟨e, s', rfl, ?_⟩
    rintro rfl
    obtain ⟨tos, up, hst, hp⟩ := bytes_eol_at_end hs hbs
    have h1 := hroom.1 tos (by simp [hst])
    have h2 := hb.length_pos
    omega
  · obtain ⟨hf, hread⟩ := bytes_sound hs hbs
    exact .inr ⟨c, s', rfl, hread.of_isRaw (isRaw_encode hf) hb hr⟩

/-- A string with room and input for its contents fails to read only on its size. -/
theorem bytes_string_error {s s' : Stream} {e : Error} (h : s.bytes = (.error e, s')) (hk : s.kind = some .string)
    (he : s.kinderr = none) (hroom : s.Room s.size) (hlen : s.size ≤ s.r.length) : e = .canonSize := by
  simp only [bytes, getKind_cached hk, cached, he] at h
  rw [readFull_ok.2 ⟨hroom, hlen, rfl, rfl⟩] at h
  dsimp only at h
  split_ifs at h
  · simp only [Prod.mk.injEq, Except.error.injEq] at h
    exact h.1.symm
  · cases h

/-- At a value with room for it, `Bytes` fails only at a list, or at a one-byte string whose byte
should have stood alone. -/
theorem bytes_isRaw_error {s s' : Stream} {b rest : List UInt8} {e : Error} (hb : IsRaw b) (hs : s.kind = none)
    (hroom : s.Room b.length) (hr : s.r = b ++ rest) (h : s.bytes = (.error e, s')) :
    e = .expectedString ∨ e = .canonSize := by
  cases hb with
  | @byte x hx =>
    have hg := (getKind_byte hs).2 ⟨hroom, rfl, x, rest, hr, hx, rfl⟩
    rw [bytes_of_getKind hg, bytes_byte rfl rfl] at h
    cases h
  | @sized k hk c hc =>
    rw [List.length_append] at hroom
    obtain ⟨h1, h2⟩ := room_add.1 hroom
    have hg := (getKind_sized hs hk).2 ⟨hc, h1, valueRoom_of_room h2, c ++ rest,
      by rw [hr, List.append_assoc], rfl⟩
    rw [bytes_of_getKind hg] at h
    cases k with
    | byte => exact absurd rfl hk
    | list =>
      simp only [bytes, getKind, cached, Prod.mk.injEq, Except.error.injEq] at h
      exact .inl h.1.symm
    | string => exact .inr (bytes_string_error h rfl rfl h2 (by simp))

/-- What `Uint` accepts, `Bytes` reads as the integer's shortest bytes. -/
theorem uint_bytes {s s' : Stream} {x : UInt64} (hs : s.kind = none) (h : s.uint 64 = (.ok x, s')) :
    s.bytes = (.ok (toBytes x.toNat), s') := by
  rcases hg : s.getKind with ⟨res, s1⟩
  rcases res with e | ⟨k, size⟩
  · simp [uint, hg] at h
  obtain ⟨hk1, -, he1⟩ := getKind_ok_pending hs hg
  rw [uint_of_getKind hg] at h
  rw [bytes_of_getKind hg]
  cases k with
  | list => simp [uint, getKind_cached hk1, cached, he1] at h
  | byte =>
    by_cases hb0 : s1.byteval = 0
    · simp [uint, getKind_cached hk1, cached, he1, hb0] at h
    rw [uint_byte hk1 he1 hb0] at h
    obtain ⟨hx, rfl⟩ := Prod.mk.inj h
    cases hx
    have hb0' : s1.byteval.toNat ≠ 0 := fun h' => hb0 (UInt8.toNat_inj.1 (by simpa using h'))
    have htb : toBytes s1.byteval.toUInt64.toNat = [s1.byteval] := by
      rw [show s1.byteval.toUInt64.toNat = s1.byteval.toNat by simp, toBytes_of_lt_256 hb0' s1.byteval.toNat_lt]
      simp [Nat.toUInt8]
    rw [bytes_byte hk1 he1, htb]
  | string =>
    obtain ⟨h8, ⟨h0, rfl, rfl⟩ | ⟨hpos, hroom, hlen, hlead, h128, rfl, rfl⟩⟩ := (uint_string hk1 he1).1 h
    · -- no bytes: zero, and `Bytes` reads the empty string
      have hs0 : ({ s1.charge s1.size with r := s1.r.drop s1.size } : Stream) = { s1 with kind := none } := by
        rcases s1 with ⟨r, rem, lim, kd, sz, bv, ke, st⟩
        simp only at h0
        subst h0
        simp only [charge, chargeStack_zero, List.drop_zero, Nat.sub_zero, ite_self]
      have hb := (bytes_string (b := []) hk1 he1).2 ⟨⟨fun tos _ => by omega, fun _ => by omega⟩, by omega,
        by omega, by simp [h0], rfl⟩
      rw [hb, hs0]
      rfl
    · -- a big-endian integer without a leading zero: `Bytes` reads its bytes
      have hc : (s1.r.take s1.size).length = s1.size := by simp only [List.length_take]; omega
      have hne : (s1.r.take s1.size).head? ≠ some 0 := by
        intro hz
        rcases Nat.lt_or_ge s1.size 2 with h2 | h2
        · obtain ⟨c, hc1⟩ := List.length_eq_one_iff.1 (show (s1.r.take s1.size).length = 1 by omega)
          rw [hc1] at hz h128
          simp at hz
          simp [hz, ofBytes_cons] at h128
        · exact hlead h2 (by rw [List.headD_eq_head?_getD, hz]; rfl)
      have hlt : ofBytes (s1.r.take s1.size) < 2 ^ 64 :=
        calc ofBytes (s1.r.take s1.size) < 256 ^ (s1.r.take s1.size).length := ofBytes_lt _
          _ ≤ 256 ^ 8 := Nat.pow_le_pow_right (by norm_num) (by omega)
          _ = 2 ^ 64 := by norm_num
      have hval : (ofBytes (s1.r.take s1.size)).toUInt64.toNat = ofBytes (s1.r.take s1.size) := by
        simp only [Nat.toUInt64, UInt64.toNat_ofNat', Nat.mod_eq_of_lt hlt]
      have hcanon : ¬ (s1.size = 1 ∧ (s1.r.take s1.size).headD 0 < 128) := by
        rintro ⟨h1, hh⟩
        obtain ⟨c, hc1⟩ := List.length_eq_one_iff.1 (show (s1.r.take s1.size).length = 1 by omega)
        rw [hc1] at hh h128
        simp [ofBytes_cons, UInt8.lt_iff_toNat_lt] at hh h128
        omega
      rw [hval, toBytes_ofBytes hne]
      exact (bytes_string hk1 he1).2 ⟨hroom, hlen, hcanon, rfl, rfl⟩

/-- What `Uint` accepts was read off the input as the encoding of the integer's shortest bytes. -/
theorem uint_sound {s s' : Stream} {x : UInt64} (hs : s.kind = none) (h : s.uint 64 = (.ok x, s')) :
    s.Reads (encode (.bytes (toBytes x.toNat))) s' :=
  (bytes_sound hs (uint_bytes hs h)).2

/-- A stream at the encoding of an integer, with room for it, reads the integer back with `Uint`. -/
theorem uint_complete {s : Stream} {n : Nat} {rest : List UInt8} (hn : n < 2 ^ 64) (hs : s.kind = none)
    (hroom : s.Room (encode (.bytes (toBytes n))).length) (hr : s.r = encode (.bytes (toBytes n)) ++ rest) :
    ∃ s', s.uint 64 = (.ok n.toUInt64, s') ∧ s.Reads (encode (.bytes (toBytes n))) s' := by
  obtain ⟨s', h, -⟩ := uint_encode hs hn hr hroom
  have hread := uint_sound hs h
  rw [show n.toUInt64.toNat = n by simp only [Nat.toUInt64, UInt64.toNat_ofNat', Nat.mod_eq_of_lt hn]] at hread
  exact ⟨s', h, hread⟩

/-! ### Inside a list -/

/-- The stream is inside a list of which `rest` is left: its input starts with `rest`, it has room for
`rest`, and the innermost list ends right after it. -/
structure InList (t : Stream) (rest : List UInt8) : Prop where
  kind : t.kind = none
  input : ∃ after, t.r = rest ++ after
  room : t.Room rest.length
  last : ∃ tos up, t.stack = tos :: up ∧ tos.pos + rest.length = tos.size

/-- Room for what is left of a list is room for its first bytes, then for the rest. -/
theorem InList.room_append {t : Stream} {e rest : List UInt8} (ht : InList t (e ++ rest)) :
    t.Room e.length ∧ (t.charge e.length).Room rest.length := by
  have h := ht.room
  rw [List.length_append, room_add] at h
  exact h

/-- Reading the first bytes of what is left of a list leaves the stream inside it. -/
theorem InList.reads {t t' : Stream} {e rest : List UInt8} (ht : InList t (e ++ rest)) (h : t.Reads e t') :
    InList t' rest where
  kind := h.kind
  input := by
    obtain ⟨after, hr⟩ := ht.input
    refine ⟨after, List.append_cancel_left (h.input.symm.trans ?_)⟩
    rw [hr, List.append_assoc]
  room := h.room_charge.2 ht.room_append.2
  last := by
    obtain ⟨tos, up, hst, hpos⟩ := ht.last
    refine ⟨⟨tos.pos + e.length, tos.size⟩, up, by rw [h.stack, hst]; rfl, ?_⟩
    rw [List.length_append] at hpos
    dsimp only
    omega

/-- With nothing left of the list, `Kind` reports its end. -/
theorem InList.getKind_nil {t : Stream} (ht : InList t []) : t.getKind = (.error .eol, { t with kinderr := none }) := by
  obtain ⟨tos, up, hst, hpos⟩ := ht.last
  exact getKind_at_end ht.kind hst (by simpa using hpos)

/-- A fresh stream over a list enters it, and is then inside the list with its payload ahead. -/
theorem list_reset {P : List UInt8} (hP : P.length < 2 ^ 64) :
    ∃ t, (Stream.reset (lengthPrefix 0xC0 P.length ++ P) 0).list = (.ok P.length, t) ∧ InList t P := by
  have htag : (0xC0 : UInt8) = tagOf .list := rfl
  rw [htag]
  generalize hH : lengthPrefix (tagOf .list) P.length = H
  have hroom : ∀ n, n ≤ (H ++ P).length → (Stream.reset (H ++ P) 0).Room n := fun n hn => (reset_room _ _).2 hn
  have hrem : ((Stream.reset (H ++ P) 0).charge H.length).remaining = P.length := by
    simp [charge, Stream.reset]
  have hg := (getKind_sized (s := Stream.reset (H ++ P) 0) (k := .list) rfl (by decide)).2
    ⟨hP, by rw [hH]; exact hroom _ (by simp), fun _ => by rw [hH, hrem], P, by rw [hH]; rfl, rfl⟩
  refine ⟨_, by rw [list_of_getKind hg, list_of_kind rfl rfl], rfl, ⟨[], by simp⟩, ⟨?_, ?_⟩, ⟨_, _, rfl, by simp⟩⟩
  · intro tos htos
    simp only [List.head?_cons, Option.mem_def, Option.some.injEq] at htos
    subst htos
    simp
  · intro _
    simp only
    rw [hH, hrem]

/-! ### The decoders of the element types -/

/-- `decodeByteSlice`: `Bytes`, a stream error turned into a decode error. -/
def decodeByteSlice (s : Stream) : Except Error (List UInt8) × Stream :=
  match s.bytes with
  | (.error e, s) => (.error (wrapStreamError e), s)
  | (.ok b, s) => (.ok b, s)

/-- `decodeString`: the same as `decodeByteSlice`, the bytes kept as a `string`. -/
def decodeString (s : Stream) : Except Error (List UInt8) × Stream := decodeByteSlice s

/-- `decodeUint` into an unsigned integer of `bits` bits. -/
def decodeUint (s : Stream) (bits : Nat) : Except Error UInt64 × Stream :=
  match s.uint bits with
  | (.error e, s) => (.error (wrapStreamError e), s)
  | (.ok v, s) => (.ok v, s)

/-- `decodeRawValue`: `Raw`. -/
def decodeRawValue (s : Stream) : Except Error (List UInt8) × Stream := s.raw

theorem wrapStreamError_eq_eol {e : Error} : wrapStreamError e = .eol ↔ e = .eol := by
  cases e <;> simp [wrapStreamError]

end Go420coin.Rlp
