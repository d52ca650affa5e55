import Go420coin.Rlp.Raw

/-!
# `Split` and the stream agree

`rlp/raw.go` splits a byte string with its own header parser (`readKind`, `readSize`), and the stream
of `rlp/decode.go` reads headers with another (`Stream.readKind`, `readUint`).  Both accept exactly the
canonical length prefixes of sizes the input holds (`readKind_sized`, `getKind_sized`), so `Split`
succeeds on a byte string exactly when a stream over it reads a value of the same kind, `Raw` gives
back the bytes `Split` consumed, and the string's contents are what `Bytes` returns; the one-byte
string check sits in `readKind` on one side and in `Bytes` on the other (`split_iff_stream`).

For integers, `AppendUint64`, the encoder's `encodeUint`, `SplitUint64` and the stream's `Uint`
agree, and both decoders accept only the canonical encoding of what they return
(`uint64_codec_roundtrip`).
-/

namespace Go420coin.Rlp

open BigEndian Go420coin.Rlp.Stream

/-! ### A stream over a header -/

theorem reset_room (b : List UInt8) (n : Nat) : (Stream.reset b 0).Room n ↔ n ≤ b.length := by
  simp [Room, Stream.reset]

/-- A fresh stream reads a byte below `0x80` as a value of its own. -/
private theorem reset_getKind_byte {x : UInt8} (hx : x < 0x80) (r : List UInt8) :
    ∃ s₁, (Stream.reset (x :: r) 0).getKind = (.ok (.byte, 0), s₁) ∧ s₁.kind = some .byte ∧
      s₁.kinderr = none ∧ s₁.byteval = x ∧ s₁.r = r :=
  ⟨_, (getKind_byte rfl).2 ⟨(reset_room _ 1).2 (by simp), rfl, x, r, rfl, hx, rfl⟩, rfl, rfl, rfl, rfl⟩

/-- A fresh stream reads a canonical header of a size the rest of the input holds, and then has room
for the contents. -/
private theorem reset_getKind_sized {k : Kind} (hk : k ≠ .byte) {cs : Nat} {r : List UInt8} (hcs : cs < 2 ^ 64)
    (hlen : cs ≤ r.length) :
    ∃ s₁, (Stream.reset (lengthPrefix (tagOf k) cs ++ r) 0).getKind = (.ok (k, cs), s₁) ∧ s₁.kind = some k ∧
      s₁.kinderr = none ∧ s₁.size = cs ∧ s₁.r = r ∧ s₁.Room cs := by
  refine ⟨_, (getKind_sized rfl hk).2 ⟨hcs, (reset_room _ _).2 (by simp), ?_, r, rfl, rfl⟩, rfl, rfl, rfl, rfl, ?_⟩
  · simp [ValueRoom, Stream.reset, charge, chargeStack]
    omega
  · simp [Room, Stream.reset, charge, chargeStack]
    omega

/-! ### `Split` against the stream -/

/-- `Split` succeeds on `b` with `(k, content, rest)` exactly when a stream over `b` reads a value of
kind `k` whose `Raw` is the part of `b` before `rest`, leaving `rest`, whose `Bytes` is `content` if it
is no list, and whose contents are `content` if it is a list. -/
theorem split_iff_stream (b : List UInt8) (k : Kind) (content rest : List UInt8) :
    split b = .ok (k, content, rest) ↔
      ∃ size s₁ s₂, (Stream.reset b 0).getKind = (.ok (k, size), s₁) ∧
        (Stream.reset b 0).raw = (.ok (b.take (b.length - rest.length)), s₂) ∧ s₂.r = rest ∧
        (k ≠ .list → ∃ s₃, (Stream.reset b 0).bytes = (.ok content, s₃)) ∧
        (k = .list → ∃ s₃, (Stream.reset b 0).list = (.ok size, s₃) ∧ s₃.r = content ++ rest) := by
  constructor
  · rw [split_eq_ok]
    rintro ⟨ts, cs, hrk, rfl, rfl⟩
    by_cases hkb : k = .byte
    · -- a byte below `0x80`: `Raw` and `Bytes` give it back
      subst hkb
      obtain ⟨rfl, rfl, x, r, rfl, hx⟩ := readKind_byte.1 hrk
      obtain ⟨s₁, hget, hk₁, he₁, hv₁, hr₁⟩ := reset_getKind_byte hx r
      refine ⟨0, s₁, { s₁ with kind := none }, hget, ?_, hr₁, fun _ => ⟨{ s₁ with kind := none }, ?_⟩,
        fun h => nomatch h⟩
      · rw [raw_of_getKind hget, raw_byte hk₁ he₁, hv₁]
        simp
      · rw [bytes_of_getKind hget, bytes_byte hk₁ he₁, hv₁]
        simp
    · -- a header: `Raw` puts the same header before the contents
      obtain ⟨hcs, rfl, r, rfl, hlen, hcanon⟩ := (readKind_sized hkb).1 hrk
      obtain ⟨s₁, hget, hk₁, he₁, hsz₁, hr₁, hroom⟩ := reset_getKind_sized hkb hcs hlen
      refine ⟨cs, s₁, { s₁.charge cs with r := r.drop cs }, hget, ?_, by simp, fun hkl => ?_, fun hkl => ?_⟩
      · have hconsumed : (lengthPrefix (tagOf k) cs ++ r).length -
            ((lengthPrefix (tagOf k) cs ++ r).drop ((lengthPrefix (tagOf k) cs).length + cs)).length =
            (lengthPrefix (tagOf k) cs).length + cs := by
          simp only [List.length_drop, List.length_append]
          omega
        rw [raw_of_getKind hget, (raw_sized hk₁ he₁ hkb (by omega)).2 ⟨by rwa [hsz₁], by rw [hsz₁, hr₁]; omega,
          rfl, rfl⟩, hconsumed, List.take_length_add_append, hsz₁, hr₁]
      · have hks : k = .string := by cases k <;> simp_all
        subst hks
        refine ⟨_, (bytes_of_getKind hget).trans ((bytes_string hk₁ he₁).2 ⟨by rwa [hsz₁],
          by rw [hsz₁, hr₁]; omega, ?_, by simp [hsz₁, hr₁], rfl⟩)⟩
        rintro ⟨h1, hh⟩
        rw [hsz₁] at h1
        subst h1
        rw [hr₁] at hh
        exact hcanon ⟨rfl, rfl, by cases r <;> simp_all⟩
      · subst hkl
        refine ⟨_, by rw [list_of_getKind hget, list_of_kind hk₁ he₁, hsz₁], ?_⟩
        simp [hr₁]
  · rintro ⟨size, s₁, s₂, hget, hraw, rfl, hbytes, hlist⟩
    by_cases hkb : k = .byte
    · subst hkb
      obtain ⟨-, rfl, x, r, rfl, hx, rfl⟩ := (getKind_byte rfl).1 hget
      rw [raw_of_getKind hget, raw_byte rfl rfl] at hraw
      obtain ⟨hs, rfl⟩ := Prod.mk.inj hraw
      obtain ⟨s₃, hb⟩ := hbytes (by decide)
      rw [bytes_of_getKind hget, bytes_byte rfl rfl] at hb
      cases hb
      rw [split_eq_ok]
      exact ⟨0, 1, readKind_cons_byte hx r, rfl, rfl⟩
    · obtain ⟨hsz, -, -, r, rfl, rfl⟩ := (getKind_sized rfl hkb).1 hget
      rw [raw_of_getKind hget] at hraw
      obtain ⟨-, hlen, -, rfl⟩ := (raw_sized rfl rfl hkb hsz).1 hraw
      simp only at hlen
      -- the contents: what `Bytes` returned for a string, what `List` leaves for a list
      have hcontent : content = r.take size ∧ ¬ (k = .string ∧ size = 1 ∧ r.headD 0 < 128) := by
        by_cases hkl : k = .list
        · subst hkl
          obtain ⟨s₃, hl, hr₃⟩ := hlist rfl
          rw [list_of_getKind hget, list_of_kind rfl rfl] at hl
          obtain ⟨-, rfl⟩ := Prod.mk.inj hl
          simp only at hr₃
          have hlen' : content.length = size := by
            have := congrArg List.length hr₃
            simp only [List.length_append, List.length_drop] at this
            omega
          refine ⟨?_, by simp⟩
          rw [← hlen', hr₃, List.take_left]
        · have hks : k = .string := by cases k <;> simp_all
          subst hks
          obtain ⟨s₃, hb⟩ := hbytes hkl
          rw [bytes_of_getKind hget] at hb
          obtain ⟨-, -, hc, rfl, -⟩ := (bytes_string rfl rfl).1 hb
          refine ⟨rfl, fun ⟨_, h1, hh⟩ => hc ⟨h1, ?_⟩⟩
          subst h1
          cases r <;> simp_all
      rw [split_eq_ok]
      refine ⟨(lengthPrefix (tagOf k) size).length, size,
        (readKind_sized hkb).2 ⟨hsz, rfl, r, rfl, hlen, hcontent.2⟩, by simp [hcontent.1], by simp⟩

/-! ### Integers -/

/-- A stream at the encoding of the shortest bytes of an integer, with room for it, reads the integer
back with `Uint`. -/
theorem uint_encode {s : Stream} (hk : s.kind = none) {n : Nat} (hn : n < 2 ^ 64) {rest : List UInt8}
    (hr : s.r = encode (.bytes (toBytes n)) ++ rest) (hroom : s.Room (encode (.bytes (toBytes n))).length) :
    ∃ s', s.uint 64 = (.ok n.toUInt64, s') ∧ s'.r = rest := by
  have h8 : (toBytes n).length ≤ 8 := length_toBytes_le.2 (by simpa using hn)
  by_cases hsingle : (toBytes n).length = 1 ∧ (toBytes n).headD 0 < 0x80
  · -- a byte below `0x80`, read as a value of its own
    obtain ⟨x, hx⟩ := List.length_eq_one_iff.1 hsingle.1
    have hx80 : x < 0x80 := by simpa [hx] using hsingle.2
    have henc : encode (.bytes (toBytes n)) = [x] := by simp [encode, hx, hx80]
    rw [henc] at hr hroom
    obtain ⟨s₁, hget, hk₁, he₁, hv₁, hr₁⟩ : ∃ s₁, s.getKind = (.ok (.byte, 0), s₁) ∧ s₁.kind = some .byte ∧
        s₁.kinderr = none ∧ s₁.byteval = x ∧ s₁.r = rest :=
      ⟨_, (getKind_byte hk).2 ⟨hroom, rfl, x, rest, by simpa using hr, hx80, rfl⟩, rfl, rfl, rfl, rfl⟩
    have hxn : x.toNat = n := by simpa [hx, ofBytes_cons] using ofBytes_toBytes n
    have hx0 : s₁.byteval ≠ 0 := by
      rw [hv₁]
      rintro rfl
      simp [← hxn] at hx
    have hval : s₁.byteval.toUInt64 = n.toUInt64 := by
      apply UInt64.toNat_inj.1
      simp [hv₁, hxn]
      omega
    exact ⟨{ s₁ with kind := none }, by rw [uint_of_getKind hget, uint_byte hk₁ he₁ hx0, hval], hr₁⟩
  · -- the string behind its length prefix, read as a big-endian integer
    have henc : encode (.bytes (toBytes n)) = lengthPrefix (Stream.tagOf .string) (toBytes n).length ++ toBytes n := by
      rw [encode, if_neg hsingle]
      rfl
    rw [henc] at hr hroom
    rw [List.length_append, room_add] at hroom
    obtain ⟨s₁, hget, hk₁, he₁, hsz₁, hr₁, hroom₁⟩ : ∃ s₁, s.getKind = (.ok (.string, (toBytes n).length), s₁) ∧
        s₁.kind = some .string ∧ s₁.kinderr = none ∧ s₁.size = (toBytes n).length ∧ s₁.r = toBytes n ++ rest ∧
        s₁.Room (toBytes n).length :=
      ⟨_, (getKind_sized hk (by decide)).2 ⟨by omega, hroom.1, valueRoom_of_room hroom.2, _, by rw [hr, List.append_assoc], rfl⟩,
        rfl, rfl, rfl, rfl, hroom.2⟩
    rw [uint_of_getKind hget]
    rcases Nat.eq_zero_or_pos (toBytes n).length with hl0 | hlpos
    · -- no bytes: zero
      have hn0 : n = 0 := toBytes_eq_nil.1 (List.length_eq_zero_iff.1 hl0)
      subst hn0
      refine ⟨_, (uint_string hk₁ he₁).2 ⟨by omega, .inl ⟨by rw [hsz₁, hl0], rfl, rfl⟩⟩, ?_⟩
      simp [hr₁]
    · -- a big-endian integer from 128 on
      have htake : s₁.r.take s₁.size = toBytes n := by rw [hr₁, hsz₁, List.take_left]
      have h128 : 128 ≤ n := by
        by_contra hlt
        have hn0 : n ≠ 0 := fun h => by simp [h] at hlpos
        rw [toBytes_of_lt_256 hn0 (by omega)] at hsingle
        simp [UInt8.lt_iff_toNat_lt, Nat.toUInt8] at hsingle
        omega
      refine ⟨_, (uint_string hk₁ he₁).2 ⟨by omega, .inr ⟨by omega, by rwa [hsz₁], by simp [hr₁, hsz₁],
        fun _ => ?_, by rw [htake, ofBytes_toBytes]; exact h128, by rw [htake, ofBytes_toBytes], rfl⟩⟩, ?_⟩
      · rw [htake]
        have := head_toBytes_ne_zero (show n ≠ 0 by omega)
        cases h : toBytes n with
        | nil => simp [h] at hlpos
        | cons c cs => simp_all
      · simp [hr₁, hsz₁]

/-- What `Uint` accepts is the encoding of the shortest bytes of the integer it returns. -/
theorem encode_of_uint {s s' : Stream} (hk : s.kind = none) {x : UInt64} (h : s.uint 64 = (.ok x, s')) :
    s.r = encode (.bytes (toBytes x.toNat)) ++ s'.r := by
  rcases hg : s.getKind with ⟨res, s₁⟩
  cases res with
  | error e => simp [uint, hg] at h
  | ok ksize =>
    obtain ⟨k, size⟩ := ksize
    rw [uint_of_getKind hg] at h
    cases k with
    | byte =>
      obtain ⟨-, rfl, b, rest, hr, hb, rfl⟩ := (getKind_byte hk).1 hg
      by_cases hb0 : b = 0
      · subst hb0
        simp [uint, getKind_cached, cached] at h
      rw [uint_byte rfl rfl hb0] at h
      simp only [Prod.mk.injEq, Except.ok.injEq] at h
      obtain ⟨rfl, rfl⟩ := h
      have hb0' : b.toNat ≠ 0 := fun h' => hb0 (UInt8.toNat_inj.1 (by simpa using h'))
      have htb : toBytes b.toUInt64.toNat = [b] := by
        rw [show b.toUInt64.toNat = b.toNat by simp, toBytes_of_lt_256 hb0' b.toNat_lt]
        simp [Nat.toUInt8]
      rw [hr, htb]
      simp [encode, hb]
    | string =>
      obtain ⟨hsz, -, -, rest, hr, rfl⟩ := (getKind_sized hk (by decide)).1 hg
      obtain ⟨h8, ⟨h0, rfl, rfl⟩ | ⟨hpos, -, hlen, hlead, h128, rfl, rfl⟩⟩ := (uint_string rfl rfl).1 h
      · -- no bytes: zero
        simp only at h0
        subst h0
        simpa [encode, lengthPrefix, tagOf] using hr
      · -- a big-endian integer from 128 on, without a leading zero
        simp only at hpos hlen hlead h128 h8 ⊢
        have hc : (rest.take size).length = size := by simp; omega
        have hne : (rest.take size).head? ≠ some 0 := by
          intro hz
          rcases Nat.lt_or_ge size 2 with h2 | h2
          · obtain ⟨c, hc1⟩ := List.length_eq_one_iff.1 (show (rest.take size).length = 1 by omega)
            rw [hc1] at hz h128
            simp at hz
            simp [hz, ofBytes_cons] at h128
          · exact hlead h2 (by rw [List.headD_eq_head?_getD, hz]; rfl)
        have hlt : ofBytes (rest.take size) < 2 ^ 64 :=
          calc ofBytes (rest.take size) < 256 ^ (rest.take size).length := ofBytes_lt _
            _ ≤ 256 ^ 8 := Nat.pow_le_pow_right (by norm_num) (by omega)
            _ = 2 ^ 64 := by norm_num
        have hval : (ofBytes (rest.take size)).toUInt64.toNat = ofBytes (rest.take size) := by
          simp only [Nat.toUInt64, UInt64.toNat_ofNat', Nat.mod_eq_of_lt hlt]
        rw [hval, toBytes_ofBytes hne, encode, if_neg, hc, hr, List.append_assoc, List.take_append_drop]
        · rfl
        · rintro ⟨h1, hh⟩
          obtain ⟨c, hc1⟩ := List.length_eq_one_iff.1 h1
          rw [hc1] at hh h128
          simp [ofBytes_cons, UInt8.lt_iff_toNat_lt] at hh h128
          omega
    | list =>
      obtain ⟨hk₁, -, he₁⟩ := getKind_ok_pending hk hg
      simp [uint, getKind_cached hk₁, cached, he₁] at h

/-- The encoder writes an integer as `AppendUint64` does. -/
theorem encodeUint_toBytes (i : UInt64) : (Encbuf.reset.encodeUint i).toBytes = appendUint64 [] i := by
  have hstr : ∀ str : List UInt8, (⟨str, [], 0⟩ : Encbuf).toBytes = str := fun str => by
    simp [Encbuf.toBytes, Encbuf.render]
  unfold Encbuf.encodeUint
  by_cases h0 : i = 0
  · subst h0
    rfl
  have hi0 : i.toNat ≠ 0 := fun h => h0 (UInt64.toNat_inj.1 (by simpa using h))
  by_cases h128 : i < 128
  · rw [if_neg h0, if_pos h128, appendUint64_of_lt h0 (UInt64.lt_iff_toNat_lt.1 h128)]
    exact hstr _
  · have hle : 128 ≤ i.toNat := by
      rw [UInt64.lt_iff_toNat_lt] at h128
      simpa using h128
    rw [if_neg h0, if_neg h128, appendUint64_of_le hle, putint_eq_toBytes hi0 i.toNat_lt]
    exact hstr _

/-- The integer codec of `rlp`: `SplitUint64` and the stream's `Uint` read back what `AppendUint64`
writes, which is what `EncodeToBytes` writes for a `uint64`; and both accept only the canonical
encoding of the integer they return. -/
theorem uint64_codec_roundtrip :
    (∀ (i : UInt64) (rest : List UInt8), splitUint64 (appendUint64 [] i ++ rest) = .ok (i, rest) ∧
      appendUint64 [] i = (Encbuf.reset.encodeUint i).toBytes ∧
      ∃ s', (Stream.reset (appendUint64 [] i ++ rest) 0).uint 64 = (.ok i, s') ∧ s'.r = rest) ∧
    (∀ (b : List UInt8) (x : UInt64) (r : List UInt8), splitUint64 b = .ok (x, r) → b = appendUint64 [] x ++ r) ∧
    (∀ (s s' : Stream) (x : UInt64), s.kind = none → s.uint 64 = (.ok x, s') → s.r = appendUint64 [] x ++ s'.r) := by
  refine ⟨fun i rest => ⟨?_, (encodeUint_toBytes i).symm, ?_⟩, fun b x r h => ?_, fun s s' x hk h => ?_⟩
  · -- `SplitUint64` reads the string, then its bytes as the integer
    have hlen : (toBytes i.toNat).length < 2 ^ 64 := by have := length_toBytes_toNat_le i; omega
    rw [appendUint64_eq_encode]
    exact (splitUint64_eq_ok (splitString_encode hlen rest)).2 ⟨rfl, rfl⟩
  · -- a fresh stream over the encoding has room for it
    have hlen : i.toNat < 2 ^ 64 := i.toNat_lt
    obtain ⟨s', hs', hr'⟩ := uint_encode (s := Stream.reset (appendUint64 [] i ++ rest) 0) rfl hlen
      (by rw [appendUint64_eq_encode]; rfl) ((reset_room _ _).2 (by rw [← appendUint64_eq_encode]; simp))
    exact ⟨s', by simpa using hs', hr'⟩
  · -- what `SplitUint64` accepts: a string, whose bytes are the integer's
    rcases hs : splitString b with e | ⟨content, rest⟩
    · simp [splitUint64, hs] at h
    · obtain ⟨rfl, rfl⟩ := (splitUint64_eq_ok hs).1 h
      rw [appendUint64_eq_encode]
      exact (encode_of_splitString hs).2
  · rw [appendUint64_eq_encode]
    exact encode_of_uint hk h

-- `0x81 0x05` wraps a byte that stands for itself: `Split` refuses it in its header parser, the
-- stream's `Raw` gives it back, and its `Bytes` refuses it

example : split [0x81, 0x05] = .error .canonSize := by decide
example : (Stream.reset [0x81, 0x05] 0).raw.1 = .ok [0x81, 0x05] := by decide
example : (Stream.reset [0x81, 0x05] 0).bytes.1 = .error .canonSize := by decide

end Go420coin.Rlp
