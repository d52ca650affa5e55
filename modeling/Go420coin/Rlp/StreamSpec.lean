import Go420coin.Rlp.Decode

/-!
# What each step of the RLP stream accepts

Specifications of the stream primitives of `Decode`, each an `iff` between a successful result and the
shape of the input.  `Room s n` says that `n` more bytes fit both the innermost list and the input
limit, and `charge s n` is the bookkeeping of reading them; `willRead` succeeds exactly when there is
room and then charges.  On top of it:

* `readUint` and `readSize` accept exactly the shortest big-endian encodings (`toBytes`), the latter
  only of sizes from 56 on;
* `readKind` reads a string or list header exactly when the input starts with `lengthPrefix` of its
  size, and a single byte below `0x80` as a value of its own;
* `Kind` (`getKind`) adds the check that the value fits the enclosing list (or the input limit), and
  reports `EOL` only at the end of the innermost list, without consuming anything.
-/

namespace Go420coin.Rlp
open BigEndian
namespace Stream

/-! ### Room and charges -/

/-- There is room for `n` more bytes in the innermost list and within the input limit. -/
def Room (s : Stream) (n : Nat) : Prop :=
  (∀ tos ∈ s.stack.head?, n ≤ tos.size - tos.pos) ∧ (s.limited = true → n ≤ s.remaining)

/-- The innermost list after `n` more of its bytes were read. -/
def chargeStack : List ListPos → Nat → List ListPos
  | [], _ => []
  | tos :: up, n => { tos with pos := tos.pos + n } :: up

/-- The bookkeeping of `willRead n`. -/
def charge (s : Stream) (n : Nat) : Stream :=
  { s with
    kind := none
    stack := chargeStack s.stack n
    remaining := if s.limited then s.remaining - n else s.remaining }

@[simp] theorem charge_r (s : Stream) (n : Nat) : (s.charge n).r = s.r := rfl
@[simp] theorem charge_kind (s : Stream) (n : Nat) : (s.charge n).kind = none := rfl
@[simp] theorem charge_limited (s : Stream) (n : Nat) : (s.charge n).limited = s.limited := rfl
@[simp] theorem charge_stack (s : Stream) (n : Nat) : (s.charge n).stack = chargeStack s.stack n := rfl

private theorem limit_ok (t : Stream) {s' : Stream} {n : Nat} :
    (if t.limited = true then
        (if n > t.remaining then ((.error .valueTooLarge : Except Error Unit), t)
        else (.ok (), { t with remaining := t.remaining - n }))
      else (.ok (), t)) = (.ok (), s') ↔
      (t.limited = true → n ≤ t.remaining) ∧
        s' = { t with remaining := if t.limited then t.remaining - n else t.remaining } := by
  rcases t with ⟨r, rem, lim, k, sz, bv, ke, st⟩
  cases lim
  · simp [eq_comm]
  · by_cases h : n > rem
    · simp [h, Nat.not_le.mpr h]
    · simp [h, Nat.le_of_not_lt h, eq_comm]

theorem willRead_ok {s s' : Stream} {n : Nat} :
    s.willRead n = (.ok (), s') ↔ s.Room n ∧ s' = s.charge n := by
  rcases s with ⟨r, remaining, limited, kind, size, byteval, kinderr, stack⟩
  cases stack with
  | nil => simpa [willRead, Room, charge, chargeStack] using
      limit_ok ⟨r, remaining, limited, none, size, byteval, kinderr, []⟩
  | cons tos up =>
    by_cases ht : n > tos.size - tos.pos
    · simp only [willRead, ht, if_true, Room, List.head?_cons, Option.mem_def, Option.some.injEq,
        forall_eq', Prod.mk.injEq, reduceCtorEq, false_and, false_iff, not_and]
      omega
    · have h' : n ≤ tos.size - tos.pos := by omega
      simpa [willRead, ht, Room, charge, chargeStack, h'] using
        limit_ok ⟨r, remaining, limited, none, size, byteval, kinderr, { tos with pos := tos.pos + n } :: up⟩

/-- `willRead` either charges the bytes or fails, and it fails exactly when there is no room. -/
theorem willRead_cases (s : Stream) (n : Nat) :
    (s.Room n ∧ s.willRead n = (.ok (), s.charge n)) ∨ (¬ s.Room n ∧ ∃ e t, s.willRead n = (.error e, t)) := by
  by_cases h : s.Room n
  · exact .inl ⟨h, willRead_ok.2 ⟨h, rfl⟩⟩
  · refine .inr ⟨h, ?_⟩
    rcases hw : s.willRead n with ⟨res, t⟩
    cases res with
    | error e => exact ⟨e, t, rfl⟩
    | ok u => exact absurd (willRead_ok.1 hw).1 h

/-! ### Bytes and integers -/

theorem readByte_ok {s s' : Stream} {b : UInt8} :
    s.readByte = (.ok b, s') ↔ s.Room 1 ∧ s.r.head? = some b ∧ s' = { s.charge 1 with r := s.r.tail } := by
  rcases willRead_cases s 1 with ⟨hroom, hw⟩ | ⟨hroom, e, t, hw⟩
  · cases hr : s.r with
    | nil => simp [readByte, hw, hr]
    | cons c rest => simp [readByte, hw, hr, hroom, eq_comm]
  · simp [readByte, hw, hroom]

theorem readFull_ok {s s' : Stream} {n : Nat} {bs : List UInt8} :
    s.readFull n = (.ok bs, s') ↔
      s.Room n ∧ n ≤ s.r.length ∧ bs = s.r.take n ∧ s' = { s.charge n with r := s.r.drop n } := by
  rcases willRead_cases s n with ⟨hroom, hw⟩ | ⟨hroom, e, t, hw⟩
  · by_cases hn : n ≤ s.r.length <;> simp [readFull, hw, hn, hroom, eq_comm]
  · simp [readFull, hw, hroom]

theorem charge_charge (s : Stream) (a b : Nat) : (s.charge a).charge b = s.charge (a + b) := by
  cases hs : s.stack <;> cases hl : s.limited <;>
    simp [charge, chargeStack, hs, hl, Nat.sub_sub, Nat.add_assoc]

theorem room_add {s : Stream} {a b : Nat} : s.Room (a + b) ↔ s.Room a ∧ (s.charge a).Room b := by
  cases hs : s.stack <;> cases hl : s.limited <;> simp [Room, charge, chargeStack, hs, hl] <;> omega

/-- `readUint` accepts `k` bytes of room and input, two or more of them without a leading zero. -/
theorem readUint_ok {s s' : Stream} {k v : Nat} (hk : 0 < k) :
    s.readUint k = (.ok v, s') ↔
      s.Room k ∧ k ≤ s.r.length ∧ (2 ≤ k → (s.r.take k).headD 0 ≠ 0) ∧ v = ofBytes (s.r.take k) ∧
        s' = { s.charge k with r := s.r.drop k } := by
  match k, hk with
  | 1, _ =>
    rcases hrb : s.readByte with ⟨res, t⟩
    cases res with
    | error e =>
      simp only [readUint, hrb, Prod.mk.injEq, reduceCtorEq, false_and, false_iff, not_and]
      intro hroom hlen _ _ ht
      obtain ⟨b, rest, hr⟩ : ∃ b rest, s.r = b :: rest := by
        cases h : s.r with
        | nil => simp [h] at hlen
        | cons b rest => exact ⟨b, rest, rfl⟩
      have := (readByte_ok (b := b)).2 ⟨hroom, by simp [hr], rfl⟩
      rw [hrb] at this
      simp at this
    | ok b =>
      obtain ⟨hroom, hhead, rfl⟩ := readByte_ok.1 hrb
      obtain ⟨rest, hr⟩ : ∃ rest, s.r = b :: rest := by
        cases h : s.r with
        | nil => simp [h] at hhead
        | cons c rest => simp_all
      simp [readUint, hrb, hroom, hr, ofBytes_cons, eq_comm]
  | k + 2, _ =>
    rcases hrf : s.readFull (k + 2) with ⟨res, t⟩
    cases res with
    | error e =>
      simp only [readUint, hrf, Prod.mk.injEq, reduceCtorEq, false_and, false_iff, not_and]
      intro hroom hlen _ _ ht
      have := readFull_ok.2 ⟨hroom, hlen, rfl, rfl⟩
      rw [hrf] at this
      simp at this
    | ok buf =>
      obtain ⟨hroom, hlen, rfl, rfl⟩ := readFull_ok.1 hrf
      simp only [readUint, hrf]
      by_cases h0 : (s.r.take (k + 2)).headD 0 = 0
      · rw [if_pos h0]
        simp only [List.headD_eq_head?_getD] at h0
        simp [h0]
      · rw [if_neg h0]
        simp only [List.headD_eq_head?_getD] at h0
        simp [hroom, hlen, h0, eq_comm]

/-- A long-form size is read exactly from the shortest encoding of a size of at least 56. -/
theorem readSize_ok {s s' : Stream} {k size : Nat} (hk : 0 < k) :
    s.readSize k = (size, none, s') ↔
      s.Room k ∧ 56 ≤ size ∧ (toBytes size).length = k ∧
        ∃ rest, s.r = toBytes size ++ rest ∧ s' = { s.charge k with r := rest } := by
  constructor
  · intro h
    unfold readSize at h
    rcases hu : s.readUint k with ⟨res, t⟩
    rw [hu] at h
    cases res with
    | error e => simp at h
    | ok v =>
      simp only [Prod.mk.injEq, ite_eq_right_iff, reduceCtorEq, imp_false, Nat.not_lt] at h
      obtain ⟨rfl, h56, rfl⟩ := h
      obtain ⟨hroom, hlen, hlead, rfl, rfl⟩ := (readUint_ok hk).1 hu
      have hne : (s.r.take k).head? ≠ some 0 := by
        intro h0
        obtain ⟨rest, hrest⟩ : ∃ rest, s.r.take k = 0 :: rest := by
          cases h' : s.r.take k with
          | nil => simp [h'] at h0
          | cons c rest => simp_all
        rcases Nat.lt_or_ge k 2 with hk2 | hk2
        · have hk1 : k = 1 := by omega
          subst hk1
          have : ofBytes (s.r.take 1) = 0 := by
            have hl : (s.r.take 1).length = 1 := by simp; omega
            rw [hrest] at hl ⊢
            simp at hl
            simp [hl, ofBytes_cons]
          omega
        · exact hlead hk2 (by simp [hrest])
      have htb := toBytes_ofBytes hne
      refine ⟨hroom, h56, ?_, s.r.drop k, ?_, rfl⟩
      · rw [htb]; simp; omega
      · rw [htb, List.take_append_drop]
  · rintro ⟨hroom, h56, hlen, rest, hr, rfl⟩
    have htake : s.r.take k = toBytes size := by rw [hr, ← hlen, List.take_left]
    have hdrop : s.r.drop k = rest := by rw [hr, ← hlen, List.drop_left]
    have hu : s.readUint k = (.ok size, { s.charge k with r := rest }) := by
      rw [readUint_ok hk, htake, hdrop]
      refine ⟨hroom, by rw [hr]; simp [hlen], fun _ h0 => ?_, by simp, rfl⟩
      have hne := head_toBytes_ne_zero (show size ≠ 0 by omega)
      cases h' : toBytes size with
      | nil => simp [h'] at hlen; omega
      | cons c rest' => simp_all
    simp [readSize, hu, Nat.not_lt.mpr h56]

/-! ### Headers -/

@[simp] theorem room_update (s : Stream) (n : Nat) (r : List UInt8) (b : UInt8) :
    ({ s with r := r, byteval := b } : Stream).Room n ↔ s.Room n := Iff.rfl

private theorem charge_update (s : Stream) (n : Nat) (r : List UInt8) (b : UInt8) :
    ({ s with r := r, byteval := b } : Stream).charge n = { s.charge n with r := r, byteval := b } := rfl

/-- The short-form tag of a string or list header. -/
def tagOf : Kind → UInt8
  | .byte => 0
  | .string => 0x80
  | .list => 0xC0

/-- `readKind` after reading a tag byte in the range of a string or a list. -/
private theorem readKind_tagged {s t : Stream} {b : UInt8} (hb : s.readByte = (.ok b, t)) {k : Kind}
    (hk : k ≠ .byte) (h1 : (tagOf k).toNat ≤ b.toNat) (h2 : b.toNat < (tagOf k).toNat + 64) :
    s.readKind =
      if b.toNat < (tagOf k).toNat + 56 then ((k, (b - tagOf k).toNat, none), { t with byteval := 0 })
      else
        let (size, err, s) := readSize { t with byteval := 0 } (b - (tagOf k + 55)).toNat
        ((k, size, err), s) := by
  cases k with
  | byte => exact absurd rfl hk
  | string =>
    have ht : (tagOf .string).toNat = 128 := rfl
    simp only [readKind, hb, UInt8.lt_iff_toNat_lt, UInt8.reduceToNat]
    split_ifs <;> first | rfl | omega
  | list =>
    have ht : (tagOf .list).toNat = 192 := rfl
    simp only [readKind, hb, UInt8.lt_iff_toNat_lt, UInt8.reduceToNat]
    split_ifs <;> first | rfl | omega

/-- The kind `readKind` reports is decided by the tag byte alone. -/
private theorem readKind_kind {s t : Stream} {b : UInt8} (hb : s.readByte = (.ok b, t)) :
    s.readKind.1.1 = if b.toNat < 0x80 then .byte else if b.toNat < 0xC0 then .string else .list := by
  simp only [readKind, hb, UInt8.lt_iff_toNat_lt, UInt8.reduceToNat]
  split_ifs <;> first | rfl | omega

private theorem readByte_ok_cons {s t : Stream} {b : UInt8} (hb : s.readByte = (.ok b, t)) :
    s.Room 1 ∧ ∃ tail, s.r = b :: tail ∧ t = { s.charge 1 with r := tail } := by
  obtain ⟨hroom1, hhead, rfl⟩ := readByte_ok.1 hb
  cases h' : s.r with
  | nil => simp [h'] at hhead
  | cons c tail => simp_all

/-- A string or list header is read exactly when the input starts with its canonical length prefix. -/
theorem readKind_sized {s s' : Stream} {k : Kind} {size : Nat} (hk : k ≠ .byte) :
    s.readKind = ((k, size, none), s') ↔
      size < 2 ^ 64 ∧ s.Room (lengthPrefix (tagOf k) size).length ∧
        ∃ rest, s.r = lengthPrefix (tagOf k) size ++ rest ∧
          s' = { s.charge (lengthPrefix (tagOf k) size).length with r := rest, byteval := 0 } := by
  have htag : (tagOf k).toNat + 64 ≤ 256 := by cases k <;> decide
  have htag' : 128 ≤ (tagOf k).toNat := by cases k <;> first | exact absurd rfl hk | decide
  have hkind : ∀ b : UInt8, (if b.toNat < 0x80 then Kind.byte else if b.toNat < 0xC0 then .string else .list) = k ↔
      (tagOf k).toNat ≤ b.toNat ∧ b.toNat < (tagOf k).toNat + 64 := by
    intro b
    have := b.toNat_lt
    cases k <;> simp only [tagOf, UInt8.reduceToNat] <;> split_ifs <;> simp <;> first | exact absurd rfl hk | omega
  constructor
  · intro h
    rcases hb : s.readByte with ⟨res, t⟩
    cases res with
    | error e =>
      have : s.readKind.1.1 = .byte := by simp [readKind, hb]
      rw [h] at this
      exact absurd this hk
    | ok b =>
      obtain ⟨hroom1, tail, hr, rfl⟩ := readByte_ok_cons hb
      obtain ⟨h1, h2⟩ := (hkind b).1 (by rw [← readKind_kind hb, h])
      rw [readKind_tagged hb hk h1 h2] at h
      split_ifs at h with h3
      · simp only [Prod.mk.injEq, true_and, and_true] at h
        obtain ⟨rfl, rfl⟩ := h
        have hle : tagOf k ≤ b := by simp only [UInt8.le_iff_toNat_le]; omega
        have hp := lengthPrefix_of_short_tag (by omega) h1 h3
        refine ⟨?_, by rw [hp]; exact hroom1, tail, by rw [hp, hr]; rfl, by rw [hp]; rfl⟩
        rw [UInt8.toNat_sub_of_le _ _ hle]
        omega
      · rcases hsz : readSize { s.charge 1 with r := tail, byteval := 0 } (b - (tagOf k + 55)).toNat with
          ⟨size', err, t'⟩
        rw [hsz] at h
        simp only [Prod.mk.injEq, true_and] at h
        obtain ⟨⟨rfl, rfl⟩, rfl⟩ := h
        have h55 : (tagOf k + 55).toNat = (tagOf k).toNat + 55 := by
          simp only [UInt8.toNat_add, UInt8.reduceToNat]; omega
        have hkk : (b - (tagOf k + 55)).toNat = b.toNat - ((tagOf k).toNat + 55) := by
          rw [UInt8.toNat_sub_of_le _ _ (by simp only [UInt8.le_iff_toNat_le, h55]; omega), h55]
        obtain ⟨hroomk, h56, hlen, rest, hr', rfl⟩ := (readSize_ok (by omega)).1 hsz
        change tail = _ at hr'
        have hp := lengthPrefix_of_long_tag (by omega) h2 htag h56 (by rw [hlen, hkk])
        refine ⟨?_, ?_, rest, ?_, ?_⟩
        · have := (length_toBytes_le (k := 8)).1 (by rw [hlen, hkk]; omega)
          simpa using this
        · rw [hp, List.length_cons, Nat.add_comm, hlen]
          exact room_add.2 ⟨hroom1, hroomk⟩
        · rw [hp, hr, hr']
          rfl
        · rw [hp, List.length_cons, charge_update, charge_update, charge_charge, hlen, Nat.add_comm]
  · rintro ⟨hsz, hroom, rest, hr, rfl⟩
    rcases lengthPrefix_cases (tagOf k) hsz with ⟨h56, hp⟩ | ⟨h56, hk1, hk8, hp⟩
    · rw [hp] at hr hroom
      have hb : s.readByte = (.ok (tagOf k + size.toUInt8), { s.charge 1 with r := rest }) :=
        readByte_ok.2 ⟨hroom, by simp [hr], by simp [hr]⟩
      have hv : (tagOf k + size.toUInt8 : UInt8).toNat = (tagOf k).toNat + size := by
        simp [Nat.toUInt8]; omega
      rw [readKind_tagged hb hk (by omega) (by omega), if_pos (by omega), hp]
      simp only [Prod.mk.injEq, true_and, List.length_singleton, and_true]
      rw [UInt8.toNat_sub_of_le _ _ (by simp only [UInt8.le_iff_toNat_le, hv]; omega), hv]
      simp
    · rw [hp] at hr hroom
      rw [List.length_cons, Nat.add_comm] at hroom
      obtain ⟨hroom1, hroomk⟩ := room_add.1 hroom
      have hb : s.readByte = (.ok (tagOf k + 55 + (toBytes size).length.toUInt8),
          { s.charge 1 with r := toBytes size ++ rest }) :=
        readByte_ok.2 ⟨hroom1, by simp [hr], by simp [hr]⟩
      have hv : (tagOf k + 55 + (toBytes size).length.toUInt8 : UInt8).toNat =
          (tagOf k).toNat + 55 + (toBytes size).length := by
        simp [Nat.toUInt8]; omega
      have h55 : (tagOf k + 55).toNat = (tagOf k).toNat + 55 := by
        simp only [UInt8.toNat_add, UInt8.reduceToNat]; omega
      have hkk : (tagOf k + 55 + (toBytes size).length.toUInt8 - (tagOf k + 55) : UInt8).toNat =
          (toBytes size).length := by
        rw [UInt8.toNat_sub_of_le _ _ (by simp only [UInt8.le_iff_toNat_le, hv, h55]; omega), hv, h55]
        simp
      have hsz' : readSize { s.charge 1 with r := toBytes size ++ rest, byteval := 0 } (toBytes size).length =
          (size, none, { ({ s.charge 1 with r := toBytes size ++ rest, byteval := 0 } : Stream).charge
            (toBytes size).length with r := rest }) :=
        (readSize_ok (by omega)).2 ⟨hroomk, h56, rfl, rest, rfl, rfl⟩
      rw [readKind_tagged hb hk (by omega) (by omega), if_neg (by omega)]
      simp only [hkk, hsz', hp, Prod.mk.injEq, true_and, List.length_cons]
      rw [charge_update, charge_charge, Nat.add_comm]

theorem readKind_byte {s s' : Stream} {size : Nat} :
    s.readKind = ((.byte, size, none), s') ↔
      s.Room 1 ∧ size = 0 ∧ ∃ b rest, s.r = b :: rest ∧ b < 0x80 ∧
        s' = { s.charge 1 with r := rest, byteval := b } := by
  constructor
  · intro h
    rcases hb : s.readByte with ⟨res, t⟩
    cases res with
    | error e => simp [readKind, hb] at h
    | ok b =>
      obtain ⟨hroom1, tail, hr, rfl⟩ := readByte_ok_cons hb
      simp only [readKind, hb, UInt8.lt_iff_toNat_lt, UInt8.reduceToNat] at h
      split_ifs at h with h1
      · simp only [Prod.mk.injEq, true_and, and_true] at h
        obtain ⟨rfl, rfl⟩ := h
        exact ⟨hroom1, rfl, b, tail, hr, by simpa [UInt8.lt_iff_toNat_lt] using h1, rfl⟩
      all_goals simp at h
  · rintro ⟨hroom, rfl, b, rest, hr, hb80, rfl⟩
    have hb : s.readByte = (.ok b, { s.charge 1 with r := rest }) :=
      readByte_ok.2 ⟨hroom, by simp [hr], by simp [hr]⟩
    simp only [readKind, hb, hb80, if_true]


/-! ### `Kind` -/

/-- The check `Kind` makes once a header is read: the value must fit the innermost list, or at top level
the input limit. -/
def ValueRoom (s : Stream) (n : Nat) : Prop :=
  match s.stack with
  | tos :: _ => n ≤ tos.size - tos.pos
  | [] => s.limited = true → n ≤ s.remaining

theorem valueRoom_of_room {s : Stream} {n : Nat} (h : s.Room n) : s.ValueRoom n := by
  unfold ValueRoom
  split
  · next tos _ hst => exact h.1 tos (by simp [hst])
  · exact h.2

theorem getKind_ok {s s' : Stream} {k : Kind} {size : Nat} (hs : s.kind = none) :
    s.getKind = (.ok (k, size), s') ↔
      (∀ tos ∈ s.stack.head?, tos.pos ≠ tos.size) ∧
        ∃ t, { s with kinderr := none }.readKind = ((k, size, none), t) ∧
          (s.stack = [] → t.limited = true → size ≤ t.remaining) ∧
          (s.stack ≠ [] → ∀ tos ∈ t.stack.head?, size ≤ tos.size - tos.pos) ∧
          s' = { t with kind := some k, size := size, kinderr := none } := by
  rcases s with ⟨r, rem, lim, kd, sz, bv, ke, st⟩
  simp only at hs
  subst hs
  cases st with
  | nil =>
    rcases hrk : readKind ⟨r, rem, lim, none, sz, bv, none, []⟩ with ⟨⟨k', size', err⟩, t⟩
    simp only [getKind, hrk]
    cases err with
    | some e => simp [cached]
    | none =>
      by_cases hv : t.limited = true ∧ size' > t.remaining
      · simp [cached, if_pos hv]
        intro _ _ h
        have := h hv.1
        omega
      · simp [cached, if_neg hv]
        rintro rfl rfl
        refine ⟨fun h => ⟨fun hl => ?_, h.symm⟩, fun h => h.2.symm⟩
        have := not_and.1 hv hl
        omega
  | cons tos up =>
    simp only [getKind]
    by_cases hp : tos.pos = tos.size
    · simp [hp]
    rcases hrk : readKind ⟨r, rem, lim, none, sz, bv, none, tos :: up⟩ with ⟨⟨k', size', err⟩, t⟩
    simp only [hp, if_false]
    cases err with
    | some e => simp [cached]
    | none =>
      cases hts : t.stack with
      | nil =>
        simp [cached, hp, hts]
        rintro rfl rfl
        exact eq_comm
      | cons tos' up' =>
        by_cases hv : size' > tos'.size - tos'.pos
        · simp [cached, hp, hts, if_pos hv]
          omega
        · simp [cached, hp, hts, if_neg hv]
          rintro rfl rfl
          exact ⟨fun h => ⟨by omega, h.symm⟩, fun h => h.2.symm⟩

private theorem pos_ne_size {s : Stream} {n : Nat} (h : s.Room n) (hn : 0 < n) :
    ∀ tos ∈ s.stack.head?, tos.pos ≠ tos.size := by
  intro tos htos
  have := h.1 tos htos
  omega

private theorem valueRoom_charge {s : Stream} {n size : Nat} :
    (s.charge n).ValueRoom size ↔
      (s.stack = [] → (s.charge n).limited = true → size ≤ (s.charge n).remaining) ∧
      (s.stack ≠ [] → ∀ tos ∈ (s.charge n).stack.head?, size ≤ tos.size - tos.pos) := by
  cases h : s.stack <;> simp [ValueRoom, h, chargeStack]

theorem getKind_sized {s s' : Stream} {k : Kind} {size : Nat} (hs : s.kind = none) (hk : k ≠ .byte) :
    s.getKind = (.ok (k, size), s') ↔
      size < 2 ^ 64 ∧ s.Room (lengthPrefix (tagOf k) size).length ∧
        (s.charge (lengthPrefix (tagOf k) size).length).ValueRoom size ∧
        ∃ rest, s.r = lengthPrefix (tagOf k) size ++ rest ∧
          s' = { s.charge (lengthPrefix (tagOf k) size).length with
                 r := rest, byteval := 0, kind := some k, size := size, kinderr := none } := by
  rw [getKind_ok hs, valueRoom_charge]
  constructor
  · rintro ⟨-, t, hrk, htop, hin, rfl⟩
    obtain ⟨hsz, hroom, rest, hr, rfl⟩ := (readKind_sized hk).1 hrk
    exact ⟨hsz, hroom, ⟨htop, hin⟩, rest, hr, rfl⟩
  · rintro ⟨hsz, hroom, ⟨htop, hin⟩, rest, hr, rfl⟩
    exact ⟨pos_ne_size hroom (length_lengthPrefix_pos _ _), _,
      (readKind_sized hk).2 ⟨hsz, hroom, rest, hr, rfl⟩, htop, hin, rfl⟩

theorem getKind_byte {s s' : Stream} {size : Nat} (hs : s.kind = none) :
    s.getKind = (.ok (.byte, size), s') ↔
      s.Room 1 ∧ size = 0 ∧ ∃ b rest, s.r = b :: rest ∧ b < 0x80 ∧
        s' = { s.charge 1 with r := rest, byteval := b, kind := some .byte, size := 0, kinderr := none } := by
  rw [getKind_ok hs]
  constructor
  · rintro ⟨-, t, hrk, -, -, rfl⟩
    obtain ⟨hroom, rfl, b, rest, hr, hb, rfl⟩ := readKind_byte.1 hrk
    exact ⟨hroom, rfl, b, rest, hr, hb, rfl⟩
  · rintro ⟨hroom, rfl, b, rest, hr, hb, rfl⟩
    exact ⟨pos_ne_size hroom Nat.one_pos, _, readKind_byte.2 ⟨hroom, rfl, b, rest, hr, hb, rfl⟩,
      fun _ _ => Nat.zero_le _, fun _ _ _ => Nat.zero_le _, rfl⟩

theorem getKind_cached {s : Stream} {k : Kind} (hs : s.kind = some k) : s.getKind = (s.cached k, s) := by
  simp [getKind, hs]


/-! ### Only `Kind` at the end of a list reports `EOL` -/

private theorem willRead_ne_eol {s t : Stream} {n : Nat} {e : Error} (h : s.willRead n = (.error e, t)) :
    e ≠ .eol := by
  cases hst : s.stack <;> simp only [willRead, hst] at h <;> split_ifs at h <;> grind

private theorem readByte_ne_eol {s t : Stream} {e : Error} (h : s.readByte = (.error e, t)) : e ≠ .eol := by
  simp only [readByte] at h
  split at h
  · rename_i hw
    grind [willRead_ne_eol hw]
  · split at h <;> grind

private theorem readFull_ne_eol {s t : Stream} {n : Nat} {e : Error} (h : s.readFull n = (.error e, t)) :
    e ≠ .eol := by
  simp only [readFull] at h
  split at h
  · rename_i hw
    grind [willRead_ne_eol hw]
  · split_ifs at h <;> grind

private theorem readUint_ne_eol {s t : Stream} {n : Nat} {e : Error} (h : s.readUint n = (.error e, t)) :
    e ≠ .eol := by
  match n with
  | 0 => simp [readUint] at h
  | 1 =>
    simp only [readUint] at h
    split at h
    · rename_i hb
      grind [readByte_ne_eol hb]
    · grind
  | n + 2 =>
    simp only [readUint] at h
    split at h
    · rename_i hf
      grind [readFull_ne_eol hf]
    · split_ifs at h <;> grind

private theorem readSize_ne_eol (s : Stream) (n : Nat) : (s.readSize n).2.1 ≠ some .eol := by
  simp only [readSize]
  split
  · rename_i hu
    grind [readUint_ne_eol hu]
  · split_ifs <;> simp

private theorem readKind_ne_eol {s t : Stream} {k : Kind} {size : Nat} {e : Error}
    (h : s.readKind = ((k, size, some e), t)) : e ≠ .eol := by
  simp only [readKind] at h
  split at h
  · rename_i hb
    have := readByte_ne_eol hb
    split_ifs at h <;> (try split at h) <;> grind
  · split_ifs at h
    all_goals first
      | grind
      | (have h' := congrArg (fun p => p.1.2.2) h
         simp only at h'
         rintro rfl
         exact readSize_ne_eol _ _ h')


theorem getKind_at_end {s : Stream} {tos : ListPos} {up : List ListPos} (hs : s.kind = none)
    (hst : s.stack = tos :: up) (hp : tos.pos = tos.size) : s.getKind = (.error .eol, { s with kinderr := none }) := by
  simp [getKind, hs, hst, hp]

/-- `Kind` reports `EOL` only at the end of the innermost list, and then leaves the input alone. -/
theorem getKind_eol_spec {s s' : Stream} (hs : s.kind = none) (h : s.getKind = (.error .eol, s')) :
    (∃ tos up, s.stack = tos :: up ∧ tos.pos = tos.size) ∧ s' = { s with kinderr := none } := by
  rcases s with ⟨r, rem, lim, kd, sz, bv, ke, st⟩
  simp only at hs
  subst hs
  cases st with
  | nil =>
    -- a top-level read never reports `EOL`
    rcases hrk : readKind ⟨r, rem, lim, none, sz, bv, none, []⟩ with ⟨⟨k', size', err⟩, t⟩
    simp only [getKind, hrk] at h
    cases err with
    | some e => grind [cached, readKind_ne_eol hrk]
    | none => split_ifs at h <;> grind [cached]
  | cons tos up =>
    simp only [getKind] at h
    by_cases hp : tos.pos = tos.size
    · simp only [hp, if_true, Prod.mk.injEq] at h
      exact ⟨⟨tos, up, rfl, hp⟩, h.2.symm⟩
    rcases hrk : readKind ⟨r, rem, lim, none, sz, bv, none, tos :: up⟩ with ⟨⟨k', size', err⟩, t⟩
    simp only [hp, if_false, hrk] at h
    cases err with
    | some e => grind [cached, readKind_ne_eol hrk]
    | none => split at h <;> grind [cached]

theorem getKind_ok_pending {s s1 : Stream} {k : Kind} {size : Nat} (hs : s.kind = none)
    (h : s.getKind = (.ok (k, size), s1)) : s1.kind = some k ∧ s1.size = size ∧ s1.kinderr = none := by
  obtain ⟨-, t, -, -, -, rfl⟩ := (getKind_ok hs).1 h
  exact ⟨rfl, rfl, rfl⟩

theorem bytes_ne_eol {s : Stream} {k : Kind} (hk : s.kind = some k) (he : s.kinderr = none) :
    s.bytes.1 ≠ .error .eol := by
  simp only [bytes, getKind_cached hk, cached, he]
  cases k with
  | byte => simp
  | string =>
    dsimp only
    split
    · rename_i hf
      simpa using readFull_ne_eol hf
    · split_ifs <;> simp
  | list => simp

theorem listEnd_ne_eol (s : Stream) : s.listEnd.1 ≠ .error .eol := by
  unfold listEnd
  split
  · simp
  · split_ifs <;> simp

/-! ### Reading a value whose kind is known -/

theorem bytes_byte {s : Stream} (hk : s.kind = some .byte) (he : s.kinderr = none) :
    s.bytes = (.ok [s.byteval], { s with kind := none }) := by
  simp [bytes, getKind_cached hk, cached, he]

theorem bytes_string {s s' : Stream} {b : List UInt8} (hk : s.kind = some .string) (he : s.kinderr = none) :
    s.bytes = (.ok b, s') ↔
      s.Room s.size ∧ s.size ≤ s.r.length ∧ ¬ (s.size = 1 ∧ (s.r.take s.size).headD 0 < 128) ∧
        b = s.r.take s.size ∧ s' = { s.charge s.size with r := s.r.drop s.size } := by
  simp only [bytes, getKind_cached hk, cached, he]
  rcases hf : s.readFull s.size with ⟨res, t⟩
  cases res with
  | error e =>
    simp only [Prod.mk.injEq, reduceCtorEq, false_and, false_iff, not_and]
    intro hroom hlen
    simp [readFull_ok.2 ⟨hroom, hlen, rfl, rfl⟩] at hf
  | ok bs =>
    obtain ⟨hroom, hlen, rfl, rfl⟩ := readFull_ok.1 hf
    dsimp only
    by_cases hc : s.size = 1 ∧ (s.r.take s.size).headD 0 < 128
    · rw [if_pos hc]
      simp only [Prod.mk.injEq, reduceCtorEq, false_and, false_iff, not_and]
      exact fun _ _ h => (h hc.1 hc.2).elim
    · rw [if_neg hc]
      simp only [Prod.mk.injEq, Except.ok.injEq]
      constructor
      · rintro ⟨rfl, rfl⟩
        exact ⟨hroom, hlen, hc, rfl, rfl⟩
      · rintro ⟨-, -, -, rfl, rfl⟩
        exact ⟨rfl, rfl⟩

theorem list_of_kind {s : Stream} (hk : s.kind = some .list) (he : s.kinderr = none) :
    s.list = (.ok s.size, { s with stack := ⟨0, s.size⟩ :: s.stack, kind := none, size := 0 }) := by
  simp [list, getKind_cached hk, cached, he]

/-- A successful `Kind` caches its answer: asking again returns it without reading. -/
theorem getKind_again {s s₁ : Stream} {k : Kind} {size : Nat} (h : s.getKind = (.ok (k, size), s₁)) :
    s₁.getKind = (.ok (k, size), s₁) := by
  cases hk : s.kind with
  | none =>
    obtain ⟨hk₁, rfl, he₁⟩ := getKind_ok_pending hk h
    simp [getKind_cached hk₁, cached, he₁]
  | some k' =>
    rw [getKind_cached hk] at h
    obtain ⟨h, rfl⟩ := Prod.mk.inj h
    rw [getKind_cached hk, h]

/-- The operations that start with `Kind` go on from where a successful `Kind` left the stream. -/
theorem raw_of_getKind {s s₁ : Stream} {k : Kind} {size : Nat} (h : s.getKind = (.ok (k, size), s₁)) :
    s.raw = s₁.raw := by
  unfold raw
  rw [h, getKind_again h]

theorem bytes_of_getKind {s s₁ : Stream} {k : Kind} {size : Nat} (h : s.getKind = (.ok (k, size), s₁)) :
    s.bytes = s₁.bytes := by
  unfold bytes
  rw [h, getKind_again h]

theorem list_of_getKind {s s₁ : Stream} {k : Kind} {size : Nat} (h : s.getKind = (.ok (k, size), s₁)) :
    s.list = s₁.list := by
  unfold list
  rw [h, getKind_again h]

theorem uint_of_getKind {s s₁ : Stream} {k : Kind} {size : Nat} (h : s.getKind = (.ok (k, size), s₁))
    (maxbits : Nat) : s.uint maxbits = s₁.uint maxbits := by
  unfold uint
  rw [h, getKind_again h]

theorem raw_byte {s : Stream} (hk : s.kind = some .byte) (he : s.kinderr = none) :
    s.raw = (.ok [s.byteval], { s with kind := none }) := by
  simp [raw, getKind_cached hk, cached, he]

/-- `Raw` of a string or list: the contents read, behind the canonical header of their size. -/
theorem raw_sized {s s' : Stream} {k : Kind} {out : List UInt8} (hk : s.kind = some k) (he : s.kinderr = none)
    (hkb : k ≠ .byte) (hsz : s.size < 2 ^ 64) :
    s.raw = (.ok out, s') ↔
      s.Room s.size ∧ s.size ≤ s.r.length ∧ out = lengthPrefix (tagOf k) s.size ++ s.r.take s.size ∧
        s' = { s.charge s.size with r := s.r.drop s.size } := by
  have hhead : (if k = .string then puthead 0x80 0xB7 s.size else puthead 0xC0 0xF7 s.size) =
      lengthPrefix (tagOf k) s.size := by
    cases k with
    | byte => exact absurd rfl hkb
    | string => exact @puthead_eq_lengthPrefix 0x80 s.size hsz
    | list => exact @puthead_eq_lengthPrefix 0xC0 s.size hsz
  simp only [raw, getKind_cached hk, cached, he, hkb, if_false]
  rcases hf : s.readFull s.size with ⟨res, t⟩
  cases res with
  | error e =>
    simp only [Prod.mk.injEq, reduceCtorEq, false_and, false_iff, not_and]
    intro hroom hlen
    simp [readFull_ok.2 ⟨hroom, hlen, rfl, rfl⟩] at hf
  | ok bs =>
    obtain ⟨hroom, hlen, rfl, rfl⟩ := readFull_ok.1 hf
    simp only [hhead, Prod.mk.injEq, Except.ok.injEq]
    constructor
    · rintro ⟨rfl, rfl⟩
      exact ⟨hroom, hlen, rfl, rfl⟩
    · rintro ⟨-, -, rfl, rfl⟩
      exact ⟨rfl, rfl⟩

theorem uint_byte {s : Stream} (hk : s.kind = some .byte) (he : s.kinderr = none) (hb : s.byteval ≠ 0)
    (maxbits : Nat) : s.uint maxbits = (.ok s.byteval.toUInt64, { s with kind := none }) := by
  simp [uint, getKind_cached hk, cached, he, hb]

/-- `uint` of a string: no more than `maxbits / 8` bytes, none for zero, else a big-endian integer from
128 on, two or more bytes without a leading zero. -/
theorem uint_string {s s' : Stream} {maxbits : Nat} {v : UInt64} (hk : s.kind = some .string)
    (he : s.kinderr = none) :
    s.uint maxbits = (.ok v, s') ↔
      s.size ≤ maxbits / 8 ∧
        ((s.size = 0 ∧ v = 0 ∧ s' = { s with kind := none }) ∨
         (0 < s.size ∧ s.Room s.size ∧ s.size ≤ s.r.length ∧ (2 ≤ s.size → (s.r.take s.size).headD 0 ≠ 0) ∧
           128 ≤ ofBytes (s.r.take s.size) ∧ v = (ofBytes (s.r.take s.size)).toUInt64 ∧
           s' = { s.charge s.size with r := s.r.drop s.size })) := by
  simp only [uint, getKind_cached hk, cached, he]
  by_cases hsz : s.size > maxbits / 8
  · rw [if_pos hsz]
    simp only [Prod.mk.injEq, reduceCtorEq, false_and, false_iff, not_and]
    omega
  rw [if_neg hsz]
  rcases hs0 : s.size with _ | size
  · -- no bytes: zero
    simp [readUint, eq_comm, hs0, he]
  have hpos : 0 < size + 1 := Nat.succ_pos size
  rcases hu : s.readUint (size + 1) with ⟨res, t⟩
  cases res with
  | error e =>
    have hno : ¬ (s.Room (size + 1) ∧ size + 1 ≤ s.r.length ∧ (2 ≤ size + 1 → (s.r.take (size + 1)).headD 0 ≠ 0)) := by
      rintro ⟨hroom, hlen, hlead⟩
      have := (readUint_ok hpos).2 ⟨hroom, hlen, hlead, rfl, rfl⟩
      rw [hu] at this
      cases this
    constructor
    · intro h
      cases e <;> simp at h
    · rintro ⟨-, ⟨h0, -⟩ | ⟨-, hroom, hlen, hlead, -⟩⟩
      · cases h0
      · exact absurd ⟨hroom, hlen, hlead⟩ hno
  | ok w =>
    obtain ⟨hroom, hlen, hlead, rfl, rfl⟩ := (readUint_ok hpos).1 hu
    simp only [Nat.succ_ne_zero, false_and, false_or, hpos, true_and, hroom, hlen]
    by_cases h128 : ofBytes (s.r.take (size + 1)) < 128
    · simp [h128]
    · simp only [h128, if_false, Prod.mk.injEq, Except.ok.injEq]
      constructor
      · rintro ⟨rfl, rfl⟩
        exact ⟨by omega, hlead, by omega, rfl, rfl⟩
      · rintro ⟨-, -, -, rfl, rfl⟩
        exact ⟨rfl, rfl⟩

theorem listEnd_ok {s s' : Stream} :
    s.listEnd = (.ok (), s') ↔
      ∃ tos up, s.stack = tos :: up ∧ tos.pos = tos.size ∧
        s' = { s with stack := chargeStack up tos.size, kind := none, size := 0 } := by
  unfold listEnd
  cases hst : s.stack with
  | nil => simp
  | cons tos up =>
    by_cases hp : tos.pos = tos.size
    · cases up <;> simp [hp, chargeStack, eq_comm]
    · simp [hp]

end Stream
end Go420coin.Rlp
