import Go420coin.Rlp.StreamSpec

/-!
# RLP decoding is canonical

`DecodeBytes` into an `interface{}` accepts exactly the encodings of the values that fit the encoder,
and `EncodeToBytes` gives back the input it accepted (`decodeBytes_canonical`).

The decoder is specified against the abstract encoding `encode` by a relation `Reads s e s'`: from
stream `s` the bytes `e` were read and charged, leaving `s'`.
* Soundness (`decodeInterface_sound`): every value `decodeInterface` returns was read as its
  encoding.  The element loop (`decodeSliceElems_sound`) needs that the element decoder reports `EOL`
  only without reading (`decodeInterface_eol`), and closing a list needs its payload to fill it
  (`reads_listEnd`).
* Completeness (`decodeInterface_complete`): from the encoding of a fitting value with room for it,
  `decodeInterface` returns the value, given the nesting depth as fuel; the element loop runs once
  per element and once more for `EOL` (`decodeSliceElems_complete`).

`DecodeBytes` gives `decodeInterface` one more level of fuel than the input has bytes, and every level
of nesting takes at least a byte (`depth_le_length`).
-/

namespace Go420coin.Rlp
open BigEndian

/-! ### Sizes of encodings -/

mutual
/-- The nesting depth of a value: the recursion depth `decodeInterface` needs for it. -/
def Value.depth : Value → Nat
  | .bytes _ => 1
  | .list vs => Value.depthList vs + 1

/-- The largest depth of the elements of a list. -/
def Value.depthList : List Value → Nat
  | [] => 0
  | v :: vs => max v.depth (Value.depthList vs)
end

theorem encode_ne_nil (v : Value) : encode v ≠ [] := by
  cases v with
  | bytes b =>
    unfold encode
    split_ifs with h
    · rintro rfl
      simp at h
    · simp [List.append_eq_nil_iff, ← List.length_pos_iff, length_lengthPrefix_pos]
  | list vs => simp [encode, List.append_eq_nil_iff, ← List.length_pos_iff, length_lengthPrefix_pos]

theorem length_le_encodeList (vs : List Value) : vs.length ≤ (encodeList vs).length := by
  induction vs with
  | nil => exact le_refl _
  | cons v vs ih =>
    have := List.length_pos_iff.2 (encode_ne_nil v)
    simp only [encodeList, List.length_cons, List.length_append]
    omega

theorem encodeList_eq_nil {vs : List Value} : encodeList vs = [] ↔ vs = [] := by
  cases vs with
  | nil => simp [encodeList]
  | cons v vs => simp [encodeList, encode_ne_nil]

mutual
theorem depth_le_length : ∀ v : Value, v.depth ≤ (encode v).length
  | .bytes b => by
    have := List.length_pos_iff.2 (encode_ne_nil (.bytes b))
    simp only [Value.depth]
    omega
  | .list vs => by
    have := depthList_le_length vs
    have := length_lengthPrefix_pos 0xC0 (encodeList vs).length
    simp only [Value.depth, encode, List.length_append]
    omega

theorem depthList_le_length : ∀ vs : List Value, Value.depthList vs ≤ (encodeList vs).length
  | [] => le_refl _
  | v :: vs => by
    have := depth_le_length v
    have := depthList_le_length vs
    simp only [Value.depthList, encodeList, List.length_append]
    omega
end

theorem depth_le_of_mem {v : Value} {vs : List Value} (h : v ∈ vs) : v.depth ≤ Value.depthList vs := by
  induction vs with
  | nil => simp at h
  | cons w ws ih =>
    simp only [Value.depthList]
    rcases List.mem_cons.1 h with rfl | h
    · exact le_max_left _ _
    · exact le_trans (ih h) (le_max_right _ _)

theorem fits_of_mem {v : Value} {vs : List Value} (hf : Value.fitsList vs) (h : v ∈ vs) : v.fits := by
  induction vs with
  | nil => simp at h
  | cons w ws ih =>
    simp only [Value.fitsList, Bool.and_eq_true] at hf
    rcases List.mem_cons.1 h with rfl | h
    · exact hf.1
    · exact ih hf.2 h

namespace Stream

/-! ### Reading a prefix of the input -/

/-- `s'` is `s` after reading the bytes `e` off the front of its input: `e` had room, and both the
innermost list and the input limit were charged with it.  The fields `size`, `byteval` and `kinderr`
only describe a pending value, and there is none. -/
structure Reads (s : Stream) (e : List UInt8) (s' : Stream) : Prop where
  room : s.Room e.length
  input : s.r = e ++ s'.r
  kind : s'.kind = none
  stack : s'.stack = chargeStack s.stack e.length
  limited : s'.limited = s.limited
  remaining : s'.remaining = (s.charge e.length).remaining

theorem chargeStack_add (l : List ListPos) (a b : Nat) :
    chargeStack (chargeStack l a) b = chargeStack l (a + b) := by
  cases l <;> simp [chargeStack, Nat.add_assoc]

@[simp] theorem chargeStack_zero (l : List ListPos) : chargeStack l 0 = l := by
  cases l <;> simp [chargeStack]

theorem room_congr {s t : Stream} {n : Nat} (hs : s.stack = t.stack) (hl : s.limited = t.limited)
    (hr : s.remaining = t.remaining) : s.Room n ↔ t.Room n := by
  simp [Room, hs, hl, hr]

theorem charge_remaining (s : Stream) (n : Nat) :
    (s.charge n).remaining = if s.limited then s.remaining - n else s.remaining := rfl

theorem Reads.room_charge {s t : Stream} {e : List UInt8} (h : s.Reads e t) {n : Nat} :
    t.Room n ↔ (s.charge e.length).Room n :=
  room_congr h.stack h.limited h.remaining

theorem Reads.trans {s t u : Stream} {e f : List UInt8} (h₁ : s.Reads e t) (h₂ : t.Reads f u) :
    s.Reads (e ++ f) u where
  room := by
    rw [List.length_append]
    exact room_add.2 ⟨h₁.room, h₁.room_charge.1 h₂.room⟩
  input := by rw [h₁.input, h₂.input, List.append_assoc]
  kind := h₂.kind
  stack := by rw [h₂.stack, h₁.stack, chargeStack_add, List.length_append]
  limited := h₂.limited.trans h₁.limited
  remaining := by
    rw [h₂.remaining, charge_remaining, h₁.remaining, h₁.limited, charge_remaining, charge_remaining,
      List.length_append]
    split <;> omega

theorem reads_nil {s : Stream} (hs : s.kind = none) (k : Option Error) : s.Reads [] { s with kinderr := k } where
  room := ⟨fun _ _ => Nat.zero_le _, fun _ => Nat.zero_le _⟩
  input := rfl
  kind := hs
  stack := by simp
  limited := rfl
  remaining := by simp [charge_remaining]

end Stream

open Go420coin.Rlp.Stream

/-! ### `EOL` leaves the stream alone -/

private theorem addErrorContext_ne_eol {e : Error} (he : e ≠ .eol) (c : String) : addErrorContext e c ≠ .eol := by
  cases e <;> simp_all [addErrorContext]

theorem decodeSliceElems_ne_eol (elemdec : Stream → Except Error Value × Stream) :
    ∀ (fuel : Nat) (t : Stream) (acc : List Value), (decodeSliceElems elemdec fuel t acc).1 ≠ .error .eol
  | 0, _, _ => by simp [decodeSliceElems]
  | fuel + 1, t, acc => by
    simp only [decodeSliceElems]
    split
    · simp
    · next _ e _ hne _ => simpa using addErrorContext_ne_eol hne _
    · exact decodeSliceElems_ne_eol elemdec fuel _ _

theorem decodeListSlice_ne_eol (elemdec : Stream → Except Error Value × Stream) {s : Stream}
    (hk : s.kind = some .list) (he : s.kinderr = none) : (decodeListSlice elemdec s).1 ≠ .error .eol := by
  simp only [decodeListSlice, list_of_kind hk he]
  generalize ({ s with stack := ⟨0, s.size⟩ :: s.stack, kind := none, size := 0 } : Stream) = t
  split_ifs
  · have := listEnd_ne_eol t
    rcases hl : t.listEnd with ⟨res, u⟩
    rw [hl] at this
    rcases res with e | ⟨⟩ <;> simp_all
  · have := decodeSliceElems_ne_eol elemdec (s.r.length + 1) t []
    rcases hd : decodeSliceElems elemdec (s.r.length + 1) t [] with ⟨res, u⟩
    rw [hd] at this
    rcases res with e | vs
    · simp_all
    · have := listEnd_ne_eol u
      rcases hl : u.listEnd with ⟨res, u'⟩
      rw [hl] at this
      rcases res with e | ⟨⟩ <;> simp_all

theorem decodeInterface_eol : ∀ (d : Nat) {t t' : Stream}, t.kind = none →
    decodeInterface d t = (.error .eol, t') → t' = { t with kinderr := none }
  | 0, _, _, _, h => by simp [decodeInterface] at h
  | d + 1, t, t', ht, h => by
    simp only [decodeInterface] at h
    rcases hk : t.getKind with ⟨res, t1⟩
    rw [hk] at h
    rcases res with e | ⟨k, size⟩
    · simp only [Prod.mk.injEq, Except.error.injEq] at h
      obtain ⟨rfl, rfl⟩ := h
      exact (getKind_eol_spec ht hk).2
    obtain ⟨hk1, -, he1⟩ := getKind_ok_pending ht hk
    cases k with
    | list => exact absurd (congrArg Prod.fst h) (decodeListSlice_ne_eol _ hk1 he1)
    | _ =>
      rcases hb : t1.bytes with ⟨res, t2⟩
      have := bytes_ne_eol hk1 he1
      rw [hb] at this
      simp only [hb] at h
      rcases res with e | b <;> simp_all

/-! ### Soundness: a decoded value was encoded -/

section Sound

variable {elemdec : Stream → Except Error Value × Stream}

/-- The loop of `decodeSliceElems` reads the encodings of the elements it collects, as long as the
element decoder reads the encoding of what it returns and reports `EOL` without reading. -/
theorem decodeSliceElems_sound
    (hdec : ∀ {t t' : Stream} {v : Value}, t.kind = none → elemdec t = (.ok v, t') →
      v.fits ∧ t.Reads (encode v) t')
    (heol : ∀ {t t' : Stream}, t.kind = none → elemdec t = (.error .eol, t') → t' = { t with kinderr := none }) :
    ∀ (fuel : Nat) {t t' : Stream} {acc vs : List Value}, t.kind = none →
      decodeSliceElems elemdec fuel t acc = (.ok vs, t') →
        ∃ ws, vs = acc ++ ws ∧ Value.fitsList ws ∧ t.Reads (encodeList ws) t'
  | 0, _, _, _, _, _, h => by simp [decodeSliceElems] at h
  | fuel + 1, t, t', acc, vs, ht, h => by
    simp only [decodeSliceElems] at h
    split at h
    · next _ t1 he =>
      simp only [Prod.mk.injEq, Except.ok.injEq] at h
      obtain ⟨rfl, rfl⟩ := h
      refine ⟨[], by simp, rfl, ?_⟩
      rw [heol ht he]
      exact reads_nil ht none
    · simp at h
    · next _ v t1 he =>
      obtain ⟨hv, hr⟩ := hdec ht he
      obtain ⟨ws, rfl, hws, hr'⟩ := decodeSliceElems_sound hdec heol fuel hr.kind h
      refine ⟨v :: ws, by simp, by simp [Value.fitsList, hv, hws], ?_⟩
      rw [encodeList]
      exact hr.trans hr'

/-- Closing a list whose payload `body` was read after the header `h`: the payload filled the list,
and header and payload together were read from the enclosing stream. -/
theorem reads_listEnd {s t u s' : Stream} {h body : List UInt8} {size : Nat} (hroom : s.Room h.length)
    (hvr : (s.charge h.length).ValueRoom size) (hr : s.r = h ++ t.r)
    (hstack : t.stack = ⟨0, size⟩ :: chargeStack s.stack h.length) (hlim : t.limited = s.limited)
    (hrem : t.remaining = (s.charge h.length).remaining) (hbody : t.Reads body u)
    (hend : u.listEnd = (.ok (), s')) :
    body.length = size ∧ s.Reads (h ++ body) s' := by
  obtain ⟨tos, up, hst, hpos, rfl⟩ := listEnd_ok.1 hend
  rw [hbody.stack, hstack] at hst
  simp only [chargeStack.eq_2, List.cons.injEq] at hst
  obtain ⟨rfl, rfl⟩ := hst
  simp only [Nat.zero_add] at hpos
  refine ⟨hpos, ?_, by rw [hr, hbody.input, List.append_assoc], rfl, ?_, ?_, ?_⟩
  · rw [List.length_append]
    refine room_add.2 ⟨hroom, fun tos htos => ?_, fun hl => ?_⟩
    · cases hs : s.stack with
      | nil => simp [hs, chargeStack] at htos
      | cons c cs =>
        simp only [ValueRoom, charge_stack, hs, chargeStack] at hvr
        simp only [charge_stack, hs, chargeStack, List.head?_cons, Option.mem_def, Option.some.injEq] at htos
        rw [← htos, hpos]
        exact hvr
    · have := hbody.room.2 (by rw [hlim]; exact hl)
      rwa [hrem] at this
  · simp only [List.length_append, hpos, chargeStack_add]
  · exact hbody.limited.trans hlim
  · rw [hbody.remaining, charge_remaining, hlim, hrem, charge_remaining, charge_remaining, List.length_append]
    split <;> omega

/-- A string or a single byte that was decoded was read as its encoding. -/
private theorem sound_bytes {s s1 s' : Stream} {k : Kind} {size : Nat} {b : List UInt8} (hs : s.kind = none)
    (hk : k ≠ .list) (hg : s.getKind = (.ok (k, size), s1)) (hb : s1.bytes = (.ok b, s')) :
    (Value.bytes b).fits ∧ s.Reads (encode (.bytes b)) s' := by
  cases k with
  | list => exact absurd rfl hk
  | byte =>
    obtain ⟨hroom, rfl, c, rest, hr, hc, rfl⟩ := (getKind_byte hs).1 hg
    rw [bytes_byte rfl rfl] at hb
    simp only [Prod.mk.injEq, Except.ok.injEq] at hb
    obtain ⟨rfl, rfl⟩ := hb
    have henc : encode (.bytes [c]) = [c] := by simp [encode, hc]
    refine ⟨by simp [Value.fits], ?_⟩
    rw [henc]
    exact ⟨hroom, hr, rfl, rfl, rfl, rfl⟩
  | string =>
    obtain ⟨hsz, hroom, -, rest, hr, rfl⟩ := (getKind_sized hs (by decide)).1 hg
    obtain ⟨hroom', hlen, hcanon, rfl, rfl⟩ := (bytes_string rfl rfl).1 hb
    have htag : tagOf .string = 0x80 := rfl
    rw [htag] at hroom hr
    dsimp only at hroom' hlen hcanon ⊢
    have hblen : (rest.take size).length = size := by simp only [List.length_take]; omega
    have henc : encode (.bytes (rest.take size)) = lengthPrefix 0x80 size ++ rest.take size := by
      rw [encode, if_neg (by rw [hblen]; exact hcanon), hblen]
    refine ⟨by simpa [Value.fits, hblen] using hsz, ?_⟩
    rw [henc]
    refine ⟨?_, by rw [hr, List.append_assoc, List.take_append_drop], rfl, ?_, rfl, ?_⟩
    · rw [List.length_append, hblen]
      exact room_add.2 ⟨hroom, hroom'⟩
    · show chargeStack (chargeStack s.stack (lengthPrefix 0x80 size).length) size = _
      rw [chargeStack_add, List.length_append, hblen]
    · show ((s.charge (lengthPrefix 0x80 size).length).charge size).remaining = _
      rw [charge_charge, List.length_append, hblen]

/-- What `Bytes` returns was read off the input as the encoding of a string. -/
theorem bytes_sound {s s' : Stream} {b : List UInt8} (hs : s.kind = none) (h : s.bytes = (.ok b, s')) :
    (Value.bytes b).fits ∧ s.Reads (encode (.bytes b)) s' := by
  rcases hg : s.getKind with ⟨res, s1⟩
  rcases res with e | ⟨k, size⟩
  · simp [bytes, hg] at h
  rw [bytes_of_getKind hg] at h
  cases k with
  | list =>
    obtain ⟨hk1, -, he1⟩ := getKind_ok_pending hs hg
    simp [bytes, getKind_cached hk1, cached, he1] at h
  | byte => exact sound_bytes hs (by decide) hg h
  | string => exact sound_bytes hs (by decide) hg h

/-- A list that was decoded was read as its encoding, given that each element was. -/
private theorem sound_list {s s1 s' : Stream} {size : Nat} {v : Value} (hs : s.kind = none)
    (hdec : ∀ {t t' : Stream} {v : Value}, t.kind = none → elemdec t = (.ok v, t') →
      v.fits ∧ t.Reads (encode v) t')
    (heol : ∀ {t t' : Stream}, t.kind = none → elemdec t = (.error .eol, t') → t' = { t with kinderr := none })
    (hg : s.getKind = (.ok (.list, size), s1)) (h : decodeListSlice elemdec s1 = (.ok v, s')) :
    v.fits ∧ s.Reads (encode v) s' := by
  obtain ⟨hk1, hsize1, he1⟩ := getKind_ok_pending hs hg
  obtain ⟨hsz, hroom, hvr, rest, hr, hs1⟩ := (getKind_sized hs (by decide)).1 hg
  simp only [decodeListSlice, list_of_kind hk1 he1, hsize1] at h
  generalize ht : ({ s1 with stack := ⟨0, size⟩ :: s1.stack, kind := none, size := 0 } : Stream) = t at h
  have htr : s.r = lengthPrefix (tagOf .list) size ++ t.r := by subst ht hs1; exact hr
  have hts : t.stack = ⟨0, size⟩ :: chargeStack s.stack (lengthPrefix (tagOf .list) size).length := by
    subst ht hs1; rfl
  have htl : t.limited = s.limited := by subst ht hs1; rfl
  have htm : t.remaining = (s.charge (lengthPrefix (tagOf .list) size).length).remaining := by
    subst ht hs1; rfl
  have htk : t.kind = none := by subst ht; rfl
  split_ifs at h with h0
  · subst h0
    rcases hl : t.listEnd with ⟨res, u⟩
    rw [hl] at h
    rcases res with e | ⟨⟩
    · simp at h
    simp only [Prod.mk.injEq, Except.ok.injEq] at h
    obtain ⟨rfl, rfl⟩ := h
    obtain ⟨-, hread⟩ := reads_listEnd hroom hvr htr hts htl htm (reads_nil htk t.kinderr) hl
    have henc : encode (.list []) = lengthPrefix (tagOf .list) 0 ++ [] := by simp [encode, encodeList, tagOf]
    exact ⟨by simp [Value.fits, Value.fitsList, encodeList], henc ▸ hread⟩
  · rcases hd : decodeSliceElems elemdec (s1.r.length + 1) t [] with ⟨res, u⟩
    rw [hd] at h
    rcases res with e | vs
    · simp at h
    dsimp only at h
    obtain ⟨ws, rfl, hws, hbody⟩ := decodeSliceElems_sound hdec heol _ htk hd
    rcases hl : u.listEnd with ⟨res, u'⟩
    rw [hl] at h
    rcases res with e | ⟨⟩
    · simp at h
    simp only [Prod.mk.injEq, Except.ok.injEq] at h
    obtain ⟨rfl, rfl⟩ := h
    obtain ⟨hlen, hread⟩ := reads_listEnd hroom hvr htr hts htl htm hbody hl
    refine ⟨by simpa [Value.fits, hlen, hws] using hsz, ?_⟩
    rw [encode, hlen]
    exact hread

end Sound

/-- Whatever `decodeInterface` returns was read off the input as its encoding, and fits the encoder. -/
theorem decodeInterface_sound : ∀ (d : Nat) {s s' : Stream} {v : Value}, s.kind = none →
    decodeInterface d s = (.ok v, s') → v.fits ∧ s.Reads (encode v) s'
  | 0, _, _, _, _, h => by simp [decodeInterface] at h
  | d + 1, s, s', v, hs, h => by
    simp only [decodeInterface] at h
    rcases hg : s.getKind with ⟨res, s1⟩
    rw [hg] at h
    rcases res with e | ⟨k, size⟩
    · simp at h
    cases k with
    | list => exact sound_list hs (decodeInterface_sound d) (decodeInterface_eol d) hg h
    | _ =>
      rcases hb : s1.bytes with ⟨res, s2⟩
      simp only [hb] at h
      rcases res with e | b
      · simp at h
      simp only [Prod.mk.injEq, Except.ok.injEq] at h
      obtain ⟨rfl, rfl⟩ := h
      exact sound_bytes hs (by decide) hg hb

/-! ### Completeness: every encoding is decoded -/

section Complete

variable {elemdec : Stream → Except Error Value × Stream}

/-- Decoding the concatenated encodings of `ws`, which exactly fill the innermost list, collects `ws`. -/
theorem decodeSliceElems_complete
    (heol : ∀ {t : Stream} {tos : ListPos} {up : List ListPos}, t.kind = none → t.stack = tos :: up →
      tos.pos = tos.size → elemdec t = (.error .eol, { t with kinderr := none })) :
    ∀ (ws : List Value), (∀ w ∈ ws, ∀ {t : Stream} {rest : List UInt8}, t.kind = none →
        t.Room (encode w).length → t.r = encode w ++ rest → ∃ t', elemdec t = (.ok w, t') ∧ t.Reads (encode w) t') →
      ∀ (fuel : Nat) {t : Stream} (acc : List Value) {rest : List UInt8} {tos : ListPos} {up : List ListPos},
        ws.length < fuel → t.kind = none → t.r = encodeList ws ++ rest → t.Room (encodeList ws).length →
        t.stack = tos :: up → tos.pos + (encodeList ws).length = tos.size →
        ∃ t', decodeSliceElems elemdec fuel t acc = (.ok (acc ++ ws), t') ∧ t.Reads (encodeList ws) t'
  | _, _, 0, _, _, _, _, _, hlen, _, _, _, _, _ => absurd hlen (Nat.not_lt_zero _)
  | [], _, fuel + 1, t, acc, _, _, _, _, ht, _, _, hst, hpos => by
    refine ⟨{ t with kinderr := none }, ?_, reads_nil ht none⟩
    simp only [encodeList, List.length_nil, Nat.add_zero] at hpos
    simp [decodeSliceElems, heol ht hst hpos]
  | w :: ws, hdec, fuel + 1, t, acc, rest, tos, up, hlen, ht, hr, hroom, hst, hpos => by
    rw [encodeList, List.length_append] at hroom hpos
    rw [encodeList, List.append_assoc] at hr
    obtain ⟨hroom1, hroom2⟩ := room_add.1 hroom
    obtain ⟨t1, hd, hr1⟩ := hdec w List.mem_cons_self ht hroom1 hr
    have hr1' : t1.r = encodeList ws ++ rest := by
      have := hr1.input
      rw [hr] at this
      exact (List.append_cancel_left this).symm
    have hst1 : t1.stack = ⟨tos.pos + (encode w).length, tos.size⟩ :: up := by rw [hr1.stack, hst]; rfl
    have hpos1 : tos.pos + (encode w).length + (encodeList ws).length = tos.size := by omega
    obtain ⟨t', hloop, hr'⟩ := decodeSliceElems_complete heol ws
      (fun w' hw' => hdec w' (List.mem_cons_of_mem _ hw')) fuel (acc ++ [w])
      (by simpa using hlen) hr1.kind hr1' (hr1.room_charge.2 hroom2) hst1 hpos1
    refine ⟨t', ?_, ?_⟩
    · simp [decodeSliceElems, hd, hloop]
    · rw [encodeList]
      exact hr1.trans hr'

/-- A list decodes to its elements once its header is read, when each element decodes from its
encoding. -/
private theorem complete_list {s : Stream} {ws : List Value} {rest : List UInt8} (hf : (Value.list ws).fits)
    (hs : s.kind = none) (hroom : s.Room (encode (.list ws)).length) (hr : s.r = encode (.list ws) ++ rest)
    (hdec : ∀ w ∈ ws, ∀ {t : Stream} {rest : List UInt8}, t.kind = none →
        t.Room (encode w).length → t.r = encode w ++ rest → ∃ t', elemdec t = (.ok w, t') ∧ t.Reads (encode w) t')
    (heol : ws ≠ [] → ∀ {t : Stream} {tos : ListPos} {up : List ListPos}, t.kind = none → t.stack = tos :: up →
      tos.pos = tos.size → elemdec t = (.error .eol, { t with kinderr := none })) :
    ∃ s1 s', s.getKind = (.ok (.list, (encodeList ws).length), s1) ∧
      decodeListSlice elemdec s1 = (.ok (.list ws), s') := by
  simp only [Value.fits, Bool.and_eq_true, decide_eq_true_eq] at hf
  rw [encode, List.length_append] at hroom
  rw [encode, List.append_assoc] at hr
  obtain ⟨h1, h2⟩ := room_add.1 hroom
  obtain ⟨s1, hg⟩ : ∃ s1, s.getKind = (.ok (.list, (encodeList ws).length), s1) :=
    ⟨_, (getKind_sized (k := .list) hs (by decide)).2 ⟨hf.1, h1, valueRoom_of_room h2, encodeList ws ++ rest, hr, rfl⟩⟩
  refine ⟨s1, ?_⟩
  obtain ⟨hk1, hsize1, he1⟩ := getKind_ok_pending hs hg
  obtain ⟨-, -, -, rest', hr', hs1⟩ := (getKind_sized hs (by decide)).1 hg
  obtain rfl : rest' = encodeList ws ++ rest := by
    rw [hr] at hr'
    exact (List.append_cancel_left hr').symm
  simp only [decodeListSlice, list_of_kind hk1 he1, hsize1, hg, true_and]
  generalize ht : ({ s1 with stack := ⟨0, (encodeList ws).length⟩ :: s1.stack, kind := none, size := 0 } : Stream) = t
  have htk : t.kind = none := by subst ht; rfl
  have hts : t.stack = ⟨0, (encodeList ws).length⟩ :: s1.stack := by subst ht; rfl
  have hs1r : s1.r = encodeList ws ++ rest := by subst hs1; rfl
  by_cases hL0 : (encodeList ws).length = 0
  · obtain rfl : ws = [] := encodeList_eq_nil.1 (List.length_eq_zero_iff.1 hL0)
    rw [if_pos hL0, listEnd_ok.2 ⟨_, _, hts, hL0.symm, rfl⟩]
    exact ⟨_, rfl⟩
  · rw [if_neg hL0]
    have hroomt : t.Room (encodeList ws).length := by
      refine ⟨fun tos htos => ?_, fun hl => ?_⟩
      · rw [hts] at htos
        simp only [List.head?_cons, Option.mem_def, Option.some.injEq] at htos
        rw [← htos]
        dsimp only
        omega
      · subst ht hs1
        exact h2.2 hl
    have hlen : ws.length < s1.r.length + 1 := by
      rw [hs1r, List.length_append]
      have := length_le_encodeList ws
      omega
    obtain ⟨t', hloop, hread⟩ := decodeSliceElems_complete (heol (by rintro rfl; simp [encodeList] at hL0)) ws hdec
      (s1.r.length + 1) [] hlen htk (by subst ht; exact hs1r) hroomt hts (Nat.zero_add _)
    have hst' : t'.stack = ⟨(encodeList ws).length, (encodeList ws).length⟩ :: s1.stack := by
      rw [hread.stack, hts]
      simp [chargeStack]
    rw [hloop]
    dsimp only
    rw [listEnd_ok.2 ⟨_, _, hst', rfl, rfl⟩]
    exact ⟨_, rfl⟩


/-- A byte string is read back from its encoding, whether it stands for itself or has a header: `Kind`
finds a byte or a string, and `Bytes` goes on from there. -/
private theorem complete_bytes_kind {s : Stream} {b rest : List UInt8} (hf : (Value.bytes b).fits)
    (hs : s.kind = none) (hroom : s.Room (encode (.bytes b)).length) (hr : s.r = encode (.bytes b) ++ rest) :
    ∃ k size s1 s', k ≠ .list ∧ s.getKind = (.ok (k, size), s1) ∧ s1.bytes = (.ok b, s') := by
  simp only [Value.fits, decide_eq_true_eq] at hf
  by_cases hc : b.length = 1 ∧ b.headD 0 < 0x80
  · obtain ⟨c, rfl⟩ := List.length_eq_one_iff.1 hc.1
    have henc : encode (.bytes [c]) = [c] := by rw [encode, if_pos hc]
    rw [henc] at hroom hr
    have hg := (getKind_byte hs).2 ⟨hroom, rfl, c, rest, hr, by simpa using hc.2, rfl⟩
    exact ⟨_, _, _, _, by decide, hg, bytes_byte rfl rfl⟩
  · have henc : encode (.bytes b) = lengthPrefix 0x80 b.length ++ b := by rw [encode, if_neg hc]
    rw [henc, List.length_append] at hroom
    rw [henc, List.append_assoc] at hr
    obtain ⟨h1, h2⟩ := room_add.1 hroom
    obtain ⟨s1, hg⟩ : ∃ s1, s.getKind = (.ok (.string, b.length), s1) :=
      ⟨_, (getKind_sized (k := .string) hs (by decide)).2 ⟨hf, h1, valueRoom_of_room h2, b ++ rest, hr, rfl⟩⟩
    obtain ⟨hk1, hsize1, he1⟩ := getKind_ok_pending hs hg
    obtain ⟨-, -, -, rest', hr', hs1⟩ := (getKind_sized hs (by decide)).1 hg
    obtain rfl : rest' = b ++ rest := by
      rw [hr] at hr'
      exact (List.append_cancel_left hr').symm
    have hroom1 : s1.Room s1.size := by subst hs1; exact h2
    have hr1 : s1.r = b ++ rest := by subst hs1; rfl
    have hb := (bytes_string (b := b) hk1 he1).2
      ⟨hroom1, by simp [hr1, hsize1], by simpa [hr1, hsize1] using hc, by simp [hr1, hsize1], rfl⟩
    exact ⟨_, _, _, _, by decide, hg, hb⟩

/-- A byte string decodes from its encoding. -/
private theorem complete_bytes (d : Nat) {s : Stream} {b rest : List UInt8} (hf : (Value.bytes b).fits)
    (hs : s.kind = none) (hroom : s.Room (encode (.bytes b)).length) (hr : s.r = encode (.bytes b) ++ rest) :
    ∃ s', decodeInterface (d + 1) s = (.ok (.bytes b), s') := by
  obtain ⟨k, size, s1, s', hk, hg, hb⟩ := complete_bytes_kind hf hs hroom hr
  refine ⟨s', ?_⟩
  cases k with
  | list => exact absurd rfl hk
  | byte => simp only [decodeInterface, hg, hb]
  | string => simp only [decodeInterface, hg, hb]

/-- `Bytes` reads a string back from its encoding, and reads nothing more. -/
theorem bytes_complete {s : Stream} {b rest : List UInt8} (hf : (Value.bytes b).fits) (hs : s.kind = none)
    (hroom : s.Room (encode (.bytes b)).length) (hr : s.r = encode (.bytes b) ++ rest) :
    ∃ s', s.bytes = (.ok b, s') ∧ s.Reads (encode (.bytes b)) s' := by
  obtain ⟨k, size, s1, s', hk, hg, hb⟩ := complete_bytes_kind hf hs hroom hr
  have hb' : s.bytes = (.ok b, s') := by rw [bytes_of_getKind hg, hb]
  exact ⟨s', hb', (bytes_sound hs hb').2⟩

theorem decodeInterface_at_end {d : Nat} {t : Stream} {tos : ListPos} {up : List ListPos} (ht : t.kind = none)
    (hst : t.stack = tos :: up) (hp : tos.pos = tos.size) :
    decodeInterface (d + 1) t = (.error .eol, { t with kinderr := none }) := by
  simp [decodeInterface, getKind_at_end ht hst hp]

theorem depth_pos (v : Value) : 0 < v.depth := by
  cases v <;> simp [Value.depth]

end Complete

/-- Every value that fits the encoder decodes from its encoding, given the depth of its lists as fuel. -/
theorem decodeInterface_complete : ∀ (d : Nat) (v : Value) {s : Stream} {rest : List UInt8}, v.depth ≤ d →
    v.fits → s.kind = none → s.Room (encode v).length → s.r = encode v ++ rest →
      ∃ s', decodeInterface d s = (.ok v, s')
  | 0, v, _, _, hd, _, _, _, _ => absurd hd (Nat.not_le.2 (depth_pos v))
  | d + 1, .bytes b, _, _, _, hf, hs, hroom, hr => complete_bytes d hf hs hroom hr
  | d + 1, .list ws, s, rest, hd, hf, hs, hroom, hr => by
    have hws : Value.fitsList ws := by
      simp only [Value.fits, Bool.and_eq_true] at hf
      exact hf.2
    simp only [Value.depth, Nat.add_le_add_iff_right] at hd
    have hdec : ∀ w ∈ ws, ∀ {t : Stream} {rest : List UInt8}, t.kind = none →
        t.Room (encode w).length → t.r = encode w ++ rest →
          ∃ t', decodeInterface d t = (.ok w, t') ∧ t.Reads (encode w) t' := by
      intro w hw t rest' ht hroom' hr'
      obtain ⟨t', hdt⟩ := decodeInterface_complete d w ((depth_le_of_mem hw).trans hd) (fits_of_mem hws hw) ht
        hroom' hr'
      exact ⟨t', hdt, (decodeInterface_sound d ht hdt).2⟩
    have heol : ws ≠ [] → ∀ {t : Stream} {tos : ListPos} {up : List ListPos}, t.kind = none →
        t.stack = tos :: up → tos.pos = tos.size → decodeInterface d t = (.error .eol, { t with kinderr := none }) := by
      intro hne t tos up ht hst hp
      obtain ⟨w, ws', rfl⟩ := List.exists_cons_of_ne_nil hne
      obtain ⟨d', rfl⟩ : ∃ d', d = d' + 1 :=
        Nat.exists_eq_add_one.2 (lt_of_lt_of_le (depth_pos w) ((depth_le_of_mem List.mem_cons_self).trans hd))
      exact decodeInterface_at_end ht hst hp
    obtain ⟨s1, s', hg, hl⟩ := complete_list hf hs hroom hr hdec heol
    exact ⟨s', by simp only [decodeInterface, hg]; exact hl⟩

/-! ### `DecodeBytes` and `EncodeToBytes` -/

theorem decode_ok {s s' : Stream} {d : Nat} {v : Value} :
    s.decode d = (.ok v, s') ↔ decodeInterface d s = (.ok v, s') := by
  unfold Stream.decode
  rcases decodeInterface d s with ⟨res, t⟩
  rcases res with e | w
  · cases e <;> simp only [Prod.mk.injEq, reduceCtorEq, false_and]
    split_ifs <;> simp
  · rfl

/-- What `DecodeBytes` accepts is the encoding of the value it returns, and that value fits. -/
theorem decodeBytes_sound {b : List UInt8} {v : Value} (h : decodeBytes b = .ok v) : v.fits ∧ encode v = b := by
  unfold decodeBytes at h
  rcases hd : (Stream.reset b b.length).decode (b.length + 1) with ⟨res, s'⟩
  rw [hd] at h
  rcases res with e | w
  · simp at h
  dsimp only at h
  split_ifs at h with hr
  simp only [Except.ok.injEq] at h
  subst h
  obtain ⟨hf, hread⟩ := decodeInterface_sound _ rfl (decode_ok.1 hd)
  have hnil : s'.r = [] := List.eq_nil_of_length_eq_zero (by omega)
  have := hread.input
  rw [hnil, List.append_nil] at this
  exact ⟨hf, this.symm⟩

/-- `DecodeBytes` returns every value that fits from its encoding. -/
theorem decodeBytes_encode {v : Value} (hf : v.fits) : decodeBytes (encode v) = .ok v := by
  have hs : (Stream.reset (encode v) (encode v).length).kind = none := rfl
  have hroom : (Stream.reset (encode v) (encode v).length).Room (encode v).length :=
    ⟨by simp [Stream.reset], by simp [Stream.reset]⟩
  have hr : (Stream.reset (encode v) (encode v).length).r = encode v ++ [] := by simp [Stream.reset]
  have hdepth : v.depth ≤ (encode v).length + 1 := by
    have := depth_le_length v
    omega
  obtain ⟨s', hd⟩ := decodeInterface_complete _ v hdepth hf hs hroom hr
  have hnil : s'.r = [] := by
    have := (decodeInterface_sound _ hs hd).2.input
    simpa [Stream.reset] using this
  unfold decodeBytes
  rw [decode_ok.2 hd]
  simp [hnil]

theorem decodeBytes_canonical :
    (∀ (b : List UInt8) (v : Value), decodeBytes b = .ok v → encodeToBytes v = b) ∧
    (∀ t : Value, t.fits → decodeBytes (encodeToBytes t) = .ok t) ∧
    (∀ t₁ t₂ : Value, t₁.fits → t₂.fits → encodeToBytes t₁ = encodeToBytes t₂ → t₁ = t₂) := by
  have hround : ∀ t : Value, t.fits → decodeBytes (encodeToBytes t) = .ok t := by
    intro t hf
    rw [encodeToBytes_eq_encode hf]
    exact decodeBytes_encode hf
  refine ⟨fun b v h => ?_, hround, fun t₁ t₂ h₁ h₂ he => ?_⟩
  · obtain ⟨hf, he⟩ := decodeBytes_sound h
    rw [encodeToBytes_eq_encode hf, he]
  · have h := hround t₁ h₁
    rw [he, hround t₂ h₂, Except.ok.injEq] at h
    exact h.symm

theorem decodeBytes_canonical_twoStrings :
    (Value.list [.bytes [1], .bytes []]).fits ∧
      decodeBytes (encodeToBytes (.list [.bytes [1], .bytes []])) = .ok (.list [.bytes [1], .bytes []]) :=
  ⟨rfl, decodeBytes_canonical.2.1 _ rfl⟩

end Go420coin.Rlp
