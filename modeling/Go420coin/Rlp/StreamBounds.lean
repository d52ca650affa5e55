import Go420coin.Lib.Loop
import Go420coin.Rlp.StreamSpec

/-!
# The bounds of the open lists of a stream (`rlp/decode.go`)

A `Stream` keeps the lists it is inside as a stack of `listpos` frames, innermost first, each with the
bytes read inside it so far (`pos`) and its declared size.  `willRead` charges a read to the innermost
frame only, after checking that it fits; `ListEnd` passes a finished frame's size on to the frame
around it; `List` pushes a frame whose size `Kind` checked against the room left in the innermost
one.  So every frame stays within its size, and a frame with the frame inside it stays within its
own (`Bounded`): the bytes charged to a list and to the lists open inside it never exceed its size
(`sum_pos_le_size`), whatever operations ran on the stream (`list_bounds_invariant`).

The invariant also needs that a kind cached without error fits the innermost list (`KindFits`): it is
what `List` relies on when the kind was read by an earlier `Kind`.
-/

namespace Go420coin.Rlp

/-- The open lists, innermost first: each read at most its size, and the bytes of a list, once it is
read to its end, fit the list around it. -/
def Bounded : List ListPos → Prop
  | [] => True
  | [tos] => tos.pos ≤ tos.size
  | c :: p :: up => c.pos ≤ c.size ∧ p.pos + c.size ≤ p.size ∧ Bounded (p :: up)

namespace Bounded

theorem pos_le {tos : ListPos} {up : List ListPos} (h : Bounded (tos :: up)) : tos.pos ≤ tos.size := by
  cases up with
  | nil => exact h
  | cons p up => exact h.1

theorem tail {tos : ListPos} {up : List ListPos} (h : Bounded (tos :: up)) : Bounded up := by
  cases up with
  | nil => trivial
  | cons p up => exact h.2.2

/-- Charging `n` bytes to the innermost list keeps the bounds if they fit it. -/
theorem chargeStack {stack : List ListPos} (h : Bounded stack) {n : Nat}
    (hn : ∀ tos ∈ stack.head?, n ≤ tos.size - tos.pos) : Bounded (Stream.chargeStack stack n) := by
  match stack, h with
  | [], _ => trivial
  | [tos], h =>
    have hpos : tos.pos ≤ tos.size := h
    have := hn tos rfl
    show tos.pos + n ≤ tos.size
    omega
  | c :: p :: up, ⟨hc, hp, hup⟩ =>
    have := hn c rfl
    exact ⟨by simp only; omega, hp, hup⟩

end Bounded

namespace Stream

/-! ### The primitive readers -/

/-- What a primitive read does to the open lists: it charges the innermost one within its room (so
the sizes stay), and it rearms `Kind`. -/
def Charges (s t : Stream) : Prop :=
  t.kind = none ∧ t.stack.map ListPos.size = s.stack.map ListPos.size ∧
    (Bounded s.stack → Bounded t.stack)

theorem Charges.trans {s t u : Stream} (h₁ : Charges s t) (h₂ : Charges t u) : Charges s u :=
  ⟨h₂.1, h₂.2.1.trans h₁.2.1, h₂.2.2 ∘ h₁.2.2⟩

theorem willRead_charges (s : Stream) (n : Nat) : Charges s (s.willRead n).2 := by
  rcases s with ⟨r, remaining, limited, kind, size, byteval, kinderr, stack⟩
  cases stack with
  | nil =>
    simp only [willRead]
    split_ifs <;> exact ⟨rfl, rfl, id⟩
  | cons tos up =>
    by_cases ht : n > tos.size - tos.pos
    · simp only [willRead, if_pos ht]
      exact ⟨rfl, rfl, id⟩
    · -- the read fits the innermost list: it is charged there, also when the input limit fails
      have hb : Bounded (tos :: up) → Bounded ({ tos with pos := tos.pos + n } :: up) := fun h =>
        h.chargeStack (fun t ht' => by
          obtain rfl : t = tos := by simpa using ht'.symm
          omega)
      simp only [willRead, if_neg ht]
      split_ifs <;> exact ⟨rfl, rfl, hb⟩

theorem readByte_charges (s : Stream) : Charges s s.readByte.2 := by
  have h := willRead_charges s 1
  unfold readByte
  rcases hw : s.willRead 1 with ⟨_ | _, t⟩ <;> rw [hw] at h
  · exact h
  · dsimp only
    split <;> exact h

theorem readFull_charges (s : Stream) (n : Nat) : Charges s (s.readFull n).2 := by
  have h := willRead_charges s n
  unfold readFull
  rcases hw : s.willRead n with ⟨_ | _, t⟩ <;> rw [hw] at h
  · exact h
  · dsimp only
    split_ifs <;> exact h

theorem readUint_charges (s : Stream) (n : Nat) : Charges s (s.readUint n).2 := by
  match n with
  | 0 => exact ⟨rfl, rfl, id⟩
  | 1 =>
    have h := readByte_charges s
    simp only [readUint]
    rcases hb : s.readByte with ⟨_ | _, t⟩ <;> rw [hb] at h <;> exact h
  | n + 2 =>
    have h := readFull_charges s (n + 2)
    simp only [readUint]
    rcases hf : s.readFull (n + 2) with ⟨_ | buf, t⟩ <;> rw [hf] at h
    · exact h
    · dsimp only
      split_ifs <;> exact h

theorem readSize_charges (s : Stream) (n : Nat) : Charges s (s.readSize n).2.2 := by
  have h := readUint_charges s n
  unfold readSize
  rcases hu : s.readUint n with ⟨_ | _, t⟩ <;> rw [hu] at h <;> exact h

theorem readKind_charges (s : Stream) : Charges s s.readKind.2 := by
  have h := readByte_charges s
  unfold readKind
  rcases hb : s.readByte with ⟨_ | b, t⟩ <;> rw [hb] at h
  · exact h
  · -- the type tag: a long size is read after it
    have ht : Charges s { t with byteval := 0 } := h
    dsimp only
    split_ifs
    · exact ht
    · exact ht
    · exact ht.trans (readSize_charges _ _)
    · exact ht
    · exact ht.trans (readSize_charges _ _)

/-! ### The invariant -/

/-- A kind cached without error fits the innermost list: `Kind` checked it when it read the tag. -/
def KindFits (s : Stream) : Prop :=
  s.kind ≠ none → s.kinderr = none → ∀ tos ∈ s.stack.head?, tos.pos + s.size ≤ tos.size

/-- The invariant of a stream: the open lists are bounded, and a cached kind fits the innermost. -/
def Inv (s : Stream) : Prop := Bounded s.stack ∧ s.KindFits

theorem Charges.inv {s t : Stream} (h : Charges s t) (hs : Bounded s.stack) : t.Inv :=
  ⟨h.2.2 hs, fun hk => absurd h.1 hk⟩

theorem getKind_inv {s : Stream} (hs : s.Inv) : s.getKind.2.Inv := by
  cases hk : s.kind with
  | some k =>
    rw [getKind_cached hk]
    exact hs
  | none =>
    have hr := readKind_charges { s with kind := none, kinderr := none }
    simp only [getKind, hk]
    rcases hrk : ({ s with kind := none, kinderr := none } : Stream).readKind with ⟨⟨k, size, err⟩, t⟩
    rw [hrk] at hr
    obtain ⟨-, hsz, hb⟩ := hr
    have hbt : Bounded t.stack := hb hs.1
    obtain ⟨hbs, -⟩ := hs
    cases hst : s.stack with
    | nil =>
      -- at top level there is no list to fit
      have ht : t.stack = [] := by simpa [hst] using hsz
      exact ⟨by rw [ht]; trivial, fun _ _ tos htos => by simp [ht] at htos⟩
    | cons tos up =>
      dsimp only
      split_ifs with hp
      · -- at the end of the innermost list: `EOL`, nothing read
        exact ⟨hst ▸ hbs, fun hk' => absurd rfl hk'⟩
      · -- the tag was read; a value that does not fit the innermost list is an error
        refine ⟨hbt, fun _ he tos' htos' => ?_⟩
        rcases t with ⟨r, remaining, limited, kind, tsize, byteval, kinderr, tstack⟩
        cases tstack with
        | nil => simp at htos'
        | cons tos'' up' =>
          obtain rfl : tos'' = tos' := by simpa using htos'
          have hpos := hbt.pos_le
          cases err with
          | some e => simp at he
          | none =>
            simp only at he
            split_ifs at he with hfit
            simp only
            omega

theorem inv_of_kind_none {s : Stream} (hb : Bounded s.stack) (hk : s.kind = none) : s.Inv :=
  ⟨hb, fun h => absurd hk h⟩

/-- A successful `Kind` leaves its answer cached, without error. -/
theorem getKind_ok_cached {s t : Stream} {k : Kind} {size : Nat} (h : s.getKind = (.ok (k, size), t)) :
    t.kind = some k ∧ t.kinderr = none ∧ t.size = size := by
  cases hk : s.kind with
  | none =>
    obtain ⟨hk', hsz, he⟩ := getKind_ok_pending hk h
    exact ⟨hk', he, hsz⟩
  | some k' =>
    rw [getKind_cached hk] at h
    simp only [cached, Prod.mk.injEq] at h
    obtain ⟨h, rfl⟩ := h
    split at h
    · cases h
    · rename_i he
      simp only [Except.ok.injEq, Prod.mk.injEq] at h
      obtain ⟨rfl, rfl⟩ := h
      exact ⟨hk, he, rfl⟩

/-! ### The operations -/

theorem bytes_inv {s : Stream} (hs : s.Inv) : s.bytes.2.Inv := by
  have hg := getKind_inv hs
  unfold bytes
  rcases hk : s.getKind with ⟨_ | ⟨k, size⟩, t⟩ <;> rw [hk] at hg
  · exact hg
  · cases k with
    | byte => exact inv_of_kind_none hg.1 rfl
    | string =>
      have hr := readFull_charges t size
      dsimp only
      rcases hf : t.readFull size with ⟨_ | b, u⟩ <;> rw [hf] at hr
      · exact hr.inv hg.1
      · dsimp only
        split_ifs <;> exact hr.inv hg.1
    | list => exact hg

theorem raw_inv {s : Stream} (hs : s.Inv) : s.raw.2.Inv := by
  have hg := getKind_inv hs
  unfold raw
  rcases hk : s.getKind with ⟨_ | ⟨k, size⟩, t⟩ <;> rw [hk] at hg
  · exact hg
  · dsimp only
    by_cases hkb : k = .byte
    · rw [if_pos hkb]
      exact inv_of_kind_none hg.1 rfl
    · rw [if_neg hkb]
      have hr := readFull_charges t size
      rcases hf : t.readFull size with ⟨_ | b, u⟩ <;> rw [hf] at hr <;> exact hr.inv hg.1

theorem uint_inv {s : Stream} (hs : s.Inv) (maxbits : Nat) : (s.uint maxbits).2.Inv := by
  have hg := getKind_inv hs
  unfold uint
  rcases hk : s.getKind with ⟨_ | ⟨k, size⟩, t⟩ <;> rw [hk] at hg
  · exact hg
  · cases k with
    | byte =>
      dsimp only
      split_ifs
      · exact hg
      · exact inv_of_kind_none hg.1 rfl
    | string =>
      dsimp only
      split_ifs
      · exact hg
      · -- the readers leave the stream in the same state whatever the error
        have hr := readUint_charges t size
        split
        all_goals
          rename_i heq
          rw [heq] at hr
        · exact hr.inv hg.1
        · exact hr.inv hg.1
        · split_ifs <;> exact hr.inv hg.1
    | list => exact hg

theorem bool_inv {s : Stream} (hs : s.Inv) : s.bool.2.Inv := by
  have hu := uint_inv hs 8
  unfold bool
  rcases h : s.uint 8 with ⟨_ | num, t⟩ <;> rw [h] at hu
  · exact hu
  · dsimp only
    split_ifs <;> exact hu

/-- `List` enters a list that `Kind` found to fit the innermost one. -/
theorem list_inv {s : Stream} (hs : s.Inv) : s.list.2.Inv := by
  have hg := getKind_inv hs
  unfold list
  rcases hk : s.getKind with ⟨_ | ⟨k, size⟩, t⟩ <;> rw [hk] at hg
  · exact hg
  · change t.Inv at hg
    obtain ⟨hkt, het, hst⟩ := getKind_ok_cached hk
    dsimp only
    split_ifs
    · exact hg
    · refine inv_of_kind_none ?_ rfl
      obtain ⟨hb, hfits⟩ := hg
      show Bounded (⟨0, size⟩ :: t.stack)
      cases htst : t.stack with
      | nil => exact Nat.zero_le size
      | cons tos up =>
        have := hfits (by simp [hkt]) het tos (by simp [htst])
        rw [htst] at hb
        exact ⟨Nat.zero_le size, show tos.pos + size ≤ tos.size by omega, hb⟩

/-- `ListEnd` passes a list read to its end on to the list around it. -/
theorem listEnd_inv {s : Stream} (hs : s.Inv) : s.listEnd.2.Inv := by
  unfold listEnd
  cases hst : s.stack with
  | nil => exact hs
  | cons tos up =>
    dsimp only
    split_ifs with hp
    · exact hs
    · refine inv_of_kind_none ?_ rfl
      have hb := hs.1
      rw [hst] at hb
      cases up with
      | nil => trivial
      | cons enc up =>
        show Bounded ({ enc with pos := enc.pos + tos.size } :: up)
        exact hb.tail.chargeStack (fun t ht => by
          obtain rfl : t = enc := by simpa using ht.symm
          have := hb.2.1
          omega)

end Stream

/-! ### Decoding -/

section Decode

variable {elemdec : Stream → Except Error Value × Stream}

theorem decodeSliceElems_inv (hdec : ∀ s : Stream, s.Inv → (elemdec s).2.Inv) :
    ∀ fuel (s : Stream) acc, s.Inv → (decodeSliceElems elemdec fuel s acc).2.Inv
  | 0, _, _, hs => hs
  | fuel + 1, s, acc, hs => by
    have he := hdec s hs
    simp only [decodeSliceElems]
    split
    all_goals
      rename_i heq
      rw [heq] at he
    · exact he
    · exact he
    · exact decodeSliceElems_inv hdec fuel _ _ he

theorem decodeListSlice_inv (hdec : ∀ s : Stream, s.Inv → (elemdec s).2.Inv) {s : Stream} (hs : s.Inv) :
    (decodeListSlice elemdec s).2.Inv := by
  have hl := Stream.list_inv hs
  unfold decodeListSlice
  rcases h : s.list with ⟨_ | size, t⟩ <;> rw [h] at hl
  · exact hl
  · dsimp only
    split_ifs
    · -- an empty list is left at once
      have he := Stream.listEnd_inv hl
      rcases h' : t.listEnd with ⟨_ | _, u⟩ <;> rw [h'] at he <;> exact he
    · have he := decodeSliceElems_inv hdec (t.r.length + 1) t [] hl
      rcases h' : decodeSliceElems elemdec (t.r.length + 1) t [] with ⟨_ | vs, u⟩ <;> rw [h'] at he
      · exact he
      · have he' := Stream.listEnd_inv he
        dsimp only
        rcases h'' : u.listEnd with ⟨_ | _, w⟩ <;> rw [h''] at he' <;> exact he'

end Decode

theorem decodeInterface_inv : ∀ depth {s : Stream}, s.Inv → (decodeInterface depth s).2.Inv
  | 0, _, hs => hs
  | depth + 1, s, hs => by
    have hg := Stream.getKind_inv hs
    simp only [decodeInterface]
    split
    all_goals
      rename_i heq
      rw [heq] at hg
    · exact hg
    · -- a list: its elements are values one level down
      exact decodeListSlice_inv (fun _ h => decodeInterface_inv depth h) hg
    · have hb := Stream.bytes_inv hg
      rcases h : Stream.bytes _ with ⟨_ | b, u⟩ <;> rw [h] at hb <;> exact hb

theorem decode_inv {s : Stream} (hs : s.Inv) (depth : Nat) : (s.decode depth).2.Inv := by
  have hd := decodeInterface_inv depth hs
  unfold Stream.decode
  rcases h : decodeInterface depth s with ⟨res, t⟩
  rw [h] at hd
  cases res with
  | ok v => exact hd
  | error e =>
    -- only the context of a decode error changes
    cases e
    case decode msg ctx =>
      dsimp only
      split_ifs <;> exact hd
    all_goals exact hd

/-! ### Any sequence of operations -/

/-- The operations of a `Stream` that a caller makes: `Kind`, `Bytes`, `Raw`, `Uint`, `Bool`, `List`,
`ListEnd`, and `Decode` into an `interface{}` (with a bound on the nesting). -/
inductive Op where
  | kind
  | bytes
  | raw
  | uint
  | bool
  | list
  | listEnd
  | decode (depth : Nat)
  deriving Repr, DecidableEq

/-- The stream after an operation, whether it succeeded or not. -/
def Op.run : Op → Stream → Stream
  | .kind, s => s.getKind.2
  | .bytes, s => s.bytes.2
  | .raw, s => s.raw.2
  | .uint, s => (s.uint 64).2
  | .bool, s => s.bool.2
  | .list, s => s.list.2
  | .listEnd, s => s.listEnd.2
  | .decode depth, s => (s.decode depth).2

/-- The stream after the operations, one after another. -/
def runOps (s : Stream) (ops : List Op) : Stream := ops.foldl (fun s op => op.run s) s

theorem Op.run_inv (op : Op) {s : Stream} (hs : s.Inv) : (op.run s).Inv := by
  cases op with
  | kind => exact Stream.getKind_inv hs
  | bytes => exact Stream.bytes_inv hs
  | raw => exact Stream.raw_inv hs
  | uint => exact Stream.uint_inv hs 64
  | bool => exact Stream.bool_inv hs
  | list => exact Stream.list_inv hs
  | listEnd => exact Stream.listEnd_inv hs
  | decode depth => exact decode_inv hs depth

theorem runOps_inv {s : Stream} (hs : s.Inv) (ops : List Op) : (runOps s ops).Inv :=
  Loop.foldl_inv (fun _ (s : Stream) => s.Inv) (fun (op : Op) _ _ h => op.run_inv h) hs

end Go420coin.Rlp
