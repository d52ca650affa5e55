import Go420coin.Lib.Chunks
import Go420coin.Lib.Loop
import Go420coin.Rlp.Encode

/-!
# The encoder's writer and reader (`rlp/encode.go`)

Besides `toBytes`, the encoder buffer reaches its caller in two more ways.  `Encode` hands it to an
`io.Writer` (`toWriter`: the string data before each list header, the header, and the string data
after the last one, one `Write` each); the writer is modelled by the slices it is given, as a writer
that takes all of every slice (a `bytes.Buffer`) receives them.  `EncodeToReader` returns the
buffer's size and an `encReader`, whose `Read` copies out pieces that `next` cuts from the buffer on
demand; a `Read` is modelled by the bytes it copies and whether it returns `io.EOF`.

The three splice the list headers into the string data the same way once the headers are in the
order of their offsets and inside the string data (`Encbuf.Ordered`), which every buffer the encoder
builds is.  An `encReader` stands for the queue of the bytes it has still to return (`unread`); each
`Read` returns the front of that queue (`read_spec`), so a caller reading with buffers of any sizes
gets `Chunks.reads` of the output of `toBytes`.
-/

namespace Go420coin.Rlp

namespace Encbuf

/-- The loop of `toWriter` over one list header: the string data before the header, if there is any,
then the header. -/
def writeHead (str : List UInt8) (acc : Nat × List (List UInt8)) (head : ListHead) :
    Nat × List (List UInt8) :=
  let (strpos, out) := acc
  let (strpos, out) :=
    if head.offset - strpos > 0 then
      let p := (str.take head.offset).drop strpos
      (strpos + p.length, out ++ [p])
    else (strpos, out)
  (strpos, out ++ [puthead 0xC0 0xF7 head.size])

/-- `toWriter`: the slices written, in order. -/
def toWriter (w : Encbuf) : List (List UInt8) :=
  let (strpos, out) := w.lheads.foldl (writeHead w.str) (0, [])
  if strpos < w.str.length then out ++ [w.str.drop strpos] else out

end Encbuf

/-- `encReader`: the buffer (`nil` at the end), the index of the list header read next, the position
in the string data, and the piece of the last `Read` that did not fit (`nil`: none). -/
structure EncReader where
  buf : Option Encbuf
  lhpos : Nat
  strpos : Nat
  piece : Option (List UInt8)

namespace EncReader

/-- `next`: the piece left over, else the string data before the next list header, else that header,
else the string data after the last header; `nil` once everything was read. -/
def next (r : EncReader) : Option (List UInt8) × EncReader :=
  match r.buf, r.piece with
  | none, _ => (none, r)
  | some _, some piece => (some piece, r)
  | some buf, none =>
    match buf.lheads[r.lhpos]? with
    | some head =>
      let sizebefore := head.offset - r.strpos
      if sizebefore > 0 then
        (some ((buf.str.take head.offset).drop r.strpos), { r with strpos := r.strpos + sizebefore })
      else (some (puthead 0xC0 0xF7 head.size), { r with lhpos := r.lhpos + 1 })
    | none =>
      if r.strpos < buf.str.length then
        (some (buf.str.drop r.strpos), { r with strpos := buf.str.length })
      else (none, r)

/-- A bound on the number of pieces `next` still cuts: two per list header ahead (the string data
before it and the header), one for the string data after the last header, one for a piece left over. -/
def remaining (r : EncReader) : Nat :=
  match r.buf with
  | none => 0
  | some buf =>
    2 * (buf.lheads.length - r.lhpos) +
      (match buf.lheads[r.lhpos]? with
        | some head => if r.strpos < head.offset then 1 else 0
        | none => 0) +
      (if r.strpos < buf.str.length then 1 else 0) + (if r.piece.isSome then 1 else 0)

/-- Each piece that `Read` takes from `next` and copies out whole brings the reader closer to the end. -/
theorem remaining_next_lt {r r' : EncReader} {p : List UInt8} (h : r.next = (some p, r')) :
    { r' with piece := none }.remaining < r.remaining := by
  rcases r with ⟨_ | buf, lhpos, strpos, _ | piece⟩
  · simp [next] at h
  · simp [next] at h
  · simp only [next] at h
    rcases hh : buf.lheads[lhpos]? with _ | head
    · -- after the last header: the string data left
      simp only [hh] at h
      by_cases hs : strpos < buf.str.length
      · rw [if_pos hs, Prod.mk.injEq] at h
        obtain ⟨-, rfl⟩ := h
        simp [remaining, hh, hs]
      · rw [if_neg hs] at h
        cases h
    · have hlt : lhpos < buf.lheads.length := by
        rw [List.getElem?_eq_some_iff] at hh
        exact hh.1
      simp only [hh] at h
      by_cases hb : head.offset - strpos > 0
      · -- the string data before the header
        rw [if_pos hb, Prod.mk.injEq] at h
        obtain ⟨-, rfl⟩ := h
        simp only [remaining, hh, Option.isSome_none]
        split_ifs <;> omega
      · -- the header: its index moves on
        rw [if_neg hb, Prod.mk.injEq] at h
        obtain ⟨-, rfl⟩ := h
        simp only [remaining, hh, Option.isSome_none]
        split <;> split_ifs <;> omega
  · simp only [next, Prod.mk.injEq] at h
    obtain ⟨-, rfl⟩ := h
    simp only [remaining, Option.isSome_none, Option.isSome_some, Bool.false_eq_true, if_false, if_true]
    omega

/-- `Read` into a buffer of `len` bytes: the bytes copied into it, whether it returns `io.EOF`, and
the reader after.  The loop copies pieces from `next` until one does not fit, which is kept for the
next `Read`, or none is left, when the buffer is released. -/
def read (r : EncReader) (len : Nat) : List UInt8 × Bool × EncReader :=
  loop r []
where
  loop (r : EncReader) (b : List UInt8) : List UInt8 × Bool × EncReader :=
    match _hnext : r.next with
    | (none, r') => (b, true, { r' with piece := none, buf := none })
    | (some piece, r') =>
      let nn := min (len - b.length) piece.length
      let b := b ++ piece.take nn
      if nn < piece.length then (b, false, { r' with piece := some (piece.drop nn) })
      else loop { r' with piece := none } b
  termination_by r.remaining
  decreasing_by exact remaining_next_lt _hnext

/-- A caller reading from `r` with buffers of the given sizes, one `Read` after another: what each
read returns. -/
def readSeq (r : EncReader) : List Nat → List (List UInt8 × Bool)
  | [] => []
  | k :: ks =>
    let (out, eof, r) := r.read k
    (out, eof) :: readSeq r ks

end EncReader

/-- `Encode` to a writer that is not an `encbuf`: the slices written. -/
def encodeToWriter (v : Value) : List (List UInt8) := (Encbuf.reset.writeValue v).toWriter

/-- `EncodeToReader`: the size of the encoding, and a reader over the encoder buffer. -/
def encodeToReader (v : Value) : Nat × EncReader :=
  let eb := Encbuf.reset.writeValue v
  (eb.size, ⟨some eb, 0, 0, none⟩)

/-! ### Headers ahead of a position -/

namespace Encbuf

/-- The list headers `heads`, still to be spliced in from string position `pos` on: in the order of
their offsets, and between `pos` and the end of the string data. -/
def Ahead (str : List UInt8) (heads : List ListHead) (pos : Nat) : Prop :=
  (heads.map ListHead.offset).Pairwise (· ≤ ·) ∧ pos ≤ str.length ∧
    ∀ o ∈ heads.map ListHead.offset, pos ≤ o ∧ o ≤ str.length

namespace Ahead

variable {str : List UInt8} {head : ListHead} {heads : List ListHead} {pos : Nat}

/-- The string data before the next header. -/
theorem before (h : Ahead str (head :: heads) pos) :
    render str (head :: heads) pos =
        (str.take head.offset).drop pos ++ render str (head :: heads) head.offset ∧
      ((str.take head.offset).drop pos).length = head.offset - pos ∧
      Ahead str (head :: heads) head.offset := by
  obtain ⟨hs, hp, ho⟩ := h
  have hh := ho head.offset (by simp)
  refine ⟨?_, ?_, hs, hh.2, fun o hm => ⟨?_, (ho o hm).2⟩⟩
  · simp [render, List.drop_eq_nil_of_le]
  · simp only [List.length_drop, List.length_take]
    omega
  · simp only [List.map_cons, List.mem_cons] at hm
    rcases hm with rfl | hm
    · exact le_rfl
    · exact List.rel_of_pairwise_cons hs hm

/-- The next header, once the string data before it is out. -/
theorem header (h : Ahead str (head :: heads) pos) (hle : head.offset ≤ pos) :
    render str (head :: heads) pos = puthead 0xC0 0xF7 head.size ++ render str heads pos ∧
      Ahead str heads pos := by
  obtain ⟨hs, hp, ho⟩ := h
  have heq : head.offset = pos := le_antisymm hle (ho head.offset (by simp)).1
  refine ⟨?_, List.Pairwise.of_cons hs, hp, fun o hm => ho o (by simp [hm])⟩
  simp [render, heq, List.drop_eq_nil_of_le]

theorem length_render : ∀ {heads : List ListHead} {pos : Nat}, Ahead str heads pos →
    (render str heads pos).length =
      str.length - pos + (heads.map fun h => (puthead 0xC0 0xF7 h.size).length).sum
  | [], pos, _ => by simp [render]
  | head :: heads, pos, h => by
    obtain ⟨hr, hlen, h'⟩ := h.before
    obtain ⟨hr', h''⟩ := h'.header le_rfl
    have ih := length_render h''
    have ho := h.2.2 head.offset (by simp)
    rw [hr, hr', List.length_append, List.length_append, ih, hlen, List.map_cons, List.sum_cons]
    omega

end Ahead

/-! ### Ordered buffers -/

/-- The list headers are in the order of their offsets, and inside the string data. -/
def Ordered (w : Encbuf) : Prop := Ahead w.str w.lheads 0

theorem ordered_reset : reset.Ordered := by simp [Ordered, Ahead, reset]

/-- Whether the headers are ordered depends on their offsets and on the length of the string data,
which may grow. -/
theorem Ordered.of_offsets {w u : Encbuf} (hw : w.Ordered)
    (hh : u.lheads.map ListHead.offset = w.lheads.map ListHead.offset)
    (hs : w.str.length ≤ u.str.length) :
    u.Ordered := by
  obtain ⟨hp, -, ho⟩ := hw
  refine ⟨hh ▸ hp, Nat.zero_le _, fun o hm => ⟨Nat.zero_le _, ?_⟩⟩
  have := (ho o (hh ▸ hm)).2
  omega

theorem Ordered.encodeString {w : Encbuf} (hw : w.Ordered) (b : List UInt8) :
    (w.encodeString b).Ordered := by
  refine hw.of_offsets ?_ ?_ <;>
    simp only [Encbuf.encodeString, encodeStringHeader] <;> split_ifs <;> simp

theorem Ordered.list {w : Encbuf} (hw : w.Ordered) : w.list.2.Ordered := by
  obtain ⟨hp, -, ho⟩ := hw
  refine ⟨?_, Nat.zero_le _, fun o hm => ?_⟩
  · simp only [Encbuf.list, List.map_append, List.map_cons, List.map_nil]
    refine List.pairwise_append.2 ⟨hp, List.pairwise_singleton _ _, fun a ha b hb => ?_⟩
    rw [List.mem_singleton] at hb
    exact hb ▸ (ho a ha).2
  · simp only [Encbuf.list, List.map_append, List.mem_append, List.map_cons, List.map_nil,
      List.mem_singleton] at hm
    rcases hm with hm | rfl
    · exact ho o hm
    · exact ⟨Nat.zero_le _, le_rfl⟩

/-- `listEnd` sets a header's size, not its offset. -/
theorem listEnd_offsets (w : Encbuf) (index : Nat) :
    (w.listEnd index).lheads.map ListHead.offset = w.lheads.map ListHead.offset ∧
      (w.listEnd index).str = w.str := by
  unfold listEnd
  split
  · exact ⟨rfl, rfl⟩
  · rename_i lh hlh
    refine ⟨?_, rfl⟩
    obtain ⟨hi, hget⟩ := List.getElem?_eq_some_iff.1 hlh
    have hi' : index < (w.lheads.map ListHead.offset).length := by simpa using hi
    have hoff : lh.offset = (w.lheads.map ListHead.offset)[index] := by simp [hget]
    rw [List.map_set]
    simp only [hoff, List.set_getElem_self hi']

theorem Ordered.listEnd {w : Encbuf} (hw : w.Ordered) (index : Nat) : (w.listEnd index).Ordered :=
  hw.of_offsets (w.listEnd_offsets index).1 (by rw [(w.listEnd_offsets index).2])

mutual
theorem Ordered.writeValue {w : Encbuf} (hw : w.Ordered) : ∀ v, (w.writeValue v).Ordered
  | .bytes b => hw.encodeString b
  | .list vs => (hw.list.writeValues vs).listEnd _

theorem Ordered.writeValues {w : Encbuf} (hw : w.Ordered) : ∀ vs, (w.writeValues vs).Ordered
  | [] => hw
  | v :: vs => (hw.writeValue v).writeValues vs
end

/-! ### The writer -/

/-- One header of `toWriter`'s loop: what is written, followed by what `toBytes` splices in after
it, is what `toBytes` splices in from before it. -/
theorem writeHead_spec {str : List UInt8} {head : ListHead} {heads : List ListHead} {strpos : Nat}
    (h : Ahead str (head :: heads) strpos) (out : List (List UInt8)) :
    Ahead str heads (writeHead str (strpos, out) head).1 ∧
      (writeHead str (strpos, out) head).2.flatten ++
          render str heads (writeHead str (strpos, out) head).1 =
        out.flatten ++ render str (head :: heads) strpos := by
  unfold writeHead
  by_cases hb : head.offset - strpos > 0
  · -- the string data before the header, then the header
    obtain ⟨hr, hlen, h'⟩ := h.before
    obtain ⟨hr', h''⟩ := h'.header le_rfl
    have hpos : strpos + ((str.take head.offset).drop strpos).length = head.offset := by omega
    simp only [if_pos hb, hpos]
    refine ⟨h'', ?_⟩
    rw [hr, hr']
    simp
  · -- the string data before the header is out already
    obtain ⟨hr', h''⟩ := h.header (by omega)
    simp only [if_neg hb]
    refine ⟨h'', ?_⟩
    rw [hr']
    simp

/-- `toWriter` writes what `toBytes` returns. -/
theorem flatten_toWriter {w : Encbuf} (hw : w.Ordered) : w.toWriter.flatten = w.toBytes := by
  have hI := Loop.foldl_inv (f := writeHead w.str)
    (fun l acc => Ahead w.str l acc.1 ∧ acc.2.flatten ++ render w.str l acc.1 = w.toBytes)
    (fun head l acc ⟨ha, hout⟩ => by
      obtain ⟨ha', hout'⟩ := writeHead_spec ha acc.2
      exact ⟨ha', hout'.trans hout⟩)
    (l := w.lheads) (b := (0, [])) ⟨hw, by simp [toBytes]⟩
  obtain ⟨-, hout⟩ := hI
  rcases hacc : w.lheads.foldl (writeHead w.str) (0, []) with ⟨strpos, out⟩
  rw [hacc] at hout
  simp only [render] at hout
  unfold toWriter
  rw [hacc]
  dsimp only
  split_ifs with hs
  · simpa using hout
  · rw [List.drop_eq_nil_of_le (by omega), List.append_nil] at hout
    exact hout

end Encbuf

/-! ### The reader -/

namespace EncReader

/-- What the reader has still to return: the piece left over, then the rest of the buffer from the
next header and string position on. -/
def unread (r : EncReader) : List UInt8 :=
  r.piece.getD [] ++
    match r.buf with
    | none => []
    | some w => Encbuf.render w.str (w.lheads.drop r.lhpos) r.strpos

/-- The headers still ahead of the reader are ordered from its string position on; at the end no piece
is left over. -/
def Inv (r : EncReader) : Prop :=
  match r.buf with
  | none => r.piece = none
  | some w => Encbuf.Ahead w.str (w.lheads.drop r.lhpos) r.strpos

theorem unread_piece (r : EncReader) (q : List UInt8) :
    { r with piece := some q }.unread = q ++ { r with piece := none }.unread := by
  simp [unread]

theorem inv_piece {r : EncReader} {w : Encbuf} (hb : r.buf = some w) (q : Option (List UInt8)) :
    { r with piece := q }.Inv ↔ r.Inv := by
  simp only [Inv, hb]

/-- `next` at the end of the buffer: nothing is left to read. -/
theorem next_none {r r' : EncReader} (hr : r.Inv) (h : r.next = (none, r')) :
    r.unread = [] ∧ r' = r := by
  rcases r with ⟨_ | buf, lhpos, strpos, _ | piece⟩
  · simp only [next, Prod.mk.injEq, true_and] at h
    exact ⟨rfl, h.symm⟩
  · simp [Inv] at hr
  · simp only [next] at h
    rcases hh : buf.lheads[lhpos]? with _ | head
    · simp only [hh] at h
      by_cases hs : strpos < buf.str.length
      · simp [hs] at h
      · simp only [if_neg hs, Prod.mk.injEq, true_and] at h
        have hd : buf.lheads.drop lhpos = [] := by simpa using hh
        refine ⟨?_, h.symm⟩
        simp [unread, hd, Encbuf.render, List.drop_eq_nil_of_le (Nat.le_of_not_lt hs)]
    · simp only [hh] at h
      split_ifs at h <;> simp at h
  · simp [next] at h

/-- `next` cuts the front of what is left to read, and keeps the invariant. -/
theorem next_some {r r' : EncReader} {p : List UInt8} (hr : r.Inv) (h : r.next = (some p, r')) :
    (∃ w, r'.buf = some w) ∧ r.unread = p ++ { r' with piece := none }.unread ∧
      { r' with piece := none }.Inv := by
  rcases r with ⟨_ | buf, lhpos, strpos, _ | piece⟩
  · simp [next] at h
  · simp [next] at h
  · simp only [next] at h
    simp only [Inv] at hr
    rcases hh : buf.lheads[lhpos]? with _ | head
    · -- after the last header: the string data left
      simp only [hh] at h
      have hd : buf.lheads.drop lhpos = [] := by simpa using hh
      by_cases hs : strpos < buf.str.length
      · simp only [if_pos hs, Prod.mk.injEq, Option.some.injEq] at h
        obtain ⟨rfl, rfl⟩ := h
        refine ⟨⟨buf, rfl⟩, ?_, ?_⟩
        · simp [unread, hd, Encbuf.render]
        · simp [Inv, hd, Encbuf.Ahead]
      · simp [hs] at h
    · obtain ⟨hi, hget⟩ := List.getElem?_eq_some_iff.1 hh
      have hd : buf.lheads.drop lhpos = head :: buf.lheads.drop (lhpos + 1) := by
        rw [List.drop_eq_getElem_cons hi, hget]
      rw [hd] at hr
      simp only [hh] at h
      by_cases hb : head.offset - strpos > 0
      · -- the string data before the header
        simp only [if_pos hb, Prod.mk.injEq, Option.some.injEq] at h
        obtain ⟨rfl, rfl⟩ := h
        obtain ⟨hr', -, h'⟩ := hr.before
        have hpos : strpos + (head.offset - strpos) = head.offset := by omega
        refine ⟨⟨buf, rfl⟩, ?_, ?_⟩
        · simp only [unread, Option.getD_none, List.nil_append, hd, hpos]
          exact hr'
        · simpa only [Inv, hd, hpos] using h'
      · -- the header
        simp only [if_neg hb, Prod.mk.injEq, Option.some.injEq] at h
        obtain ⟨rfl, rfl⟩ := h
        obtain ⟨hr', h'⟩ := hr.header (by omega)
        refine ⟨⟨buf, rfl⟩, ?_, ?_⟩
        · simp only [unread, Option.getD_none, List.nil_append, hd]
          exact hr'
        · simpa only [Inv] using h'
  · -- the piece left over
    simp only [next, Prod.mk.injEq, Option.some.injEq] at h
    obtain ⟨rfl, rfl⟩ := h
    exact ⟨⟨buf, rfl⟩, by simp [unread], (inv_piece rfl _).2 hr⟩

/-- The loop of `Read`, with `b` copied so far: it copies the front of what is left to read, as much
as fits, and returns `io.EOF` when that is all. -/
theorem read_loop (len : Nat) (r : EncReader) (b : List UInt8) (hr : r.Inv) (hb : b.length ≤ len) :
    (read.loop len r b).1 = b ++ r.unread.take (len - b.length) ∧
      (read.loop len r b).2.1 = decide (r.unread.length ≤ len - b.length) ∧
      (read.loop len r b).2.2.unread = r.unread.drop (len - b.length) ∧
      (read.loop len r b).2.2.Inv := by
  fun_induction read.loop len r b with
  | case1 r b r' h =>
    -- nothing left: `io.EOF`, and the buffer is released
    obtain ⟨hu, -⟩ := next_none hr h
    rw [hu]
    exact ⟨by simp, by simp, by simp [unread], by simp [Inv]⟩
  | case2 r b p r' h nn b' hlt =>
    -- the piece does not fit: the rest of it is kept
    obtain ⟨⟨w, hw⟩, hu, hinv⟩ := next_some hr h
    have hnn : nn = len - b.length := by simp only [nn] at hlt ⊢; omega
    have hle : nn ≤ p.length := le_of_lt hlt
    refine ⟨?_, ?_, ?_, (inv_piece hw _).2 ((inv_piece hw _).1 hinv)⟩
    · rw [hu, ← hnn, List.take_append_of_le_length hle]
    · rw [hu, ← hnn, List.length_append]
      exact (decide_eq_false (by omega)).symm
    · rw [unread_piece, hu, ← hnn, List.drop_append_of_le_length hle]
  | case3 r b p r' h nn b' hge ih =>
    -- the piece fits: the loop goes on with the next one
    obtain ⟨-, hu, hinv⟩ := next_some hr h
    have hnn : nn = p.length := by simp only [nn] at hge ⊢; omega
    have hp : p.length ≤ len - b.length := by simp only [nn] at hge; omega
    have hb' : b' = b ++ p := by simp only [b', hnn, List.take_length]
    have hlen : b'.length = b.length + p.length := by rw [hb', List.length_append]
    obtain ⟨h1, h2, h3, h4⟩ := ih hinv (by omega)
    refine ⟨?_, ?_, ?_, h4⟩
    · rw [h1, hu, hlen, hb', List.take_append, List.take_of_length_le hp, List.append_assoc]
      congr 3
      omega
    · rw [h2, hu, hlen, List.length_append]
      simp only [decide_eq_decide]
      omega
    · rw [h3, hu, hlen, List.drop_append, List.drop_eq_nil_of_le hp, List.nil_append]
      congr 1
      omega

/-- `Read` returns the front of what is left to read, as much as fits, and `io.EOF` when that is all. -/
theorem read_spec {r : EncReader} (hr : r.Inv) (len : Nat) :
    (r.read len).1 = r.unread.take len ∧ (r.read len).2.1 = decide (r.unread.length ≤ len) ∧
      (r.read len).2.2.unread = r.unread.drop len ∧ (r.read len).2.2.Inv := by
  simpa [read] using read_loop len r [] hr (Nat.zero_le _)

/-- Reading with buffers of any sizes reads the queue of what is left. -/
theorem readSeq_eq {r : EncReader} (hr : r.Inv) (sizes : List Nat) :
    r.readSeq sizes = Chunks.reads r.unread sizes := by
  induction sizes generalizing r with
  | nil => rfl
  | cons k ks ih =>
    obtain ⟨h1, h2, h3, h4⟩ := read_spec hr k
    rw [readSeq, Chunks.reads, ← h1, ← h2, ← h3, ← ih h4]

end EncReader

/-! ### The three outputs agree -/

theorem ordered_writeValue (v : Value) : (Encbuf.reset.writeValue v).Ordered :=
  Encbuf.ordered_reset.writeValue v

/-- The reader `EncodeToReader` returns has the whole output of `toBytes` still to read. -/
theorem encodeToReader_unread (v : Value) :
    (encodeToReader v).2.Inv ∧ (encodeToReader v).2.unread = encodeToBytes v := by
  refine ⟨ordered_writeValue v, ?_⟩
  simp [encodeToReader, EncReader.unread, encodeToBytes, Encbuf.toBytes]

/-- The encoder's outputs agree, for every value whose strings and list payloads fit their `uint64`
sizes: the slices `Encode` writes make up the output of `EncodeToBytes`; the size `EncodeToReader`
reports is its length, the string data plus the list headers that `listEnd` accounted for; and a
caller reading the reader with buffers of any sizes gets the output read as a queue, so each read
returns the next bytes, as many as fit, and `io.EOF` once the output is read to its end. -/
theorem encoder_outputs_agree (v : Value) (hv : v.fits) :
    (encodeToWriter v).flatten = encodeToBytes v ∧
      (encodeToReader v).1 = (encodeToBytes v).length ∧
      (Encbuf.reset.writeValue v).lhsize =
        ((Encbuf.reset.writeValue v).lheads.map fun h => (puthead 0xC0 0xF7 h.size).length).sum ∧
      ∀ sizes : List Nat, (encodeToReader v).2.readSeq sizes = Chunks.reads (encodeToBytes v) sizes ∧
        (((encodeToReader v).2.readSeq sizes).map Prod.fst).flatten = (encodeToBytes v).take sizes.sum ∧
        ∀ k, ((encodeToReader v).2.readSeq (sizes ++ [k])).getLast? =
          some (((encodeToBytes v).drop sizes.sum).take k,
            decide ((encodeToBytes v).length ≤ sizes.sum + k)) := by
  obtain ⟨hinv, hunread⟩ := encodeToReader_unread v
  have hsize := size_writeValue hv
  have hlen := Encbuf.Ahead.length_render (ordered_writeValue v)
  refine ⟨Encbuf.flatten_toWriter (ordered_writeValue v), hsize, ?_, fun sizes => ?_⟩
  · -- the size is the string data plus the headers; so is the output
    simp only [Encbuf.size, encodeToBytes, Encbuf.toBytes] at hsize
    rw [hlen, Nat.sub_zero] at hsize
    omega
  · have hseq := EncReader.readSeq_eq hinv
    rw [hunread] at hseq
    refine ⟨hseq sizes, by rw [hseq, Chunks.flatten_reads], fun k => ?_⟩
    rw [hseq, Chunks.reads_append_singleton, List.getLast?_append_of_ne_nil _ (by simp)]
    rfl

theorem encoder_outputs_agree_pair :
    (encodeToWriter (.list [.bytes [0x01, 0x02]])).flatten =
        encodeToBytes (.list [.bytes [0x01, 0x02]]) ∧
      (encodeToReader (.list [.bytes [0x01, 0x02]])).1 =
        (encodeToBytes (.list [.bytes [0x01, 0x02]])).length ∧
      (Encbuf.reset.writeValue (.list [.bytes [0x01, 0x02]])).lhsize =
        ((Encbuf.reset.writeValue (.list [.bytes [0x01, 0x02]])).lheads.map
          fun h => (puthead 0xC0 0xF7 h.size).length).sum ∧
      ∀ sizes : List Nat, (encodeToReader (.list [.bytes [0x01, 0x02]])).2.readSeq sizes =
          Chunks.reads (encodeToBytes (.list [.bytes [0x01, 0x02]])) sizes ∧
        (((encodeToReader (.list [.bytes [0x01, 0x02]])).2.readSeq sizes).map Prod.fst).flatten =
          (encodeToBytes (.list [.bytes [0x01, 0x02]])).take sizes.sum ∧
        ∀ k, ((encodeToReader (.list [.bytes [0x01, 0x02]])).2.readSeq (sizes ++ [k])).getLast? =
          some (((encodeToBytes (.list [.bytes [0x01, 0x02]])).drop sizes.sum).take k,
            decide ((encodeToBytes (.list [.bytes [0x01, 0x02]])).length ≤ sizes.sum + k)) :=
  encoder_outputs_agree _ (by decide)

end Go420coin.Rlp
