import Go420coin.Rawdb.Truncate

/-!
# Reopening a table after a crash (`repair`)

A table written by `Append`s keeps a layout (`Shape`): entry zero is `⟨0, 0⟩`, the last entry ends
the head file, along the index the data files do not go down and within a file the ends do not go
down, and every entry ends within its data file.  Each `Append` keeps it, and `Retrieve` returns every
blob appended (`stores_appendAll`), as long as the head file number fits the `uint16` the index
stores it in and every stored blob is shorter than `2 ^ 32` bytes.

A crash cuts the index file and the head data file at any length (`crash`).  `repair` then drops
entries from the end until the last one ends within its data file, and cuts that file at the entry's
end (`repairLoop_take`).  What is left is a prefix of the index over prefixes of the data files, so
`Retrieve` returns the blob appended for every item the reopened table counts
(`repair_crash_retrieve`).

With more than `2 ^ 16` data files the file numbers wrap in the index: a table of `2 ^ 16 + 1`
one-byte blobs, each in a file of its own, reopens with its last item read from file `1`
(`repair_fileWrap`).
-/

namespace Go420coin.Rawdb

variable (codec : Codec)

/-- `Append` of each blob in turn, as the next item. -/
def appendAll (t : FreezerTable) : List Blob → Except FreezerError FreezerTable
  | [] => .ok t
  | b :: bs => append codec t t.items b >>= fun t => appendAll t bs

/-- What a crash leaves on disk: the index file cut to its first `m` entries (a cut inside an entry
drops that entry, as `repair` does first), and the head data file cut to its first `L` bytes. -/
def crash (t : FreezerTable) (m L : Nat) : List IndexEntry × (UInt32 → Option Blob) :=
  (t.index.take m, Function.update t.data t.headId (some (((t.data t.headId).getD []).take L)))

/-- Entry `j` of the index, `⟨0, 0⟩` past its end. -/
def FreezerTable.entry (t : FreezerTable) (j : Nat) : IndexEntry := t.index.getD j ⟨0, 0⟩

/-- The layout `Append` keeps: entry zero is `⟨0, 0⟩` and the last entry ends the head file; along the
index the files do not go down, and within one file the ends do not go down; every entry ends within
its data file; the files from zero to the head exist, and are the open ones. -/
structure Shape (t : FreezerTable) : Prop where
  zero : t.index.head? = some ⟨0, 0⟩
  last : t.index.getLast? = some ⟨t.headId, t.headBytes⟩
  file_mono : ∀ i j, i ≤ j → j < t.index.length → (t.entry i).filenum ≤ (t.entry j).filenum
  end_mono : ∀ i j, i ≤ j → j < t.index.length → (t.entry i).filenum = (t.entry j).filenum →
    (t.entry i).offset ≤ (t.entry j).offset
  covered : ∀ j, j < t.index.length → (t.entry j).offset.toNat ≤ ((t.data (t.entry j).filenum).getD []).length
  exists_data : ∀ f, f ≤ t.headId → (t.data f).isSome
  files : ∀ f, f ∈ t.files ↔ f ≤ t.headId
  head_size : ((t.data t.headId).getD []).length = t.headBytes.toNat
  items : t.items.toNat + 1 = t.index.length
  itemOffset : t.itemOffset = 0
  tailId : t.tailId = 0

/-! ### Arithmetic of the index -/

/-- The file number survives its `uint16` in the index below `2 ^ 16`. -/
theorem marshalEntry_of_lt {f : UInt32} (hf : f.toNat < 2 ^ 16) (o : UInt32) : marshalEntry f o = ⟨f, o⟩ := by
  simp only [marshalEntry, IndexEntry.mk.injEq, and_true]
  apply UInt32.toNat_inj.1
  simp
  omega

/-- A sum that is not below its second summand did not wrap. -/
theorem toNat_add_of_not_lt {a b : UInt32} (h : ¬ a + b < b) : (a + b).toNat = a.toNat + b.toNat := by
  rw [UInt32.lt_iff_toNat_lt, UInt32.toNat_add] at h
  rw [UInt32.toNat_add]
  have ha := a.toNat_lt
  have hb := b.toNat_lt
  by_contra hne
  apply h
  have hge : a.toNat + b.toNat ≥ 2 ^ 32 := by
    by_contra hlt
    exact hne (Nat.mod_eq_of_lt (by omega))
  rw [Nat.mod_eq_sub_mod hge, Nat.mod_eq_of_lt (by omega)]
  omega

/-! ### `Append` of the next item -/

/-- What `Append` of the next item leaves: the stored blob at the end of the head file or of a new head
file after it, and its entry at the end of the index. -/
structure Appended (t : FreezerTable) (blob : Blob) (t' : FreezerTable) : Prop where
  index : t'.index = t.index ++ [marshalEntry t'.headId t'.headBytes]
  data : t'.data = Function.update t.data t'.headId
    (some ((if t'.headId = t.headId then (t.data t.headId).getD [] else []) ++ blob))
  files : t'.files = insert t'.headId t.files
  items : t'.items = t.items + 1
  itemOffset : t'.itemOffset = t.itemOffset
  tailId : t'.tailId = t.tailId
  noCompression : t'.noCompression = t.noCompression
  maxFileSize : t'.maxFileSize = t.maxFileSize
  head : (t'.headId = t.headId ∧ t'.headBytes.toNat = t.headBytes.toNat + blob.length) ∨
    (t'.headId = t.headId + 1 ∧ t'.headBytes.toNat = blob.length)

/-- `Append` of the next item: the blob goes to the end of the head file, or, when it does not fit, to a
new head file after it. -/
theorem append_next (t : FreezerTable) (x : Blob) (hhead : t.headId ∈ t.files) (hnext : t.headId + 1 ∉ t.files)
    (hx : (if t.noCompression then x else codec.encode x).length < 2 ^ 32) :
    ∃ t', append codec t t.items x = .ok t' ∧ Appended t (if t.noCompression then x else codec.encode x) t' := by
  simp only [append, ne_eq, not_true_eq_false, ↓reduceIte]
  generalize hb : (if t.noCompression = true then x else codec.encode x) = blob at hx ⊢
  have hbl : blob.length.toUInt32.toNat = blob.length := by
    simp only [Nat.toUInt32, UInt32.toNat_ofNat']
    exact Nat.mod_eq_of_lt hx
  by_cases hc : (decide (t.headBytes + blob.length.toUInt32 < blob.length.toUInt32) ||
      decide (t.headBytes + blob.length.toUInt32 > t.maxFileSize)) = true
  · -- the blob starts the next data file, opened empty
    simp only [hc, ↓reduceIte, hnext]
    refine ⟨_, rfl, ⟨rfl, ?_, rfl, rfl, rfl, rfl, rfl, rfl, .inr ⟨rfl, ?_⟩⟩⟩
    · simp
    · simp [hbl]
  · simp only [hc, Bool.false_eq_true, ↓reduceIte]
    have hwrap : ¬ t.headBytes + blob.length.toUInt32 < blob.length.toUInt32 := by
      intro h
      simp [h] at hc
    refine ⟨_, rfl, ⟨rfl, by simp, by simp [hhead], rfl, rfl, rfl, rfl, rfl, .inl ⟨rfl, ?_⟩⟩⟩
    rw [toNat_add_of_not_lt hwrap, hbl]

/-! ### The layout kept by `Append` -/

theorem getD_append_singleton {α : Type} (l : List α) (e d : α) (j : Nat) :
    (l ++ [e]).getD j d = if j < l.length then l.getD j d else if j = l.length then e else d := by
  simp only [List.getD_eq_getElem?_getD]
  split_ifs with h1 h2
  · rw [List.getElem?_append_left h1]
  · subst h2
    simp
  · rw [List.getElem?_eq_none (by simp; omega)]
    rfl

namespace Shape

variable {t : FreezerTable}

theorem index_ne_nil (hs : Shape t) : t.index ≠ [] := by
  intro h
  simpa [h] using hs.zero

theorem entry_zero (hs : Shape t) : t.entry 0 = ⟨0, 0⟩ := by
  have h := hs.zero
  rw [List.head?_eq_getElem?] at h
  simp [FreezerTable.entry, List.getD_eq_getElem?_getD, h]

theorem entry_last (hs : Shape t) : t.entry (t.index.length - 1) = ⟨t.headId, t.headBytes⟩ := by
  have h := hs.last
  rw [List.getLast?_eq_getElem?] at h
  simp [FreezerTable.entry, List.getD_eq_getElem?_getD, h]

/-- No entry names a file after the head. -/
theorem filenum_le (hs : Shape t) {j : Nat} (hj : j < t.index.length) : (t.entry j).filenum ≤ t.headId := by
  have := hs.file_mono j (t.index.length - 1) (by omega) (by omega)
  rwa [hs.entry_last] at this

/-- No entry in the head file ends after the head's last byte. -/
theorem offset_le (hs : Shape t) {j : Nat} (hj : j < t.index.length) (hf : (t.entry j).filenum = t.headId) :
    (t.entry j).offset ≤ t.headBytes := by
  have := hs.end_mono j (t.index.length - 1) (by omega) (by omega) (by rw [hs.entry_last]; exact hf)
  rwa [hs.entry_last] at this

end Shape

namespace Appended

variable {t t' : FreezerTable} {blob : Blob}

/-- The head moves to the next file at most, and its last byte is the blob's. -/
theorem head_toNat (ha : Appended t blob t') (h16 : t.headId.toNat < 2 ^ 16) :
    (t'.headId = t.headId ∧ t'.headBytes.toNat = t.headBytes.toNat + blob.length) ∨
      (t'.headId.toNat = t.headId.toNat + 1 ∧ t'.headBytes.toNat = blob.length) := by
  rcases ha.head with h | ⟨h, hb⟩
  · exact .inl h
  · refine .inr ⟨?_, hb⟩
    rw [h, UInt32.toNat_add, UInt32.toNat_one]
    exact Nat.mod_eq_of_lt (by omega)

theorem head_size (ha : Appended t blob t') (hs : Shape t) (h16 : t.headId.toNat < 2 ^ 16) :
    ((t'.data t'.headId).getD []).length = t'.headBytes.toNat := by
  rw [ha.data, Function.update_self, Option.getD_some]
  rcases ha.head_toNat h16 with ⟨h, hb⟩ | ⟨h, hb⟩
  · rw [if_pos h, List.length_append, hs.head_size, hb]
  · have hne : t'.headId ≠ t.headId := fun he => by rw [he] at h; omega
    rw [if_neg hne, List.nil_append, hb]

/-- The entries after `Append`: the old ones, then the new head's end. -/
theorem entry_eq (ha : Appended t blob t') (h16' : t'.headId.toNat < 2 ^ 16) (j : Nat) :
    t'.entry j = if j < t.index.length then t.entry j
      else if j = t.index.length then ⟨t'.headId, t'.headBytes⟩ else ⟨0, 0⟩ := by
  simp only [FreezerTable.entry, ha.index, marshalEntry_of_lt h16', getD_append_singleton]

/-- `Append` keeps the layout while the head file number fits in its `uint16`. -/
theorem shape (ha : Appended t blob t') (hs : Shape t) (h16 : t.headId.toNat < 2 ^ 16)
    (h16' : t'.headId.toNat < 2 ^ 16) (hitems : t.items.toNat + 1 < 2 ^ 64) : Shape t' := by
  have hne := hs.index_ne_nil
  have hentry := ha.entry_eq h16'
  have hlen : t'.index.length = t.index.length + 1 := by simp [ha.index]
  have hhead := ha.head_toNat h16
  -- every old entry lies at or below the old head, hence below the new one
  have hold : ∀ j, j < t.index.length → (t.entry j).filenum.toNat ≤ t.headId.toNat :=
    fun j hj => UInt32.le_iff_toNat_le.1 (hs.filenum_le hj)
  have hup : t.headId.toNat ≤ t'.headId.toNat := by
    rcases hhead with ⟨h, -⟩ | ⟨h, -⟩
    · rw [h]
    · omega
  have hsize := ha.head_size hs h16
  -- the data of a file other than the new head is as it was
  have hdata : ∀ f, f ≠ t'.headId → t'.data f = t.data f := fun f hf => by
    rw [ha.data, Function.update_of_ne hf]
  refine ⟨?_, ?_, ?_, ?_, ?_, ?_, ?_, hsize, ?_, ?_, ?_⟩
  · simp [ha.index, List.head?_append, hs.zero]
  · simp [ha.index, marshalEntry_of_lt h16']
  · intro i j hij hj
    rw [hlen] at hj
    by_cases hj' : j < t.index.length
    · rw [hentry i, hentry j, if_pos (show i < t.index.length by omega), if_pos hj']
      exact hs.file_mono i j hij hj'
    · rw [hentry j, if_neg hj', if_pos (show j = t.index.length by omega)]
      by_cases hi : i < t.index.length
      · rw [hentry i, if_pos hi, UInt32.le_iff_toNat_le]
        exact (hold i hi).trans hup
      · rw [hentry i, if_neg hi, if_pos (show i = t.index.length by omega)]
        exact UInt32.le_refl _
  · intro i j hij hj hf
    rw [hlen] at hj
    by_cases hj' : j < t.index.length
    · rw [hentry i, hentry j, if_pos (show i < t.index.length by omega), if_pos hj'] at hf ⊢
      exact hs.end_mono i j hij hj' hf
    · rw [hentry j, if_neg hj', if_pos (show j = t.index.length by omega)] at hf ⊢
      dsimp only at hf ⊢
      by_cases hi : i < t.index.length
      · -- an old entry in the new head: the head did not move, and the blob comes after the entry
        rw [hentry i, if_pos hi] at hf ⊢
        rcases hhead with ⟨h, hb⟩ | ⟨h, -⟩
        · rw [h] at hf
          rw [UInt32.le_iff_toNat_le, hb]
          have := UInt32.le_iff_toNat_le.1 (hs.offset_le hi hf)
          omega
        · have := hold i hi
          rw [hf] at this
          omega
      · rw [hentry i, if_neg hi, if_pos (show i = t.index.length by omega)]
        exact UInt32.le_refl _
  · intro j hj
    rw [hlen] at hj
    rw [hentry j]
    split_ifs with hj' hj''
    · by_cases hf : (t.entry j).filenum = t'.headId
      · rcases hhead with ⟨h, -⟩ | ⟨h, -⟩
        · rw [hf, ha.data, Function.update_self, Option.getD_some, if_pos h, List.length_append]
          have := hs.covered j hj'
          rw [hf, h] at this
          omega
        · have := hold j hj'
          rw [hf] at this
          omega
      · rw [hdata _ hf]
        exact hs.covered j hj'
    · exact hsize.ge
    · omega
  · intro f hf
    by_cases hfh : f = t'.headId
    · rw [hfh, ha.data, Function.update_self]
      rfl
    · rw [hdata f hfh]
      apply hs.exists_data
      rw [UInt32.le_iff_toNat_le] at hf ⊢
      have hne' : f.toNat ≠ t'.headId.toNat := fun he => hfh (UInt32.toNat_inj.1 he)
      rcases hhead with ⟨h, -⟩ | ⟨h, -⟩
      · rw [h] at hne' hf
        omega
      · omega
  · intro f
    rw [ha.files, Finset.mem_insert, hs.files, UInt32.le_iff_toNat_le, UInt32.le_iff_toNat_le]
    have hinj : f = t'.headId ↔ f.toNat = t'.headId.toNat := ⟨fun h => by rw [h], UInt32.toNat_inj.1⟩
    rw [hinj]
    rcases hhead with ⟨h, -⟩ | ⟨h, -⟩
    · rw [h]
      omega
    · omega
  · rw [ha.items, hlen, ← hs.items, UInt64.toNat_add, UInt64.toNat_one, Nat.mod_eq_of_lt hitems]
  · rw [ha.itemOffset, hs.itemOffset]
  · rw [ha.tailId, hs.tailId]

end Appended

/-! ### What `Retrieve` reads in a table of this layout -/

/-- Where item `i` starts: at the end of entry `i`, or at zero where entry `i + 1` lies in another
file. -/
def FreezerTable.start (t : FreezerTable) (i : Nat) : UInt32 :=
  if (t.entry i).filenum = (t.entry (i + 1)).filenum then (t.entry i).offset else 0

/-- The bytes of item `i` in its data file, from its start to the end of entry `i + 1`. -/
def FreezerTable.slice (t : FreezerTable) (i : Nat) : Blob :=
  let e := t.entry (i + 1)
  ((((t.data e.filenum).getD []).drop (t.start i).toNat).take (e.offset.toNat - (t.start i).toNat))

/-- A blob as `Append` stores it. -/
def pack (noCompression : Bool) (x : Blob) : Blob := if noCompression then x else codec.encode x

/-- What `Retrieve` makes of the bytes it read. -/
def unpack (noCompression : Bool) (blob : Blob) : Except FreezerError Blob :=
  if noCompression then .ok blob
  else match codec.decode blob with
    | some blob => .ok blob
    | none => .error .corrupt

theorem unpack_pack (hcodec : ∀ b, codec.decode (codec.encode b) = some b) (noCompression : Bool) (x : Blob) :
    unpack codec noCompression (pack codec noCompression x) = .ok x := by
  cases noCompression <;> simp [unpack, pack, hcodec]

theorem getElem?_index {t : FreezerTable} {j : Nat} (hj : j < t.index.length) : t.index[j]? = some (t.entry j) := by
  simp [FreezerTable.entry, List.getD_eq_getElem?_getD, List.getElem?_eq_getElem hj]

namespace Shape

variable {t : FreezerTable}

theorem start_le (hs : Shape t) {i : Nat} (hi : i + 1 < t.index.length) :
    (t.start i).toNat ≤ (t.entry (i + 1)).offset.toNat := by
  unfold FreezerTable.start
  split_ifs with hf
  · exact UInt32.le_iff_toNat_le.1 (hs.end_mono i (i + 1) (by omega) hi hf)
  · simp

theorem getBounds_eq (hs : Shape t) {item : UInt64} (hi : item < t.items) :
    getBounds t item = .ok (t.start item.toNat, (t.entry (item.toNat + 1)).offset,
      (t.entry (item.toNat + 1)).filenum) := by
  have hlen := hs.items
  have hlt := UInt64.lt_iff_toNat_lt.1 hi
  unfold getBounds readEntry
  rw [toNat_add_one_of_lt hi, getElem?_index (by omega)]
  by_cases h0 : item = 0
  · -- entry zero is `⟨0, 0⟩`, so the first item starts at zero either way
    subst h0
    simp [FreezerTable.start, hs.entry_zero]
  · rw [getElem?_index (by omega)]
    by_cases hf : (t.entry item.toNat).filenum = (t.entry (item.toNat + 1)).filenum
    · simp [h0, hf, FreezerTable.start]
    · simp [h0, hf, FreezerTable.start]

/-- In a table of this layout `Retrieve` reads the slice of each item. -/
theorem retrieve_eq (hs : Shape t) {item : UInt64} (hi : item < t.items) :
    retrieve codec t item = unpack codec t.noCompression (t.slice item.toNat) := by
  have hlen := hs.items
  have hlt := UInt64.lt_iff_toNat_lt.1 hi
  have hj : item.toNat + 1 < t.index.length := by omega
  have hfile : (t.entry (item.toNat + 1)).filenum ∈ t.files := (hs.files _).2 (hs.filenum_le hj)
  have hcov := hs.covered _ hj
  have hstart := hs.start_le hj
  have hsize : (((t.entry (item.toNat + 1)).offset - t.start item.toNat)).toNat =
      (t.entry (item.toNat + 1)).offset.toNat - (t.start item.toNat).toNat :=
    UInt32.toNat_sub_of_le _ _ (UInt32.le_iff_toNat_le.2 hstart)
  have hnot : ¬ t.items ≤ item := UInt64.not_le.2 hi
  unfold retrieve
  have h0 : t.itemOffset.toUInt64 = 0 := by rw [hs.itemOffset]; rfl
  simp only [hnot, h0, if_false, gt_iff_lt, UInt64.not_lt_zero, UInt64.sub_zero, hs.getBounds_eq hi]
  have hread : ¬ ((t.data (t.entry (item.toNat + 1)).filenum).getD []).length <
      (t.start item.toNat).toNat + ((t.entry (item.toNat + 1)).offset.toNat - (t.start item.toNat).toNat) := by
    omega
  simp only [Except.ok_bind, hfile, not_true_eq_false, if_false, hsize, hread, FreezerTable.slice, unpack]
  rfl

end Shape

/-- A read that ends by `e` takes the same bytes from two files that agree on their first `e` bytes. -/
theorem drop_take_congr {c c' : Blob} {s e : Nat} (h : c'.take e = c.take e) :
    (c'.drop s).take (e - s) = (c.drop s).take (e - s) := by
  rw [← List.drop_take, ← List.drop_take, h]

/-- Two tables with the same entries around item `i`, whose data files agree up to the end of item
`i`, hold the same bytes for it. -/
theorem slice_congr {t t' : FreezerTable} {i : Nat} (h₀ : t'.entry i = t.entry i)
    (h₁ : t'.entry (i + 1) = t.entry (i + 1))
    (hdata : ((t'.data (t.entry (i + 1)).filenum).getD []).take (t.entry (i + 1)).offset.toNat =
      ((t.data (t.entry (i + 1)).filenum).getD []).take (t.entry (i + 1)).offset.toNat) :
    t'.slice i = t.slice i := by
  simp only [FreezerTable.slice, FreezerTable.start, h₀, h₁]
  exact drop_take_congr hdata

/-- The table holds the blobs `bs`: it has the layout, counts them, and item `i` takes the bytes
`bs[i]` is stored as. -/
structure Holds (t : FreezerTable) (bs : List Blob) : Prop where
  shape : Shape t
  items : t.items.toNat = bs.length
  slice : ∀ i b, bs[i]? = some b → t.slice i = pack codec t.noCompression b

/-- `Retrieve` returns every blob the table holds. -/
theorem Holds.retrieve {t : FreezerTable} {bs : List Blob} (ht : Holds codec t bs) (hcodec : ∀ b, codec.decode (codec.encode b) = some b)
    {item : UInt64} {b : Blob} (hb : bs[item.toNat]? = some b) : retrieve codec t item = .ok b := by
  have hi : item < t.items := by
    rw [UInt64.lt_iff_toNat_lt, ht.items]
    exact (List.getElem?_eq_some_iff.1 hb).1
  rw [ht.shape.retrieve_eq codec hi, ht.slice _ _ hb, unpack_pack codec hcodec]

namespace Appended

variable {t t' : FreezerTable} {blob : Blob}

/-- The head file keeps its number when an entry of it is still the last of the old index. -/
theorem headId_eq_of_filenum (ha : Appended t blob t') (hs : Shape t) (h16 : t.headId.toNat < 2 ^ 16)
    {j : Nat} (hj : j < t.index.length) (hf : (t.entry j).filenum = t'.headId) : t'.headId = t.headId := by
  rcases ha.head_toNat h16 with ⟨h, -⟩ | ⟨h, -⟩
  · exact h
  · have := UInt32.le_iff_toNat_le.1 (hs.filenum_le hj)
    rw [hf] at this
    omega

/-- An item stored before keeps its bytes: the blob goes after the end of every old entry. -/
theorem slice_old (ha : Appended t blob t') (hs : Shape t) (h16 : t.headId.toNat < 2 ^ 16)
    (h16' : t'.headId.toNat < 2 ^ 16) {i : Nat} (hi : i + 1 < t.index.length) : t'.slice i = t.slice i := by
  have hentry := ha.entry_eq h16'
  refine slice_congr (by rw [hentry, if_pos (by omega)]) (by rw [hentry, if_pos hi]) ?_
  by_cases hf : (t.entry (i + 1)).filenum = t'.headId
  · have hsame := ha.headId_eq_of_filenum hs h16 hi hf
    have hcov := hs.covered _ hi
    rw [hf, hsame] at hcov
    rw [hf, ha.data, Function.update_self, Option.getD_some, if_pos hsame, hsame,
      List.take_append_of_le_length hcov]
  · rw [ha.data, Function.update_of_ne hf]

/-- The new item takes the bytes of the blob. -/
theorem slice_new (ha : Appended t blob t') (hs : Shape t) (h16 : t.headId.toNat < 2 ^ 16)
    (h16' : t'.headId.toNat < 2 ^ 16) : t'.slice (t.index.length - 1) = blob := by
  have hne := hs.index_ne_nil
  have hentry := ha.entry_eq h16'
  have hlast : t'.entry (t.index.length - 1) = ⟨t.headId, t.headBytes⟩ := by
    rw [hentry, if_pos (by have := List.length_pos_of_ne_nil hne; omega), hs.entry_last]
  have hnew : t'.entry (t.index.length - 1 + 1) = ⟨t'.headId, t'.headBytes⟩ := by
    rw [hentry, if_neg (by omega), if_pos (by have := List.length_pos_of_ne_nil hne; omega)]
  simp only [FreezerTable.slice, FreezerTable.start, hlast, hnew]
  rw [ha.data, Function.update_self, Option.getD_some]
  rcases ha.head_toNat h16 with ⟨h, hb⟩ | ⟨h, hb⟩
  · -- the blob follows the old head's last byte in the same file
    rw [if_pos h.symm, if_pos h, hb, ← hs.head_size, Nat.add_sub_cancel_left, List.drop_left,
      List.take_length]
  · have hne' : t.headId ≠ t'.headId := fun he => by rw [← he] at h; omega
    rw [if_neg hne', if_neg (Ne.symm hne'), hb, List.nil_append]
    simp

/-- `Append` of `x` to a table that holds `bs` holds `bs ++ [x]`. -/
theorem holds {bs : List Blob} {x : Blob} (ha : Appended t (pack codec t.noCompression x) t')
    (ht : Holds codec t bs) (h16 : t.headId.toNat < 2 ^ 16) (h16' : t'.headId.toNat < 2 ^ 16)
    (hcount : bs.length + 1 < 2 ^ 64) : Holds codec t' (bs ++ [x]) := by
  have hlen := ht.shape.items
  rw [ht.items] at hlen
  refine ⟨ha.shape ht.shape h16 h16' (by rw [ht.items]; exact hcount), ?_, fun i b hb => ?_⟩
  · rw [ha.items, UInt64.toNat_add, UInt64.toNat_one, ht.items, Nat.mod_eq_of_lt hcount, List.length_append,
      List.length_singleton]
  rw [ha.noCompression]
  by_cases hi : i < bs.length
  · rw [List.getElem?_append_left hi] at hb
    rw [ha.slice_old ht.shape h16 h16' (by omega), ht.slice i b hb]
  · -- the one new item
    rw [List.getElem?_append_right (by omega)] at hb
    obtain ⟨hi', rfl⟩ : i - bs.length = 0 ∧ x = b := by
      rw [List.getElem?_singleton] at hb
      simpa using hb
    rw [show i = t.index.length - 1 by omega, ha.slice_new ht.shape h16 h16']

end Appended

/-- The table `newCustomTable` opens on no files: the index holds the zero entry, and the head is
data file zero, empty. -/
def newTable (maxFileSize : UInt32) (noCompression : Bool) : FreezerTable where
  index := [⟨0, 0⟩]
  data := Function.update (fun _ => none) 0 (some [])
  files := insert 0 ∅
  items := 0
  itemOffset := 0
  tailId := 0
  headId := 0
  headBytes := 0
  maxFileSize := maxFileSize
  noCompression := noCompression

theorem repair_empty (maxFileSize : UInt32) (noCompression : Bool) :
    repair [] (fun _ => none) maxFileSize noCompression = .ok (newTable maxFileSize noCompression) := by
  rfl

theorem eq_zero_of_le_zero {f : UInt32} (hf : f ≤ 0) : f = 0 := by
  rw [UInt32.le_iff_toNat_le] at hf
  exact UInt32.toNat_inj.1 (by simp at hf ⊢; omega)

/-- A new table holds nothing. -/
theorem holds_newTable (maxFileSize : UInt32) (noCompression : Bool) :
    Holds codec (newTable maxFileSize noCompression) [] := by
  have hone : ∀ j, j < (newTable maxFileSize noCompression).index.length → j = 0 := fun j hj => by
    simpa [newTable] using hj
  refine ⟨⟨rfl, rfl, ?_, ?_, ?_, ?_, ?_, rfl, rfl, rfl, rfl⟩, rfl, fun i b hb => by simp at hb⟩
  · intro i j hij hj
    obtain rfl := hone j hj
    obtain rfl : i = 0 := by omega
    exact UInt32.le_refl _
  · intro i j hij hj _
    obtain rfl := hone j hj
    obtain rfl : i = 0 := by omega
    exact UInt32.le_refl _
  · intro j hj
    obtain rfl := hone j hj
    simp [newTable, FreezerTable.entry]
  · intro f hf
    rw [eq_zero_of_le_zero hf]
    rfl
  · intro f
    simp only [newTable, Finset.insert_empty, Finset.mem_singleton]
    exact ⟨fun h => by rw [h]; exact UInt32.le_refl _, eq_zero_of_le_zero⟩

/-- `Append` of every blob of `bs`, in turn, to a table that holds `as` holds `as ++ bs`, while the
head file number stays below `2 ^ 16`, the stored blobs below `2 ^ 32` bytes and the items below
`2 ^ 64`. -/
theorem holds_appendAll {t : FreezerTable} {as : List Blob} (bs : List Blob) (ht : Holds codec t as)
    (hfiles : ∀ k t', appendAll codec t (bs.take k) = .ok t' → t'.headId.toNat < 2 ^ 16)
    (hsize : ∀ b ∈ bs, (pack codec t.noCompression b).length < 2 ^ 32)
    (hcount : as.length + bs.length < 2 ^ 64) :
    ∃ t', appendAll codec t bs = .ok t' ∧ Holds codec t' (as ++ bs) ∧ t'.noCompression = t.noCompression ∧
      t'.maxFileSize = t.maxFileSize := by
  induction bs generalizing t as with
  | nil => exact ⟨t, rfl, by simpa using ht, rfl, rfl⟩
  | cons b bs ih =>
    have h16 : t.headId.toNat < 2 ^ 16 := hfiles 0 t rfl
    have hhead : t.headId ∈ t.files := (ht.shape.files _).2 (UInt32.le_refl _)
    have hnext : t.headId + 1 ∉ t.files := by
      rw [ht.shape.files, UInt32.le_iff_toNat_le, UInt32.toNat_add, UInt32.toNat_one, Nat.mod_eq_of_lt (by omega)]
      omega
    obtain ⟨t₁, hap, ha⟩ := append_next codec t b hhead hnext (hsize b List.mem_cons_self)
    -- each later prefix of the appends starts from `t₁`
    have hstep : ∀ bs', appendAll codec t (b :: bs') = appendAll codec t₁ bs' := fun bs' => by
      rw [appendAll, hap, Except.ok_bind]
    have h16' : t₁.headId.toNat < 2 ^ 16 := hfiles 1 t₁ (by rw [List.take_succ_cons, List.take_zero, hstep]; rfl)
    have ht₁ : Holds codec t₁ (as ++ [b]) := ha.holds codec ht h16 h16' (by simp at hcount; omega)
    obtain ⟨t', hrun, ht', hcomp, hmax⟩ := ih ht₁
      (fun k t' h => hfiles (k + 1) t' (by rw [List.take_succ_cons, hstep]; exact h))
      (fun b' hb' => by rw [ha.noCompression]; exact hsize b' (List.mem_cons_of_mem _ hb'))
      (by simp at hcount ⊢; omega)
    refine ⟨t', by rw [hstep]; exact hrun, by simpa using ht', by rw [hcomp, ha.noCompression],
      by rw [hmax, ha.maxFileSize]⟩

/-! ### Reopening after a crash -/

theorem getLast?_take {t : FreezerTable} {n : Nat} (hn : 0 < n) (hnl : n ≤ t.index.length) :
    (t.index.take n).getLast? = some (t.entry (n - 1)) := by
  rw [List.getLast?_eq_getElem?, List.length_take, Nat.min_eq_left hnl, List.getElem?_take_of_lt (by omega),
    getElem?_index (by omega)]

theorem dropLast_take_succ {α : Type} {l : List α} {n : Nat} (h : n + 1 ≤ l.length) :
    (l.take (n + 1)).dropLast = l.take n := by
  rw [List.dropLast_eq_take, List.take_take, List.length_take]
  congr 1
  omega

theorem update_getD_self {d : UInt32 → Option Blob} {f : UInt32} (h : (d f).isSome) :
    Function.update d f (some ((d f).getD [])) = d := by
  obtain ⟨c, hc⟩ := Option.isSome_iff_exists.1 h
  rw [hc, Option.getD_some, ← hc, Function.update_eq_self]

/-- `repairLoop` on the first `n` entries of a table of this layout, over data files that exist up
to the head: it drops entries from the end until the last one, entry `j - 1`, ends within its file,
and cuts that file at the entry's end.  Entry zero ends at offset zero, so the loop stops there at the
latest, with a round of fuel to spare. -/
theorem repairLoop_take {t : FreezerTable} (hs : Shape t) {d : UInt32 → Option Blob}
    (hd : ∀ f, f ≤ t.headId → (d f).isSome) {n fuel : Nat} (hn : 0 < n) (hnl : n ≤ t.index.length)
    (hfuel : n < fuel) :
    ∃ j, 0 < j ∧ j ≤ n ∧ (t.entry (j - 1)).offset.toNat ≤ ((d (t.entry (j - 1)).filenum).getD []).length ∧
      repairLoop fuel (t.index.take n) (t.entry (n - 1)) (t.entry (n - 1)).filenum d =
        .ok (t.index.take j, t.entry (j - 1), (t.entry (j - 1)).filenum,
          Function.update d (t.entry (j - 1)).filenum
            (some (((d (t.entry (j - 1)).filenum).getD []).take (t.entry (j - 1)).offset.toNat))) := by
  -- the induction is on the number of entries left; each dropped entry takes one round of fuel
  induction n generalizing fuel with
  | zero => omega
  | succ n ih =>
    obtain ⟨fuel, rfl⟩ : ∃ f, fuel = f + 1 := ⟨fuel - 1, by omega⟩
    have hsome := hd (t.entry n).filenum (hs.filenum_le (by omega))
    rw [Nat.add_sub_cancel, repairLoop]
    dsimp only
    by_cases heq : (t.entry n).offset.toNat = ((d (t.entry n).filenum).getD []).length
    · -- the last entry ends where its file ends: nothing to cut
      refine ⟨n + 1, by omega, le_rfl, ?_, ?_⟩
      · rw [Nat.add_sub_cancel, heq]
      · rw [if_pos heq, Nat.add_sub_cancel, heq, List.take_length, update_getD_self hsome]
    · rw [if_neg heq]
      by_cases hlt : (t.entry n).offset.toNat < ((d (t.entry n).filenum).getD []).length
      · -- a dangling head: the file is cut at the last entry's end
        exact ⟨n + 1, by omega, le_rfl, by rw [Nat.add_sub_cancel]; omega, by rw [if_pos hlt, Nat.add_sub_cancel]⟩
      · -- a dangling entry, which is not entry zero: drop it and go on from the one before
        have hn0 : n ≠ 0 := by
          rintro rfl
          have h0 : (t.entry 0).offset.toNat = 0 := by rw [hs.entry_zero]; rfl
          omega
        have hne : t.index.take (n + 1) ≠ [] := by
          rw [← List.length_pos_iff, List.length_take]
          omega
        have hlast : ((t.index.take (n + 1)).dropLast.getLast?.getD (t.entry n)) = t.entry (n - 1) := by
          rw [dropLast_take_succ hnl, getLast?_take (by omega) (by omega), Option.getD_some]
        have hdata : ¬ ((t.entry (n - 1)).filenum ≠ (t.entry n).filenum ∧
            (d (t.entry (n - 1)).filenum).isNone) := by
          rintro ⟨-, hnone⟩
          have := hd (t.entry (n - 1)).filenum (hs.filenum_le (by omega))
          simp_all
        rw [if_neg hlt, if_neg hne, hlast, if_neg hdata, dropLast_take_succ hnl]
        obtain ⟨j, hj0, hjn, hcov, hrun⟩ := ih (Nat.pos_of_ne_zero hn0) (by omega) (show n < fuel by omega)
        exact ⟨j, hj0, by omega, hcov, hrun⟩

/-- The table `repair` opens from the first `j` entries of `t` over the data files `d`: the file of
the last entry is cut at its end and becomes the head, and the files before it are opened. -/
def reopened (t : FreezerTable) (d : UInt32 → Option Blob) (j : Nat) : FreezerTable where
  index := t.index.take j
  data := Function.update d (t.entry (j - 1)).filenum
    (some (((d (t.entry (j - 1)).filenum).getD []).take (t.entry (j - 1)).offset.toNat))
  files := insert (t.entry (j - 1)).filenum ((List.range (t.entry (j - 1)).filenum.toNat).map Nat.toUInt32).toFinset
  items := j.toUInt64 - 1
  itemOffset := 0
  tailId := 0
  headId := (t.entry (j - 1)).filenum
  headBytes := (t.entry (j - 1)).offset
  maxFileSize := t.maxFileSize
  noCompression := t.noCompression

theorem mem_range_toUInt32 {g f : UInt32} :
    f ∈ insert g ((List.range g.toNat).map Nat.toUInt32).toFinset ↔ f ≤ g := by
  simp only [Finset.mem_insert, List.mem_toFinset, List.mem_map, List.mem_range, UInt32.le_iff_toNat_le]
  constructor
  · rintro (rfl | ⟨i, hi, rfl⟩)
    · exact Nat.le_refl _
    · rw [Nat.toUInt32, UInt32.toNat_ofNat', Nat.mod_eq_of_lt (by have := g.toNat_lt; omega)]
      omega
  · intro hf
    by_cases he : f.toNat = g.toNat
    · exact .inl (UInt32.toNat_inj.1 he)
    · exact .inr ⟨f.toNat, by omega, UInt32.ofNat_toNat⟩

/-- What a crash leaves of a table: its data files, the head cut to its first `L` bytes. -/
theorem crash_data_of_ne {t : FreezerTable} {m L : Nat} {f : UInt32} (hf : f ≠ t.headId) :
    (crash t m L).2 f = t.data f := Function.update_of_ne hf _ _

theorem reopened_entry {t : FreezerTable} {d : UInt32 → Option Blob} {i j : Nat} (hi : i < j) : (reopened t d j).entry i = t.entry i := by
  simp [reopened, FreezerTable.entry, List.getD_eq_getElem?_getD, List.getElem?_take_of_lt hi]

section Reopened

variable {t : FreezerTable} (hs : Shape t) {m L j : Nat} (hj0 : 0 < j) (hjn : j ≤ t.index.length)
  (hcov : (t.entry (j - 1)).offset.toNat ≤ (((crash t m L).2 (t.entry (j - 1)).filenum).getD []).length)
include hs hj0 hjn hcov

/-- The data files of the reopened table agree with the table's own up to the end of every entry
it keeps. -/
theorem reopened_data {i : Nat} (hi : i < j) :
    (((reopened t (crash t m L).2 j).data (t.entry i).filenum).getD []).take (t.entry i).offset.toNat =
      ((t.data (t.entry i).filenum).getD []).take (t.entry i).offset.toNat ∧
    (t.entry i).offset.toNat ≤ (((reopened t (crash t m L).2 j).data (t.entry i).filenum).getD []).length := by
  have hfile := hs.file_mono i (j - 1) (by omega) (by omega)
  by_cases hf : (t.entry i).filenum = (t.entry (j - 1)).filenum
  · -- an entry of the new head ends before the cut, within what the crash kept
    have hend := UInt32.le_iff_toNat_le.1 (hs.end_mono i (j - 1) (by omega) (by omega) hf)
    simp only [reopened, hf, Function.update_self, Option.getD_some, List.take_take, List.length_take]
    refine ⟨?_, by omega⟩
    rw [Nat.min_eq_left hend]
    by_cases hh : (t.entry (j - 1)).filenum = t.headId
    · simp only [crash, hh, Function.update_self, Option.getD_some, List.length_take] at hcov ⊢
      rw [List.take_take, Nat.min_eq_left (by omega)]
    · rw [crash_data_of_ne hh]
  · -- an entry of an older file, which the crash did not touch
    have hlt : (t.entry i).filenum ≠ t.headId := by
      intro he
      have := UInt32.le_iff_toNat_le.1 (hs.filenum_le (show j - 1 < t.index.length by omega))
      have := UInt32.le_iff_toNat_le.1 hfile
      rw [he] at this hf
      exact hf (UInt32.toNat_inj.1 (by omega))
    simp only [reopened, Function.update_of_ne hf, crash_data_of_ne hlt, true_and]
    exact hs.covered i (by omega)

/-- The reopened table has the layout. -/
theorem reopened_shape : Shape (reopened t (crash t m L).2 j) := by
  have hlen : (reopened t (crash t m L).2 j).index.length = j := by simp [reopened, hjn]
  have hentry := fun {i} (hi : i < j) => reopened_entry (t := t) (d := (crash t m L).2) hi
  have hg : (t.entry (j - 1)).filenum ≤ t.headId := hs.filenum_le (by omega)
  refine ⟨?_, ?_, ?_, ?_, ?_, ?_, fun f => mem_range_toUInt32, ?_, ?_, rfl, rfl⟩
  · simp only [reopened, List.head?_take, if_neg (Nat.pos_iff_ne_zero.1 hj0), hs.zero]
  · simp only [reopened, getLast?_take hj0 hjn]
  · intro i k hik hk
    rw [hlen] at hk
    rw [hentry (by omega), hentry hk]
    exact hs.file_mono i k hik (by omega)
  · intro i k hik hk hf
    rw [hlen] at hk
    rw [hentry (by omega), hentry hk] at hf ⊢
    exact hs.end_mono i k hik (by omega) hf
  · intro i hi
    rw [hlen] at hi
    rw [hentry hi]
    exact (reopened_data hs hj0 hjn hcov hi).2
  · intro f hf
    by_cases hfg : f = (t.entry (j - 1)).filenum
    · simp [reopened, hfg]
    · simp only [reopened, Function.update_of_ne hfg]
      by_cases hh : f = t.headId
      · simp [crash, hh]
      · rw [crash_data_of_ne hh]
        exact hs.exists_data f (UInt32.le_trans hf hg)
  · simp only [reopened, Function.update_self, Option.getD_some, List.length_take]
    omega
  · have hj64 : j ≤ 2 ^ 64 := by have := t.items.toNat_lt; have := hs.items; omega
    rw [hlen]
    simp only [reopened, Nat.toUInt64, UInt64.toNat_sub, UInt64.toNat_ofNat', UInt64.toNat_one]
    omega

/-- The reopened table keeps the bytes of every item it counts. -/
theorem reopened_slice {i : Nat} (hi : i + 1 < j) : (reopened t (crash t m L).2 j).slice i = t.slice i :=
  slice_congr (reopened_entry (by omega)) (reopened_entry hi)
    (reopened_data hs hj0 hjn hcov hi).1

end Reopened

/-- What a crash leaves of a table of this layout, reopened: `repair` completes, and the table it
opens has the layout and keeps the bytes of every item it counts. -/
theorem repair_crash {t : FreezerTable} (hs : Shape t) (m L : Nat) :
    ∃ j, 0 < j ∧ j ≤ t.index.length ∧
      repair (crash t m L).1 (crash t m L).2 t.maxFileSize t.noCompression = .ok (reopened t (crash t m L).2 j) ∧
      (t.entry (j - 1)).offset.toNat ≤ (((crash t m L).2 (t.entry (j - 1)).filenum).getD []).length := by
  have hne := hs.index_ne_nil
  have hlen0 := List.length_pos_of_ne_nil hne
  set d := (crash t m L).2 with hd_def
  have hd : ∀ f, f ≤ t.headId → (d f).isSome := fun f hf => by
    by_cases hfh : f = t.headId
    · simp [hd_def, crash, hfh]
    · rw [hd_def, crash_data_of_ne hfh]
      exact hs.exists_data f hf
  -- the index `repair` starts from: the first `n` entries, with `0 < n`
  obtain ⟨n, hn, hnl, hidx⟩ : ∃ n, 0 < n ∧ n ≤ t.index.length ∧
      (if (crash t m L).1 = [] then [⟨0, 0⟩] else (crash t m L).1) = t.index.take n := by
    by_cases hm : m = 0
    · refine ⟨1, by omega, hlen0, ?_⟩
      have h1 : t.index.take 1 = [⟨0, 0⟩] := by
        rw [List.take_one, hs.zero]
        rfl
      simp [crash, hm, h1]
    · refine ⟨min m t.index.length, by omega, by omega, ?_⟩
      have hnil : t.index.take m ≠ [] := by
        rw [← List.length_pos_iff, List.length_take]
        omega
      simp only [crash, hnil, if_false]
      exact List.take_eq_take_min
  have hfirst : (t.index.take n).headD ⟨0, 0⟩ = ⟨0, 0⟩ := by
    rw [List.headD_eq_head?_getD, List.head?_take, if_neg (by omega), hs.zero, Option.getD_some]
  have hlast : (t.index.take n).getLastD ⟨0, 0⟩ = t.entry (n - 1) := by
    rw [List.getLastD_eq_getLast?, getLast?_take hn hnl, Option.getD_some]
  have hdata : (d (t.entry (n - 1)).filenum).isSome := hd _ (hs.filenum_le (by omega))
  obtain ⟨j, hj0, hjn, hcov, hloop⟩ := repairLoop_take hs hd hn hnl (Nat.lt_succ_self n)
  refine ⟨j, hj0, by omega, ?_, hcov⟩
  unfold repair
  dsimp only
  rw [hidx, hfirst, hlast, if_pos hdata, List.length_take, Nat.min_eq_left hnl, hloop, Except.ok_bind]
  dsimp only
  set g := (t.entry (j - 1)).filenum
  have hg : g ≤ t.headId := hs.filenum_le (by omega)
  -- the files before the new head all exist: the crash cut only the old head
  have hfind : (List.map (fun i => ((0 : UInt32).toNat + i).toUInt32) (List.range (g.toNat - (0 : UInt32).toNat))).find?
      (fun n => (Function.update d g (some (((d g).getD []).take (t.entry (j - 1)).offset.toNat)) n).isNone) = none := by
    rw [List.find?_eq_none]
    intro f hf
    have hfg : f < g := by
      simp only [UInt32.toNat_zero, Nat.sub_zero, Nat.zero_add, List.mem_map, List.mem_range] at hf
      obtain ⟨i, hi, rfl⟩ := hf
      rw [UInt32.lt_iff_toNat_lt, Nat.toUInt32, UInt32.toNat_ofNat', Nat.mod_eq_of_lt (by have := g.toNat_lt; omega)]
      exact hi
    rw [Function.update_of_ne (UInt32.ne_of_lt hfg)]
    simpa [Option.isSome_iff_ne_none] using hd f (UInt32.le_of_lt (UInt32.lt_of_lt_of_le hfg hg))
  rw [hfind]
  simp only [UInt32.toNat_zero, Nat.sub_zero, Nat.zero_add, Function.update_self, Option.getD_some,
    List.length_take, Nat.min_eq_left hcov, UInt32.ofNat_toNat, Nat.min_eq_left (show j ≤ t.index.length by omega),
    show UInt32.toUInt64 0 = 0 from rfl, UInt64.zero_add]
  rfl

/-- Reopening after a crash a table built by `Append`s on a new table: `repair` completes, every
entry of the reopened table ends within its data file, and `Retrieve` returns the blob appended for
every item it counts; provided the head file number stays below `2 ^ 16` after each `Append`, every
stored blob is shorter than `2 ^ 32` bytes, and fewer than `2 ^ 64` blobs are appended. -/
theorem repair_crash_retrieve (maxFileSize : UInt32) (noCompression : Bool) (bs : List Blob)
    (hcodec : ∀ b, codec.decode (codec.encode b) = some b)
    (hfiles : ∀ k t, (repair [] (fun _ => none) maxFileSize noCompression >>= fun t₀ =>
      appendAll codec t₀ (bs.take k)) = .ok t → t.headId.toNat < 2 ^ 16)
    (hsize : ∀ b ∈ bs, (pack codec noCompression b).length < 2 ^ 32) (hcount : bs.length < 2 ^ 64) :
    ∃ t, (repair [] (fun _ => none) maxFileSize noCompression >>= fun t₀ => appendAll codec t₀ bs) = .ok t ∧
      ∀ m L, ∃ r, repair (crash t m L).1 (crash t m L).2 maxFileSize noCompression = .ok r ∧
        r.items.toNat ≤ bs.length ∧
        (∀ j, j < r.index.length → (r.entry j).offset.toNat ≤ ((r.data (r.entry j).filenum).getD []).length) ∧
        ∀ i : UInt64, i < r.items → ∃ b, bs[i.toNat]? = some b ∧ retrieve codec r i = .ok b := by
  simp only [repair_empty, Except.ok_bind] at hfiles ⊢
  obtain ⟨t, hrun, ht, hcomp, hmax⟩ := holds_appendAll codec bs (holds_newTable codec maxFileSize noCompression)
    hfiles hsize (by simpa using hcount)
  rw [List.nil_append] at ht
  refine ⟨t, hrun, fun m L => ?_⟩
  obtain ⟨j, hj0, hjn, hrep, hcov⟩ := repair_crash ht.shape m L
  have hr := reopened_shape ht.shape hj0 hjn hcov
  have hlen := ht.shape.items
  rw [ht.items] at hlen
  have hrlen := hr.items
  have hidx : (reopened t (crash t m L).2 j).index.length = j := by simp [reopened, hjn]
  rw [hmax, hcomp] at hrep
  refine ⟨_, hrep, by omega, hr.covered, fun i hi => ?_⟩
  have hi' := UInt64.lt_iff_toNat_lt.1 hi
  have hib : i.toNat < bs.length := by omega
  obtain ⟨b, hb⟩ : ∃ b, bs[i.toNat]? = some b := ⟨bs[i.toNat], List.getElem?_eq_getElem hib⟩
  refine ⟨b, hb, ?_⟩
  -- the reopened table reads the bytes the table stored for the item
  rw [hr.retrieve_eq codec hi, reopened_slice ht.shape hj0 hjn hcov (by omega), ht.slice _ _ hb]
  exact unpack_pack codec hcodec _ _

theorem repair_crash_retrieve_twoFiles :
    ∃ t, (repair [] (fun _ => none) 0 true >>= fun t₀ => appendAll rawCodec t₀ [[1], [2]]) = .ok t ∧
      ∀ m L, ∃ r, repair (crash t m L).1 (crash t m L).2 0 true = .ok r ∧
        r.items.toNat ≤ [[1], [2]].length ∧
        (∀ j, j < r.index.length → (r.entry j).offset.toNat ≤ ((r.data (r.entry j).filenum).getD []).length) ∧
        ∀ i : UInt64, i < r.items → ∃ b, [[1], [2]][i.toNat]? = some b ∧ retrieve rawCodec r i = .ok b :=
  repair_crash_retrieve rawCodec 0 true [[1], [2]] (fun _ => rfl)
    (fun k t h => by
      -- every prefix of the two appends, run
      have hrun : ∀ bs ∈ [[], [[1]], [[1], [2]]], ((repair [] (fun _ => none) 0 true >>= fun t₀ =>
          appendAll rawCodec t₀ bs).map fun t => decide (t.headId.toNat < 2 ^ 16)) = .ok true := by
        decide
      have hk : ([[1], [2]] : List Blob).take k ∈ [[], [[1]], [[1], [2]]] := by
        rcases k with _ | _ | k <;> simp
      have := hrun _ hk
      rw [h] at this
      simpa [Except.map] using this)
    (by decide) (by decide)

end Go420coin.Rawdb
