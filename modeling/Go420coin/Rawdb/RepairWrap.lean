import Go420coin.Rawdb.Repair

/-!
# File numbers that wrap in the index

`Append` writes the file number of an entry as a `uint16`, while the table counts its head file in a
`uint32`.  With `maxFileSize` zero every blob opens a data file of its own
(`append_maxFileSize_zero`), so after `n` one-byte blobs blob `i` is alone in data file `i + 1`
(`OneFileEach`).  Past `2 ^ 16` files the entries name the wrong files: after `2 ^ 16 + 1` blobs
the last entry names data file `1`.  Reopened, the table takes file `1` for its head, still counts
every item, and `Retrieve` of the last item reads the first blob (`repair_fileWrap`).
-/

namespace Go420coin.Rawdb

variable (codec : Codec)

/-- With `maxFileSize` zero a blob of one byte opens the next data file. -/
theorem append_maxFileSize_zero (t : FreezerTable) (x : Blob) (hmax : t.maxFileSize = 0)
    (hcomp : t.noCompression = true) (hx : x.length = 1) (hnext : t.headId + 1 ∉ t.files) :
    append codec t t.items x = .ok { t with
      data := Function.update t.data (t.headId + 1) (some x)
      files := insert (t.headId + 1) t.files
      index := t.index ++ [marshalEntry (t.headId + 1) 1]
      items := t.items + 1
      headId := t.headId + 1
      headBytes := 1 } := by
  -- one more byte either wraps the head's size or exceeds a maximum of zero
  have hcond : (decide (t.headBytes + 1 < 1) || decide (t.headBytes + 1 > 0)) = true := by
    simp only [Bool.or_eq_true, decide_eq_true_eq, gt_iff_lt, UInt32.lt_iff_toNat_lt, UInt32.toNat_add,
      UInt32.toNat_one, UInt32.toNat_zero]
    omega
  have hlen : x.length.toUInt32 = 1 := by rw [hx]; rfl
  simp only [append, ne_eq, not_true_eq_false, ↓reduceIte, hcomp, hlen, hmax, hcond, hnext, Function.update_self,
    Option.getD_some, List.nil_append, Function.update_idem, UInt32.zero_add]

/-- The table after the one-byte blobs `bs`, appended with `maxFileSize` zero: blob `i` alone in
data file `i + 1`, its entry ending at byte `1` of that file. -/
structure OneFileEach (t : FreezerTable) (bs : List Blob) : Prop where
  index : t.index = ⟨0, 0⟩ :: (List.range bs.length).map fun i => marshalEntry (i + 1).toUInt32 1
  data_zero : t.data 0 = some []
  data : ∀ i b, bs[i]? = some b → t.data (i + 1).toUInt32 = some b
  files : ∀ f, f ∈ t.files ↔ f.toNat ≤ bs.length
  headId : t.headId = bs.length.toUInt32
  items : t.items = bs.length.toUInt64
  maxFileSize : t.maxFileSize = 0
  noCompression : t.noCompression = true

theorem toUInt32_succ (n : Nat) : n.toUInt32 + 1 = (n + 1).toUInt32 := by
  apply UInt32.toNat_inj.1
  simp [Nat.toUInt32, UInt32.toNat_add]

theorem toNat_toUInt32 {n : Nat} (h : n < 2 ^ 32) : n.toUInt32.toNat = n := by
  simp only [Nat.toUInt32, UInt32.toNat_ofNat']
  exact Nat.mod_eq_of_lt h

theorem oneFileEach_newTable : OneFileEach (newTable 0 true) [] where
  index := rfl
  data_zero := rfl
  data := fun i b hb => by simp at hb
  files := fun f => by
    simp only [newTable, Finset.insert_empty, Finset.mem_singleton, List.length_nil, Nat.le_zero]
    exact ⟨fun h => by rw [h]; rfl, fun h => UInt32.toNat_inj.1 h⟩
  headId := rfl
  items := rfl
  maxFileSize := rfl
  noCompression := rfl

/-- One more one-byte blob goes alone into the next data file. -/
theorem oneFileEach_append {t : FreezerTable} {bs : List Blob} (ht : OneFileEach t bs) {x : Blob}
    (hx : x.length = 1) (hn : bs.length + 1 < 2 ^ 32) :
    ∃ t', append codec t t.items x = .ok t' ∧ OneFileEach t' (bs ++ [x]) := by
  have hhead : t.headId + 1 = (bs.length + 1).toUInt32 := by rw [ht.headId, toUInt32_succ]
  have hheadNat : (t.headId + 1).toNat = bs.length + 1 := by rw [hhead, toNat_toUInt32 hn]
  have hnext : t.headId + 1 ∉ t.files := by
    rw [ht.files, hheadNat]
    omega
  refine ⟨_, append_maxFileSize_zero codec t x ht.maxFileSize ht.noCompression hx hnext, ?_⟩
  refine ⟨?_, ?_, fun i b hb => ?_, fun f => ?_, ?_, ?_, ht.maxFileSize, ht.noCompression⟩
  · simp [ht.index, List.range_succ, hhead]
  · dsimp only
    rw [Function.update_of_ne (fun h => by rw [← h] at hheadNat; simp at hheadNat), ht.data_zero]
  · dsimp only
    by_cases hi : i < bs.length
    · -- an earlier blob, in a file before the new one
      rw [List.getElem?_append_left hi] at hb
      have hne : (i + 1).toUInt32 ≠ t.headId + 1 := fun h => by
        have := congrArg UInt32.toNat h
        rw [hheadNat, toNat_toUInt32 (by omega)] at this
        omega
      rw [Function.update_of_ne hne, ht.data i b hb]
    · rw [List.getElem?_append_right (by omega), List.getElem?_singleton] at hb
      obtain ⟨hi', rfl⟩ : i - bs.length = 0 ∧ x = b := by simpa using hb
      rw [show i = bs.length by omega, ← hhead, Function.update_self]
  · dsimp only
    have hinj : f = t.headId + 1 ↔ f.toNat = bs.length + 1 :=
      ⟨fun h => by rw [h, hheadNat], fun h => UInt32.toNat_inj.1 (by rw [h, hheadNat])⟩
    simp only [Finset.mem_insert, ht.files, hinj, List.length_append, List.length_singleton]
    omega
  · simp [hhead]
  · apply UInt64.toNat_inj.1
    simp [ht.items, Nat.toUInt64, UInt64.toNat_add]

/-- Appending one-byte blobs with `maxFileSize` zero, while the file numbers fit a `uint32`. -/
theorem oneFileEach_appendAll {t : FreezerTable} {as : List Blob} (bs : List Blob) (ht : OneFileEach t as)
    (hbs : ∀ b ∈ bs, b.length = 1) (hn : as.length + bs.length < 2 ^ 32) :
    ∃ t', appendAll codec t bs = .ok t' ∧ OneFileEach t' (as ++ bs) := by
  induction bs generalizing t as with
  | nil => exact ⟨t, rfl, by simpa using ht⟩
  | cons b bs ih =>
    simp only [List.length_cons] at hn
    obtain ⟨t₁, hap, ht₁⟩ := oneFileEach_append codec ht (hbs b List.mem_cons_self) (by omega)
    obtain ⟨t', hrun, ht'⟩ := ih ht₁ (fun b' hb' => hbs b' (List.mem_cons_of_mem _ hb')) (by simp; omega)
    exact ⟨t', by rw [appendAll, hap, Except.ok_bind, hrun], by simpa using ht'⟩

/-- The entry of blob `i` in a table of one file per blob names file `i + 1` cut to a `uint16`. -/
theorem OneFileEach.getElem?_index {t : FreezerTable} {bs : List Blob} (ht : OneFileEach t bs) {i : Nat}
    (hi : i < bs.length) : t.index[i + 1]? = some (marshalEntry (i + 1).toUInt32 1) := by
  simp [ht.index, hi]

theorem OneFileEach.getLastD_index {t : FreezerTable} {bs : List Blob} (ht : OneFileEach t bs) (hn : bs ≠ []) :
    t.index.getLastD ⟨0, 0⟩ = marshalEntry bs.length.toUInt32 1 := by
  obtain ⟨n, hn'⟩ : ∃ n, bs.length = n + 1 := ⟨bs.length - 1, by have := List.length_pos_of_ne_nil hn; omega⟩
  rw [List.getLastD_eq_getLast?, ht.index, List.getLast?_cons, hn', List.getLast?_map, List.getLast?_range]
  simp

/-- A table of one file per blob for `2 ^ 16 + 1` blobs, reopened with nothing cut: its last entry
names data file `1`, which becomes the head; every blob is still counted, and `Retrieve` of the last
reads the first blob. -/
theorem OneFileEach.repair_wrap {t : FreezerTable} {bs : List Blob} (ht : OneFileEach t bs)
    (hlen : bs.length = 65537) {b₀ : Blob} (hb₀ : bs[0]? = some b₀) (hb₀len : b₀.length = 1) :
    ∃ r, repair t.index t.data 0 true = .ok r ∧ 65536 < r.items ∧ retrieve rawCodec r 65536 = .ok b₀ := by
  have hd1 : t.data 1 = some b₀ := ht.data 0 b₀ hb₀
  have hne : t.index ≠ [] := by simp [ht.index]
  have hidxlen : t.index.length = 65538 := by
    rw [ht.index, List.length_cons, List.length_map, List.length_range, hlen]
  have hlast : t.index.getLastD ⟨0, 0⟩ = ⟨1, 1⟩ := by
    rw [ht.getLastD_index (by rw [← List.length_pos_iff, hlen]; omega), hlen]
    decide
  have hfirst : t.index.headD ⟨0, 0⟩ = ⟨0, 0⟩ := by simp [ht.index]
  have hd0 : (t.data 0).isNone = false := by rw [ht.data_zero]; rfl
  have hone : (1 : UInt32).toNat = b₀.length := by rw [hb₀len]; rfl
  -- the last entry ends where file `1` ends: `repair` cuts nothing, and opens files `0` and `1`
  unfold repair
  simp only [hne, if_false, hfirst, hlast, hd1, Option.isSome_some, if_true, hidxlen]
  rw [repairLoop]
  simp only [hd1, Option.getD_some]
  rw [if_pos hone, Except.ok_bind]
  dsimp only
  have hold : (List.map (fun i => ((0 : UInt32).toNat + i).toUInt32)
      (List.range ((⟨1, 1⟩ : IndexEntry).filenum.toNat - (0 : UInt32).toNat))) = [0] := rfl
  rw [hold, List.find?_singleton, hd0, if_neg Bool.false_ne_true]
  refine ⟨_, rfl, ?_, ?_⟩
  · rw [hidxlen]
    show (65536 : UInt64) < UInt32.toUInt64 0 + (Nat.toUInt64 65538 - 1)
    decide
  -- the entries of the last item: file `0` at its start and file `1` at its end, so it starts at zero
  have hend : t.index[65537]? = some ⟨1, 1⟩ := by
    rw [ht.getElem?_index (i := 65536) (by omega)]
    decide
  have hstart : t.index[65536]? = some ⟨0, 1⟩ := by
    rw [ht.getElem?_index (i := 65535) (by omega)]
    decide
  have hpos : ((65536 : UInt64) - UInt32.toUInt64 0 + 1).toNat = 65537 := rfl
  have hpos' : ((65536 : UInt64) - UInt32.toUInt64 0).toNat = 65536 := rfl
  unfold retrieve getBounds readEntry
  simp only [hpos, hpos', hend, hstart]
  simp [hidxlen, hd1, hb₀len]

/-- With more than `2 ^ 16` data files the file numbers wrap in the index: after `2 ^ 16` blobs
`[0]` and a blob `[1]`, each in a data file of its own, the table reopens (with nothing cut) counting
every blob, and `Retrieve` of the last one reads the first. -/
theorem repair_fileWrap :
    ∃ t r, (repair [] (fun _ => none) 0 true >>= fun t₀ =>
        appendAll rawCodec t₀ (List.replicate 65536 [0] ++ [[1]])) = .ok t ∧
      repair (crash t t.index.length 1).1 (crash t t.index.length 1).2 0 true = .ok r ∧
      65536 < r.items ∧ retrieve rawCodec r 65536 = .ok [0] ∧
      (List.replicate 65536 [0] ++ [[1]] : List Blob)[65536]? = some [1] := by
  have hall : ∀ b ∈ (List.replicate 65536 [0] ++ [[1]] : List Blob), b.length = 1 := by
    intro b hb
    rw [List.mem_append, List.mem_replicate, List.mem_singleton] at hb
    rcases hb with ⟨-, rfl⟩ | rfl <;> rfl
  have hlen : (List.replicate 65536 [0] ++ [[1]] : List Blob).length = 65537 := by
    rw [List.length_append, List.length_replicate, List.length_singleton]
  have hfirst : (List.replicate 65536 [0] ++ [[1]] : List Blob)[0]? = some [0] := by
    rw [List.getElem?_append_left (by rw [List.length_replicate]; omega), List.getElem?_replicate, if_pos (by omega)]
  have hlast : (List.replicate 65536 [0] ++ [[1]] : List Blob)[65536]? = some [1] := by
    rw [List.getElem?_append_right (by rw [List.length_replicate]), List.length_replicate, Nat.sub_self]
    rfl
  obtain ⟨t, hrun, ht⟩ := oneFileEach_appendAll rawCodec _ oneFileEach_newTable hall (by rw [hlen]; decide)
  rw [List.nil_append] at ht
  -- nothing is cut: the index is whole, and the head file holds its blob
  have hcrash : crash t t.index.length 1 = (t.index, t.data) := by
    have hhead : t.data t.headId = some [1] := by
      rw [ht.headId, hlen]
      exact ht.data 65536 [1] hlast
    simp only [crash, List.take_length, hhead, Option.getD_some]
    rw [show List.take 1 [(1 : UInt8)] = [1] from rfl, ← hhead, Function.update_eq_self]
  obtain ⟨r, hrep, hitems, hget⟩ := ht.repair_wrap hlen hfirst rfl
  exact ⟨t, r, by rw [repair_empty, Except.ok_bind]; exact hrun, by rw [hcrash]; exact hrep, hitems, hget, hlast⟩

end Go420coin.Rawdb
