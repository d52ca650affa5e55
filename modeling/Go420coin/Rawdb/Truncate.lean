import Go420coin.Rawdb.FreezerTable
import Go420coin.Lib.Except
import Mathlib.Tactic.IntervalCases

/-!
# Truncating a table with a deleted tail

`truncate(items)` cuts the index file to `items + 1` entries and the head file to the end of the
entry at position `items`.  Both positions are item numbers, but item `i` sits at index position
`i - itemOffset + 1`: with items deleted from the tail, the cut keeps `itemOffset` entries too many.
The items counter drops to `items` all the same, so the next `Append(items, blob)` is accepted; its
entry goes to the end of the index, past the stale entries, and `Retrieve(items)` goes on reading
the entries of the blob that was cut away (`retrieve_truncate_append`).
-/

namespace Go420coin.Rawdb

variable (codec : Codec)

theorem resize_of_le {α : Type} {zero : α} {l : List α} {n : Nat} (h : n ≤ l.length) :
    resize zero l n = l.take n := by
  simp [resize, h]

theorem toNat_add_one_of_lt {n m : UInt64} (h : n < m) : (n + 1).toNat = n.toNat + 1 := by
  have hm := m.toNat_lt
  have := UInt64.lt_iff_toNat_lt.mp h
  rw [UInt64.toNat_add, UInt64.toNat_one]
  omega

/-- Cutting back within the index and the head file: the index keeps its first `n + 1` entries
and the head file the bytes before the end of entry `n`. -/
theorem truncate_eq {t : FreezerTable} {n : UInt64} (hlt : n < t.items) (hidx : n.toNat < t.index.length)
    (hhead : (t.index.getD n.toNat ⟨0, 0⟩).filenum = t.headId) :
    truncate t n = { t with
      index := t.index.take (n.toNat + 1)
      data := Function.update t.data t.headId
        (some (resize 0 ((t.data t.headId).getD []) (t.index.getD n.toNat ⟨0, 0⟩).offset.toNat))
      items := n
      headBytes := (t.index.getD n.toNat ⟨0, 0⟩).offset } := by
  have hc : ¬ t.items ≤ n := UInt64.not_le.mpr hlt
  have hsucc := toNat_add_one_of_lt hlt
  have hget : (t.index.take (n.toNat + 1)).getD n.toNat ⟨0, 0⟩ = t.index.getD n.toNat ⟨0, 0⟩ := by
    simp [List.getD_eq_getElem?_getD]
  simp only [truncate, hc, ↓reduceIte, hsucc, resize_of_le (show n.toNat + 1 ≤ t.index.length by omega),
    hget, hhead, ne_eq, not_true_eq_false]

/-- What `Append` of the next item keeps: the index grows by one entry at its end, and the data
files other than the head and the file after it are untouched, the head only growing at its end. -/
theorem append_spec (t : FreezerTable) (x : Blob) :
    ∃ t', append codec t t.items x = .ok t' ∧
      (∃ e, t'.index = t.index ++ [e]) ∧ t'.items = t.items + 1 ∧ t'.itemOffset = t.itemOffset ∧
      t'.noCompression = t.noCompression ∧
      (∀ f, f ≠ t.headId + 1 → (f ∈ t'.files ↔ f ∈ t.files)) ∧
      (∀ f, f ≠ t.headId → f ≠ t.headId + 1 → t'.data f = t.data f) ∧
      ∃ s, (t'.data t.headId).getD [] = (t.data t.headId).getD [] ++ s := by
  simp only [append, ne_eq, not_true_eq_false, ↓reduceIte]
  generalize (if t.noCompression = true then x else codec.encode x).length.toUInt32 = bLen
  by_cases hc : (decide (t.headBytes + bLen < bLen) || decide (t.headBytes + bLen > t.maxFileSize)) = true
  · -- the blob starts the next data file; the old head keeps its bytes
    simp only [hc, ↓reduceIte]
    refine ⟨_, rfl, ⟨_, rfl⟩, rfl, rfl, rfl, fun f hf => ?_, fun f h₁ h₂ => ?_, [], ?_⟩
    · simp [hf]
    · split <;> simp [h₂]
    · split <;> simp
  · simp only [hc, Bool.false_eq_true, ↓reduceIte]
    exact ⟨_, rfl, ⟨_, rfl⟩, rfl, rfl, rfl, fun f _ => Iff.rfl, fun f h₁ _ => by simp [h₁],
      if t.noCompression = true then x else codec.encode x, by simp⟩

/-- What `getBounds` returns: the end of the entry after the item, and its start, which is zero
unless the entry of the item lies in the same file. -/
theorem getBounds_spec {t : FreezerTable} {item : UInt64} {s e f : UInt32}
    (h : getBounds t item = .ok (s, e, f)) :
    t.index[(item + 1).toNat]? = some ⟨f, e⟩ ∧
      (s = 0 ∨ item ≠ 0 ∧ t.index[item.toNat]? = some ⟨f, s⟩) := by
  unfold getBounds readEntry at h
  cases hend : t.index[(item + 1).toNat]? with
  | none =>
    rw [hend] at h
    simp at h
  | some endIdx =>
    rw [hend] at h
    by_cases hi : item = 0
    · simp [hi] at h
      obtain ⟨rfl, rfl, rfl⟩ := h
      exact ⟨rfl, .inl rfl⟩
    · cases hstart : t.index[item.toNat]? with
      | none =>
        rw [hstart] at h
        simp [hi] at h
      | some startIdx =>
        rw [hstart] at h
        by_cases hf : startIdx.filenum = endIdx.filenum
        · simp [hi, hf] at h
          obtain ⟨rfl, rfl, rfl⟩ := h
          exact ⟨rfl, .inr ⟨hi, by rw [← hf]⟩⟩
        · simp [hi, hf] at h
          obtain ⟨rfl, rfl, rfl⟩ := h
          exact ⟨rfl, .inl rfl⟩

/-- A read of `size` bytes at `start` that ends by `E` gives the same result on two files that
agree on their first `E` bytes and both hold them. -/
theorem read_congr {c c' : Blob} {E start size : Nat} (hagree : c'.take E = c.take E)
    (hc : E ≤ c.length) (hc' : E ≤ c'.length) (hend : start + size ≤ E) :
    (c'.length < start + size ↔ c.length < start + size) ∧
      (c'.drop start).take size = (c.drop start).take size := by
  refine ⟨by omega, ?_⟩
  have h₁ : (c'.drop start).take size = ((c'.take E).drop start).take size := by
    rw [List.drop_take, List.take_take]
    congr 1
    omega
  have h₂ : (c.drop start).take size = ((c.take E).drop start).take size := by
    rw [List.drop_take, List.take_take]
    congr 1
    omega
  rw [h₁, h₂, hagree]

/-- `Retrieve` on two tables that agree on what it reads of them returns the same. -/
theorem retrieve_congr {t t' : FreezerTable} {item : UInt64}
    (hitems : t'.items ≤ item ↔ t.items ≤ item) (hoff : t'.itemOffset = t.itemOffset)
    (hcomp : t'.noCompression = t.noCompression)
    (hbounds : getBounds t' (item - t.itemOffset.toUInt64) = getBounds t (item - t.itemOffset.toUInt64))
    (hread : ∀ s e f, getBounds t (item - t.itemOffset.toUInt64) = .ok (s, e, f) →
      (f ∈ t'.files ↔ f ∈ t.files) ∧
      (((t'.data f).getD []).length < s.toNat + (e - s).toNat ↔
        ((t.data f).getD []).length < s.toNat + (e - s).toNat) ∧
      (((t'.data f).getD []).drop s.toNat).take (e - s).toNat =
        (((t.data f).getD []).drop s.toNat).take (e - s).toNat) :
    retrieve codec t' item = retrieve codec t item := by
  unfold retrieve
  rw [hoff, hcomp, hbounds]
  by_cases hi : t.items ≤ item
  · simp [hi, hitems.mpr hi]
  · have hi' : ¬ t'.items ≤ item := fun h => hi (hitems.mp h)
    cases hb : getBounds t (item - t.itemOffset.toUInt64) with
    | error err => simp [hi, hi']
    | ok bounds =>
      obtain ⟨s, e, f⟩ := bounds
      obtain ⟨hf, hlen, hblob⟩ := hread s e f hb
      simp [hi, hi', hf, hlen, hblob]

/-- Truncating a table with a deleted tail to `n` items, inside the head file, and appending a
blob at `n` leaves `Retrieve(n)` returning what it returned before the truncation: the entries it
reads lie below position `n`, which the cut keeps, and the bytes they point to lie before the end
of entry `n`, where the head file is cut and the new blob starts. -/
theorem retrieve_truncate_append {t : FreezerTable} {n : UInt64} (x : Blob)
    (hoff : 0 < t.itemOffset) (hn : t.itemOffset.toUInt64 ≤ n) (hlt : n < t.items)
    (hidx : n.toNat < t.index.length)
    (hhead : (t.index.getD n.toNat ⟨0, 0⟩).filenum = t.headId)
    (hsize : (t.index.getD n.toNat ⟨0, 0⟩).offset.toNat ≤ ((t.data t.headId).getD []).length)
    (hmono : ∀ i j, 0 < i → i ≤ j → j ≤ n.toNat → (t.index.getD i ⟨0, 0⟩).filenum = t.headId →
      (t.index.getD j ⟨0, 0⟩).filenum = t.headId →
      (t.index.getD i ⟨0, 0⟩).offset ≤ (t.index.getD j ⟨0, 0⟩).offset)
    (hnext : ∀ i, 0 < i → i ≤ n.toNat → (t.index.getD i ⟨0, 0⟩).filenum ≠ t.headId + 1) :
    ∃ t', append codec (truncate t n) n x = .ok t' ∧ retrieve codec t' n = retrieve codec t n := by
  set E := (t.index.getD n.toNat ⟨0, 0⟩).offset with hE
  set c := (t.data t.headId).getD [] with hc
  rw [truncate_eq hlt hidx hhead]
  obtain ⟨t', ht', ⟨e, hindex⟩, hitems, hoff', hcomp, hfiles, hdata, sfx, hheadData⟩ :=
    append_spec codec { t with
      index := t.index.take (n.toNat + 1)
      data := Function.update t.data t.headId (some (resize 0 c E.toNat))
      items := n
      headBytes := E } x
  refine ⟨t', ht', ?_⟩
  dsimp only at hindex hitems hoff' hcomp hfiles hdata hheadData
  simp only [Function.update_self, Option.getD_some, resize_of_le hsize] at hheadData
  -- positions in the index: the item's entries lie at `r` and `r + 1`, both at most `n`
  set r := n - t.itemOffset.toUInt64 with hr
  have hoffNat : 0 < t.itemOffset.toNat := UInt32.lt_iff_toNat_lt.mp hoff
  have hnNat : t.itemOffset.toNat ≤ n.toNat := by
    have := UInt64.le_iff_toNat_le.mp hn
    simpa using this
  have hrNat : r.toNat = n.toNat - t.itemOffset.toNat := by
    rw [hr, UInt64.toNat_sub_of_le _ _ hn]
    simp
  have hr1 : (r + 1).toNat = r.toNat + 1 := toNat_add_one_of_lt (n := r) (m := n) (by
    rw [UInt64.lt_iff_toNat_lt, hrNat]
    omega)
  have hagree : ∀ i, i ≤ n.toNat → t'.index[i]? = t.index[i]? := by
    intro i hi
    rw [hindex, List.getElem?_append_left (by simp; omega), List.getElem?_take_of_lt (by omega)]
  have hbounds : getBounds t' r = getBounds t r := by
    unfold getBounds readEntry
    rw [hagree _ (by omega), hagree _ (by omega)]
  have hlen' : t'.items ≤ n ↔ t.items ≤ n := by
    rw [hitems]
    constructor
    · intro h
      have := UInt64.le_iff_toNat_le.mp h
      rw [toNat_add_one_of_lt hlt] at this
      omega
    · intro h
      exact absurd h (UInt64.not_le.mpr hlt)
  refine retrieve_congr codec hlen' hoff' hcomp hbounds fun s e' f hb => ?_
  obtain ⟨hend, hstart⟩ := getBounds_spec hb
  -- the entry the item ends with
  have hendD : t.index.getD (r.toNat + 1) ⟨0, 0⟩ = ⟨f, e'⟩ := by
    rw [← hr1, List.getD_eq_getElem?_getD, hend]
    rfl
  have hf1 : f ≠ t.headId + 1 := by
    have := hnext (r.toNat + 1) (by omega) (by omega)
    rwa [hendD] at this
  refine ⟨hfiles f hf1, ?_⟩
  by_cases hfh : f = t.headId
  · -- the head file: cut at `E`, with the new blob after it
    subst hfh
    have heE : e' ≤ E := by
      have := hmono (r.toNat + 1) n.toNat (by omega) (by omega) le_rfl (by rw [hendD]) hhead
      rwa [hendD] at this
    have hse : s ≤ e' := by
      rcases hstart with rfl | ⟨hr0, hstartIdx⟩
      · exact UInt32.zero_le
      · have hrpos : 0 < r.toNat := by
          rcases Nat.eq_zero_or_pos r.toNat with h0 | h0
          · exact absurd (UInt64.toNat_inj.mp (by simpa using h0)) hr0
          · exact h0
        have hstartD : t.index.getD r.toNat ⟨0, 0⟩ = ⟨t.headId, s⟩ := by
          rw [List.getD_eq_getElem?_getD, hstartIdx]
          rfl
        have := hmono r.toNat (r.toNat + 1) hrpos (by omega) (by omega) (by rw [hstartD]) (by rw [hendD])
        rwa [hstartD, hendD] at this
    have hsize' : s.toNat + (e' - s).toNat ≤ E.toNat := by
      rw [UInt32.toNat_sub_of_le _ _ hse]
      have := UInt32.le_iff_toNat_le.mp heE
      have := UInt32.le_iff_toNat_le.mp hse
      omega
    have hEc : E.toNat ≤ c.length := hsize
    have hcut : (c.take E.toNat ++ sfx).take E.toNat = c.take E.toNat := by
      rw [List.take_append_of_le_length (by simp; omega), List.take_take, Nat.min_self]
    rw [hheadData]
    exact read_congr hcut hEc (by simp; omega) hsize'
  · -- another file, which neither the cut nor the append touches
    rw [hdata f hfh hf1]
    simp [Function.update_of_ne hfh]

/-- Stored blobs as they are, for a table without compression. -/
def rawCodec : Codec := ⟨id, some⟩

/-- The index of a table with one item deleted from its tail: entry zero records tail file 0 and
`itemOffset = 1`, entry one ends item 1 after one byte. -/
def offsetIndex : List IndexEntry := [⟨0, 1⟩, ⟨0, 1⟩]

/-- Data file 0 holds the byte of item 1. -/
def offsetData : UInt32 → Option Blob := fun n => if n = 0 then some [0xAA] else none

/-- The table opened from these files, after `Append(2, [0xBB])`; the fresh empty table if that
failed. -/
def offsetTable : FreezerTable :=
  match repair offsetIndex offsetData 1000 true >>= fun t => append rawCodec t 2 [0xBB] with
  | .ok t => t
  | .error _ => ⟨[], fun _ => none, ∅, 0, 0, 0, 0, 0, 1000, true⟩

theorem retrieve_truncate_append_offset :
    (repair offsetIndex offsetData 1000 true >>= fun t => append rawCodec t 2 [0xBB]) = .ok offsetTable ∧
      ∃ t', append rawCodec (truncate offsetTable 2) 2 [0xCC] = .ok t' ∧
        retrieve rawCodec t' 2 = .ok [0xBB] := by
  refine ⟨rfl, ?_⟩
  obtain ⟨t', ht', hr⟩ := retrieve_truncate_append (t := offsetTable) (n := 2) rawCodec [0xCC]
    (by decide) (by decide) (by decide) (by decide) (by decide) (by decide)
    (fun i j hi hij hj _ _ => by
      have hj2 : j ≤ 2 := by simpa using hj
      interval_cases j <;> interval_cases i <;> decide)
    (fun i hi hi2 => by
      have hi2' : i ≤ 2 := by simpa using hi2
      interval_cases i <;> decide)
  exact ⟨t', ht', hr.trans (by decide)⟩

end Go420coin.Rawdb
