import Go420coin.Core.Bloom
import Go420coin.Common.Bitutil
import Go420coin.Lib.Loop

/-!
# Rotated bloom bits (`core/bloombits/generator.go`)

A generator turns the blooms of a section of `sections` blocks, given in order, into 2048 bit
vectors of `sections / 8` bytes, one per bloom bit: bit `j` of vector `r` (bit `7 - j % 8` of byte
`j / 8`, as `Bitutil.bitAt` reads it) is bit `r` of the bloom of block `j` of the section.
`AddBloom` refuses a bloom past the capacity or out of order, and `Bitset` a vector before every
bloom is in, or past bit 2047.

`Generator.Holds g bs` says that `g` holds the blooms `bs`, the first of its section.
`NewGenerator` holds none (`holds_newGenerator`), adding the next bloom keeps it
(`holds_addBloom`), so feeding a section in order keeps it (`holds_foldlM_addBloom`), and once the
section is full each vector is the blooms read at one bit (`bitset_of_holds`).
-/

namespace Go420coin.Bloombits

open Go420coin.Types Go420coin.Bitutil

/-- The errors of the generator. -/
inductive Error where
  | sectionCountNotMultipleOf8
  | sectionOutOfBounds
  | unexpectedIndex
  | notFullyGenerated
  | bloomBitOutOfBounds
  deriving DecidableEq, Repr

/-- The text of each error. -/
def Error.message : Error → String
  | .sectionCountNotMultipleOf8 => "section count not multiple of 8"
  | .sectionOutOfBounds => "section out of bounds"
  | .unexpectedIndex => "bloom filter with unexpected index"
  | .notFullyGenerated => "bloom not fully generated yet"
  | .bloomBitOutOfBounds => "bloom bit out of bounds"

/-- `Generator`: one row of bytes per bloom bit (`types.BloomBitLength` rows), the number of
sections batched and the next section to set. -/
structure Generator where
  blooms : Vector (List UInt8) 2048
  sections : Nat
  nextSec : Nat

/-- `NewGenerator`. -/
def newGenerator (sections : Nat) : Except Error Generator :=
  if sections % 8 ≠ 0 then .error .sectionCountNotMultipleOf8
  else .ok { blooms := Vector.replicate 2048 (List.replicate (sections / 8) 0), sections, nextSec := 0 }

/-- `b.blooms[row][byteIndex] |= bit`. -/
def orInto (blooms : Vector (List UInt8) 2048) (row : Fin 2048) (byteIndex : Nat) (bit : UInt8) :
    Vector (List UInt8) 2048 :=
  blooms.set row (blooms[row].modify byteIndex (· ||| bit))

/-- The body of the loop of `AddBloom` at byte `byt`, counted from the end of the bloom: the eight
lines `b.blooms[base+j][byteIndex] |= ((bloomByte >> j) & 1) << bitIndex`, `j` from 7 down to 0,
and nothing for a zero byte. -/
def addByte (byteIndex : Nat) (bitIndex : UInt8) (bloom : Bloom) (blooms : Vector (List UInt8) 2048)
    (byt : Fin 256) : Vector (List UInt8) 2048 :=
  let bloomByte := bloom.get ⟨bloomByteLength - 1 - byt.val, by unfold bloomByteLength; omega⟩
  if bloomByte = 0 then blooms
  else
    ([7, 6, 5, 4, 3, 2, 1, 0] : List (Fin 8)).foldl
      (fun bl j => orInto bl ⟨8 * byt.val + j.val, by have := byt.isLt; have := j.isLt; omega⟩ byteIndex
        (((bloomByte >>> j.val.toUInt8) &&& 1) <<< bitIndex))
      blooms

/-- `AddBloom`. -/
def Generator.addBloom (b : Generator) (index : Nat) (bloom : Bloom) : Except Error Generator :=
  if b.nextSec ≥ b.sections then .error .sectionOutOfBounds
  else if b.nextSec ≠ index then .error .unexpectedIndex
  else
    let byteIndex := b.nextSec / 8
    let bitIndex := (7 - b.nextSec % 8).toUInt8
    .ok { b with
      blooms := (List.finRange 256).foldl (addByte byteIndex bitIndex bloom) b.blooms
      nextSec := b.nextSec + 1 }

/-- `Bitset`. -/
def Generator.bitset (b : Generator) (idx : Nat) : Except Error (List UInt8) :=
  if b.nextSec ≠ b.sections then .error .notFullyGenerated
  else if h : 2048 ≤ idx then .error .bloomBitOutOfBounds
  else .ok (b.blooms.get ⟨idx, by omega⟩)

/-! ### One line of the rotation -/

theorem getElem_orInto (blooms : Vector (List UInt8) 2048) (row r : Fin 2048) (k : Nat) (bit : UInt8) :
    (orInto blooms row k bit)[r] = if row = r then blooms[r].modify k (· ||| bit) else blooms[r] := by
  simp only [orInto, Fin.getElem_fin, Vector.getElem_set]
  by_cases h : row = r
  · subst h
    simp
  · simp [Fin.val_ne_of_ne h, h]

theorem length_orInto (blooms : Vector (List UInt8) 2048) (row r : Fin 2048) (k : Nat) (bit : UInt8) :
    (orInto blooms row k bit)[r].length = blooms[r].length := by
  rw [getElem_orInto]
  split_ifs <;> simp

/-- The bit a line ors in: the mask of position `n` where bit `j` of the bloom byte is set, else
nothing. -/
theorem rowBit_eq (x : UInt8) (j : Fin 8) (n : Nat) :
    ((x >>> j.val.toUInt8) &&& 1) <<< (7 - n % 8).toUInt8 = if x.toNat.testBit j then mask n else 0 := by
  have hj : (j.val.toUInt8).toNat % 8 = j.val := by
    have := j.isLt
    rw [UInt8.toNat_ofNat', Nat.mod_eq_of_lt (Nat.lt_of_lt_of_le this (by decide)), Nat.mod_eq_of_lt this]
  -- the shifted and masked byte is the bit itself
  have hbit : ((x >>> j.val.toUInt8) &&& 1).toNat = (x.toNat.testBit j).toNat := by
    rw [UInt8.toNat_and, UInt8.toNat_shiftRight, hj, UInt8.toNat_one, Nat.and_one_is_mod,
      Nat.shiftRight_eq_div_pow, Nat.testBit_eq_decide_div_mod_eq]
    rcases Nat.mod_two_eq_zero_or_one (x.toNat / 2 ^ j.val) with h | h <;> simp [h]
  cases ht : x.toNat.testBit j
  · have h0 : (x >>> j.val.toUInt8) &&& 1 = 0 := UInt8.toNat_inj.1 (by rw [hbit, ht]; rfl)
    rw [h0, if_neg (by decide), UInt8.zero_shiftLeft]
  · have h1 : (x >>> j.val.toUInt8) &&& 1 = 1 := UInt8.toNat_inj.1 (by rw [hbit, ht]; rfl)
    rw [h1, if_pos rfl]
    rfl

/-- Or-ing the line's bit into byte `n / 8` of a row sets bit `n` of the row where bit `j` of the
bloom byte is set. -/
theorem bitAt_modify_rowBit (l : List UInt8) {n : Nat} (hn : n / 8 < l.length) (x : UInt8) (j : Fin 8) (p : Nat) :
    bitAt (l.modify (n / 8) (· ||| ((x >>> j.val.toUInt8) &&& 1) <<< (7 - n % 8).toUInt8)) p =
      (bitAt l p || (decide (n = p) && x.toNat.testBit j)) := by
  rw [rowBit_eq]
  cases x.toNat.testBit j
  · have hid : (fun y : UInt8 => y ||| 0) = id := funext fun y => UInt8.or_zero
    rw [if_neg (by decide), hid, List.modify_id, Bool.and_false, Bool.or_false]
  · rw [if_pos rfl, bitAt_modify l hn, Bool.and_true]

/-! ### A whole bloom -/

section AddBloom

variable {n L : Nat} {bloom : Bloom}

/-- Every row has `L` bytes. -/
def RowLengths (L : Nat) (bl : Vector (List UInt8) 2048) : Prop := ∀ r : Fin 2048, bl[r].length = L

theorem rowLengths_orInto {bl : Vector (List UInt8) 2048} (h : RowLengths L bl) (row : Fin 2048) (k : Nat)
    (bit : UInt8) : RowLengths L (orInto bl row k bit) := fun r => by
  rw [length_orInto]
  exact h r

/-- Every Fin 8 is one of the eight lines of the loop body. -/
theorem mem_lines (j : Fin 8) : j ∈ ([7, 6, 5, 4, 3, 2, 1, 0] : List (Fin 8)) := by
  revert j
  decide

theorem rowLengths_addByte {bl : Vector (List UInt8) 2048} (h : RowLengths L bl) (k : Nat) (bitIndex : UInt8)
    (byt : Fin 256) : RowLengths L (addByte k bitIndex bloom bl byt) := by
  unfold addByte
  dsimp only
  split_ifs
  · exact h
  · exact Loop.foldl_preserves (RowLengths L) _ (fun bl j _ hb => rowLengths_orInto hb _ _ _) h

/-- Row `r` is reached by the line `j = r % 8` of byte `r / 8` alone. -/
theorem any_lines (byt : Fin 256) (r : Fin 2048) (t : Nat → Bool) :
    ([7, 6, 5, 4, 3, 2, 1, 0] : List (Fin 8)).any (fun j => decide (8 * byt.val + j.val = r.val) && t j) =
      (decide (r.val / 8 = byt.val) && t (r.val % 8)) := by
  apply Bool.eq_iff_iff.2
  rw [List.any_eq_true, Bool.and_eq_true, decide_eq_true_iff]
  constructor
  · rintro ⟨j, -, hj⟩
    rw [Bool.and_eq_true, decide_eq_true_iff] at hj
    obtain ⟨hrow, ht⟩ := hj
    have hjv : r.val % 8 = j.val := by
      have := j.isLt
      omega
    exact ⟨by omega, hjv ▸ ht⟩
  · rintro ⟨hbyt, ht⟩
    refine ⟨⟨r.val % 8, Nat.mod_lt _ (by decide)⟩, mem_lines _, ?_⟩
    rw [Bool.and_eq_true, decide_eq_true_iff]
    exact ⟨by simp only; omega, ht⟩

/-- Every row lies in one byte of the bloom. -/
theorem any_finRange_bytes (r : Fin 2048) (t : Nat → Bool) :
    (List.finRange 256).any (fun byt => decide (r.val / 8 = byt.val) && t byt.val) = t (r.val / 8) := by
  apply Bool.eq_iff_iff.2
  rw [List.any_eq_true]
  constructor
  · rintro ⟨byt, -, hb⟩
    rw [Bool.and_eq_true, decide_eq_true_iff] at hb
    exact hb.1 ▸ hb.2
  · intro ht
    have hr := r.isLt
    refine ⟨⟨r.val / 8, by omega⟩, List.mem_finRange _, ?_⟩
    rw [Bool.and_eq_true, decide_eq_true_iff]
    exact ⟨rfl, ht⟩

/-- The loop body at byte `byt` sets bit `n` of the rows `8 * byt + j` for the set bits `j` of the
byte, and nothing else. -/
theorem bitAt_addByte (hn : n / 8 < L) {bl : Vector (List UInt8) 2048} (h : RowLengths L bl) (byt : Fin 256)
    (r : Fin 2048) (p : Nat) :
    bitAt (addByte (n / 8) (7 - n % 8).toUInt8 bloom bl byt)[r] p =
      (bitAt bl[r] p || (decide (r.val / 8 = byt.val) && (decide (n = p) &&
        (bloom.toList.getD (255 - byt.val) 0).toNat.testBit (r.val % 8)))) := by
  have hbyte : bloom.get ⟨bloomByteLength - 1 - byt.val, by unfold bloomByteLength; omega⟩ =
      bloom.toList.getD (255 - byt.val) 0 := by
    exact getElem_eq_getD bloom ⟨bloomByteLength - 1 - byt.val, by unfold bloomByteLength; omega⟩
  unfold addByte
  dsimp only
  rw [hbyte]
  split_ifs with h0
  · simp only [h0, UInt8.toNat_zero, Nat.zero_testBit, Bool.and_false, Bool.or_false]
  · rw [Loop.foldl_or_any (RowLengths L) (fun bl => bitAt bl[r] p)
      (fun j : Fin 8 => decide (8 * byt.val + j.val = r.val) &&
        (decide (n = p) && (bloom.toList.getD (255 - byt.val) 0).toNat.testBit j))
      _ (fun bl j _ hb => rowLengths_orInto hb _ _ _) _ h,
      any_lines byt r fun j => decide (n = p) && (bloom.toList.getD (255 - byt.val) 0).toNat.testBit j]
    intro bl j _ hb
    rw [getElem_orInto]
    split_ifs with hrow
    · subst hrow
      rw [bitAt_modify_rowBit _ (by rw [hb]; exact hn)]
      simp
    · have hne : (8 * byt.val + j.val = r.val) = False := eq_false fun hv => hrow (Fin.ext hv)
      simp [hne]

theorem rowLengths_foldl_addByte {bl : Vector (List UInt8) 2048} (h : RowLengths L bl) (k : Nat) (bitIndex : UInt8) :
    RowLengths L ((List.finRange 256).foldl (addByte k bitIndex bloom) bl) :=
  Loop.foldl_preserves (RowLengths L) _ (fun _ byt _ hb => rowLengths_addByte hb k bitIndex byt) h

/-- The loop of `AddBloom` sets bit `n` of each row `r` where bit `r` of the bloom is set. -/
theorem bitAt_foldl_addByte (hn : n / 8 < L) {bl : Vector (List UInt8) 2048} (h : RowLengths L bl) (r : Fin 2048)
    (p : Nat) :
    bitAt ((List.finRange 256).foldl (addByte (n / 8) (7 - n % 8).toUInt8 bloom) bl)[r] p =
      (bitAt bl[r] p || (decide (n = p) && bloom.bit r)) := by
  rw [Loop.foldl_or_any (RowLengths L) (fun bl => bitAt bl[r] p)
    (fun byt => decide (r.val / 8 = byt.val) &&
      (decide (n = p) && (bloom.toList.getD (255 - byt.val) 0).toNat.testBit (r.val % 8)))
    _ (fun _ byt _ hb => rowLengths_addByte hb _ _ byt) (fun _ byt _ hb => bitAt_addByte hn hb byt r p) h,
    any_finRange_bytes r fun b => decide (n = p) && (bloom.toList.getD (255 - b) 0).toNat.testBit (r.val % 8)]
  rfl

/-- A bloom appended to the ones held: its bits come in at position `bs.length`. -/
theorem bit_getD_append_singleton (bs : List Bloom) (bloom : Bloom) (j r : Nat) :
    ((bs ++ [bloom]).getD j Bloom.empty).bit r =
      ((bs.getD j Bloom.empty).bit r || (decide (bs.length = j) && bloom.bit r)) := by
  rcases Nat.lt_trichotomy j bs.length with hj | rfl | hj
  · rw [List.getD_append _ _ _ _ hj, decide_eq_false (by omega), Bool.false_and, Bool.or_false]
  · rw [List.getD_append_right _ _ _ _ (Nat.le_refl _), Nat.sub_self, List.getD_cons_zero,
      List.getD_eq_default _ _ (Nat.le_refl _), bit_empty]
    simp
  · rw [List.getD_eq_default _ _ (by simp; omega), List.getD_eq_default _ _ (by omega), bit_empty,
      decide_eq_false (by omega), Bool.false_and, Bool.or_false]

end AddBloom

/-! ### The generator over a section -/

/-- `g` holds the blooms `bs`, the first of its section: each row has `sections / 8` bytes, and bit
`j` of row `r` is bit `r` of bloom `j`, unset past the blooms held. -/
structure Generator.Holds (g : Generator) (bs : List Bloom) : Prop where
  sections_mod : g.sections % 8 = 0
  nextSec_eq : g.nextSec = bs.length
  nextSec_le : g.nextSec ≤ g.sections
  row_lengths : RowLengths (g.sections / 8) g.blooms
  bitAt_row : ∀ (r : Fin 2048) (j : Nat), bitAt g.blooms[r] j = (bs.getD j Bloom.empty).bit r

theorem newGenerator_ok {sections : Nat} {g : Generator} (h : newGenerator sections = .ok g) :
    sections % 8 = 0 ∧ g = ⟨Vector.replicate 2048 (List.replicate (sections / 8) 0), sections, 0⟩ := by
  unfold newGenerator at h
  split_ifs at h with hmod
  cases h
  exact ⟨by omega, rfl⟩

theorem holds_newGenerator {sections : Nat} {g : Generator} (h : newGenerator sections = .ok g) : g.Holds [] := by
  obtain ⟨hmod, rfl⟩ := newGenerator_ok h
  exact {
    sections_mod := hmod
    nextSec_eq := rfl
    nextSec_le := Nat.zero_le _
    row_lengths := fun r => by simp
    bitAt_row := fun r j => by simp }

/-- `AddBloom` takes the next bloom, below the capacity. -/
theorem addBloom_ok {g : Generator} (hlt : g.nextSec < g.sections) (bloom : Bloom) :
    g.addBloom g.nextSec bloom =
      .ok { g with
        blooms := (List.finRange 256).foldl (addByte (g.nextSec / 8) (7 - g.nextSec % 8).toUInt8 bloom) g.blooms
        nextSec := g.nextSec + 1 } := by
  unfold Generator.addBloom
  rw [if_neg (by omega), if_neg (by simp)]

/-- `AddBloom` refuses a bloom past the capacity, then one out of order. -/
theorem addBloom_error {g : Generator} {i : Nat} {bloom : Bloom} {e : Error} (h : g.addBloom i bloom = .error e) :
    (g.sections ≤ g.nextSec ∧ e = .sectionOutOfBounds) ∨
      (g.nextSec < g.sections ∧ g.nextSec ≠ i ∧ e = .unexpectedIndex) := by
  unfold Generator.addBloom at h
  split_ifs at h with h₁ h₂
  · cases h
    exact .inl ⟨h₁, rfl⟩
  · cases h
    exact .inr ⟨by omega, h₂, rfl⟩

/-- Adding the next bloom keeps the generator holding the blooms so far. -/
theorem holds_addBloom {g : Generator} {bs : List Bloom} (h : g.Holds bs) (hlt : bs.length < g.sections)
    (bloom : Bloom) :
    ∃ g', g.addBloom bs.length bloom = .ok g' ∧ g'.sections = g.sections ∧ g'.Holds (bs ++ [bloom]) := by
  have hmod := h.sections_mod
  have hn : bs.length / 8 < g.sections / 8 := by omega
  have hadd : g.addBloom bs.length bloom =
      .ok { g with
        blooms := (List.finRange 256).foldl (addByte (bs.length / 8) (7 - bs.length % 8).toUInt8 bloom) g.blooms
        nextSec := bs.length + 1 } := by
    rw [← h.nextSec_eq]
    exact addBloom_ok (by rw [h.nextSec_eq]; exact hlt) bloom
  have hrows : RowLengths (g.sections / 8)
      ((List.finRange 256).foldl (addByte (bs.length / 8) (7 - bs.length % 8).toUInt8 bloom) g.blooms) :=
    rowLengths_foldl_addByte h.row_lengths _ _
  refine ⟨_, hadd, rfl, ⟨hmod, ?_, hlt, ?_, fun r j => ?_⟩⟩ <;> dsimp only
  · rw [List.length_append, List.length_singleton]
  · exact hrows
  · rw [bitAt_foldl_addByte hn h.row_lengths, h.bitAt_row, bit_getD_append_singleton]

/-- Feeding the blooms `bs'` after the ones held, each with its index, keeps the generator holding
them all. -/
theorem holds_foldlM_addBloom : ∀ (bs' : List Bloom) {g : Generator} {bs : List Bloom}, g.Holds bs →
    bs.length + bs'.length ≤ g.sections →
    ∃ g', (bs'.zipIdx bs.length).foldlM (fun g p => g.addBloom p.2 p.1) g = .ok g' ∧
      g'.sections = g.sections ∧ g'.Holds (bs ++ bs')
  | [], g, bs, h, _ => ⟨g, rfl, rfl, by rw [List.append_nil]; exact h⟩
  | b :: bs', g, bs, h, hlen => by
    rw [List.length_cons] at hlen
    obtain ⟨g₁, hadd, hsec₁, h₁⟩ := holds_addBloom h (by omega) b
    have hlen₁ : (bs ++ [b]).length + bs'.length ≤ g₁.sections := by
      rw [List.length_append, List.length_singleton, hsec₁]
      omega
    obtain ⟨g', hrun, hsec', h'⟩ := holds_foldlM_addBloom bs' h₁ hlen₁
    refine ⟨g', ?_, hsec'.trans hsec₁, by rw [List.append_cons]; exact h'⟩
    rw [List.zipIdx_cons, List.foldlM_cons, hadd]
    rw [List.length_append, List.length_singleton] at hrun
    exact hrun

/-- `Bitset` refuses a vector before the section is full. -/
theorem bitset_notFull {g : Generator} (h : g.nextSec ≠ g.sections) (idx : Nat) :
    g.bitset idx = .error .notFullyGenerated := by
  unfold Generator.bitset
  rw [if_pos h]

/-- Once the section is full, the vector of bit `idx` is the section's blooms read at that bit. -/
theorem bitset_of_holds {g : Generator} {bs : List Bloom} (h : g.Holds bs) (hfull : bs.length = g.sections)
    {idx : Nat} (hidx : idx < 2048) :
    ∃ v, g.bitset idx = .ok v ∧ v.length = g.sections / 8 ∧ ∀ j, bitAt v j = (bs.getD j Bloom.empty).bit idx := by
  have hsec : g.nextSec = g.sections := h.nextSec_eq.trans hfull
  refine ⟨g.blooms[idx], ?_, h.row_lengths ⟨idx, hidx⟩, h.bitAt_row ⟨idx, hidx⟩⟩
  unfold Generator.bitset
  rw [if_neg (not_not.2 hsec), dif_neg (by omega)]
  rfl

/-- The blooms of a whole section, fed in order to a new generator, each with its index: every
bloom bit then has its vector, of `sections / 8` bytes, whose bit `j` is that bit of bloom `j`;
and the generator refuses any further bloom. -/
theorem bitset_rotates {sections : Nat} {g₀ : Generator} (h₀ : newGenerator sections = .ok g₀)
    (bs : List Bloom) (hlen : bs.length = sections) :
    ∃ g, bs.zipIdx.foldlM (fun g p => g.addBloom p.2 p.1) g₀ = .ok g ∧
      (∀ idx < 2048, ∃ v, g.bitset idx = .ok v ∧ v.length = sections / 8 ∧
        ∀ j (hj : j < bs.length), bitAt v j = bs[j].bit idx) ∧
      ∀ i bloom, g.addBloom i bloom = .error .sectionOutOfBounds := by
  have hg₀ := holds_newGenerator h₀
  have hsec₀ : g₀.sections = sections := by rw [(newGenerator_ok h₀).2]
  obtain ⟨g, hrun, hsec, hg⟩ := holds_foldlM_addBloom bs hg₀ (by rw [List.length_nil, Nat.zero_add, hlen, hsec₀])
  rw [List.nil_append] at hg
  have hfull : bs.length = g.sections := by rw [hsec, hsec₀, hlen]
  refine ⟨g, hrun, fun idx hidx => ?_, fun i bloom => ?_⟩
  · obtain ⟨v, hv, hvlen, hbits⟩ := bitset_of_holds hg hfull hidx
    refine ⟨v, hv, by rw [hvlen, hsec, hsec₀], fun j hj => ?_⟩
    rw [hbits, List.getD_eq_getElem _ _ hj]
  · unfold Generator.addBloom
    rw [if_pos (by rw [hg.nextSec_eq, hfull])]

theorem bitset_rotates_section :
    newGenerator 8 = .ok ⟨Vector.replicate 2048 [0], 8, 0⟩ ∧
      ∃ g : Generator, (List.replicate 8 Bloom.empty).zipIdx.foldlM (fun (g : Generator) p => g.addBloom p.2 p.1)
          ⟨Vector.replicate 2048 [0], 8, 0⟩ = .ok g ∧
        (∀ idx < 2048, ∃ v, g.bitset idx = .ok v ∧ v.length = 8 / 8 ∧
          ∀ j (hj : j < (List.replicate 8 Bloom.empty).length), bitAt v j = (List.replicate 8 Bloom.empty)[j].bit idx) ∧
        ∀ i bloom, g.addBloom i bloom = .error .sectionOutOfBounds :=
  ⟨rfl, bitset_rotates rfl _ (List.length_replicate ..)⟩

end Go420coin.Bloombits
