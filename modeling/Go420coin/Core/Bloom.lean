import Go420coin.Core.Types
import Mathlib.Data.Nat.Bitwise

/-!
# Log blooms (`core/types/bloom9.go`)

A bloom is 2048 bits in 256 bytes.  A datum sets three of them, read off the first six bytes of
its Keccak-256: each pair of bytes gives a position `k` below 2048, the low eleven bits of the pair
read big-endian (`bloomPos`), and position `k` is bit `k % 8` of byte `255 - k / 8` (`Bloom.bit`).
`add` sets the three bits, `Test` asks for all three, and `CreateBloom` adds the address and the
topics of every log of every receipt.

So adding never clears a bit (`bit_add`), a datum tests true once it is added (`test_add`), and the
bloom of a block's receipts tests true for the address and each topic of each of its logs
(`test_createBloom`).  Keccak-256 is a parameter `keccak`; the hasher's `Read` into six bytes reads
the first six bytes of the hash.  Of a receipt the model keeps its logs, of a log its address,
topics, block number and transaction hash.
-/

namespace Go420coin.Types

/-- `BloomByteLength`. -/
def bloomByteLength : Nat := 256

/-- `types.Bloom`. -/
abbrev Bloom := Vector UInt8 256

/-- `common.Hash{}`. -/
def emptyHash : Hash := Vector.replicate 32 0

/-- `types.Log`, the fields the blooms and the filters read. -/
structure Log where
  address : Address
  topics : List Hash
  blockNumber : Nat
  txHash : Hash
  deriving DecidableEq

/-- `types.Receipt`, its logs. -/
structure Receipt where
  logs : List Log

/-- One of the three bits of `bloomValues`, from the hash bytes `hi` and `lo`: the index of the byte
and the mask of the bit. -/
def bloomBit (hi lo : UInt8) : Fin 256 × UInt8 :=
  (⟨bloomByteLength - (((lo.toUInt16 ||| hi.toUInt16 <<< 8) &&& 0x7ff) >>> 3).toNat - 1,
      by unfold bloomByteLength; omega⟩,
    1 <<< (lo &&& 0x7))

variable (keccak : List UInt8 → List UInt8)

/-- `bloomValues`: the three bits of `data`. -/
def bloomValues (data : List UInt8) : List (Fin 256 × UInt8) :=
  let hashbuf := keccak data
  [bloomBit (hashbuf.getD 0 0) (hashbuf.getD 1 0), bloomBit (hashbuf.getD 2 0) (hashbuf.getD 3 0),
    bloomBit (hashbuf.getD 4 0) (hashbuf.getD 5 0)]

/-- `Bloom.add`. -/
def Bloom.add (b : Bloom) (d : List UInt8) : Bloom :=
  (bloomValues keccak d).foldl (fun b iv => b.set iv.1 (b[iv.1] ||| iv.2)) b

/-- `Bloom.Test`. -/
def Bloom.test (b : Bloom) (topic : List UInt8) : Bool :=
  (bloomValues keccak topic).all fun iv => iv.2 == iv.2 &&& b[iv.1]

/-- The empty bloom. -/
def Bloom.empty : Bloom := Vector.replicate 256 0

/-- `CreateBloom`. -/
def createBloom (receipts : List Receipt) : Bloom :=
  receipts.foldl (fun bin receipt =>
      receipt.logs.foldl (fun bin log =>
          log.topics.foldl (fun bin t => bin.add keccak t.toList) (bin.add keccak log.address.toList))
        bin)
    Bloom.empty

/-! ### Bit positions -/

/-- The position a pair of hash bytes gives: the low eleven bits of the pair, read big-endian. -/
def bloomPos (hi lo : UInt8) : Nat := (hi.toNat * 256 + lo.toNat) % 2048

/-- The positions of the three bits of `data`. -/
def bloomPositions (data : List UInt8) : List Nat :=
  let h := keccak data
  [bloomPos (h.getD 0 0) (h.getD 1 0), bloomPos (h.getD 2 0) (h.getD 3 0), bloomPos (h.getD 4 0) (h.getD 5 0)]

/-- Position `k` of a bloom: bit `k % 8` of byte `255 - k / 8`. -/
def Bloom.bit (b : Bloom) (k : Nat) : Bool := (b.toList.getD (255 - k / 8) 0).toNat.testBit (k % 8)

theorem bloomPos_lt (hi lo : UInt8) : bloomPos hi lo < 2048 := Nat.mod_lt _ (by decide)

theorem lt_of_mem_bloomPositions {d : List UInt8} {k : Nat} (hk : k ∈ bloomPositions keccak d) : k < 2048 := by
  simp only [bloomPositions, List.mem_cons, List.not_mem_nil, or_false] at hk
  rcases hk with rfl | rfl | rfl <;> exact bloomPos_lt _ _

/-- The byte `bloomBit` picks is the one of the position. -/
theorem bloomBit_index (hi lo : UInt8) : (bloomBit hi lo).1.val = 255 - bloomPos hi lo / 8 := by
  have hhi := hi.toNat_lt
  have hlo := lo.toNat_lt
  -- the pair read big-endian is `hi * 256 + lo`, and the mask keeps it below 2048
  have hpair : (lo.toUInt16 ||| hi.toUInt16 <<< 8).toNat = hi.toNat * 256 + lo.toNat := by
    rw [UInt16.toNat_or, UInt16.toNat_shiftLeft, UInt8.toNat_toUInt16, UInt8.toNat_toUInt16]
    have h8 : (8 : UInt16).toNat % 16 = 8 := rfl
    have hs : hi.toNat <<< 8 < 2 ^ 16 := by
      rw [Nat.shiftLeft_eq]
      omega
    rw [h8, Nat.mod_eq_of_lt hs, Nat.lor_comm, ← Nat.shiftLeft_add_eq_or_of_lt hlo, Nat.shiftLeft_eq]
  have hidx : (((lo.toUInt16 ||| hi.toUInt16 <<< 8) &&& 0x7ff) >>> 3).toNat = bloomPos hi lo / 8 := by
    rw [UInt16.toNat_shiftRight, UInt16.toNat_and, hpair]
    have hm : (0x7ff : UInt16).toNat = 2 ^ 11 - 1 := rfl
    have h3 : (3 : UInt16).toNat % 16 = 3 := rfl
    rw [hm, Nat.and_two_pow_sub_one_eq_mod, h3, Nat.shiftRight_eq_div_pow]
    rfl
  show bloomByteLength - _ - 1 = _
  rw [hidx]
  unfold bloomByteLength
  omega

/-- The mask `bloomBit` ors in is the bit of the position within its byte. -/
theorem toNat_bloomBit_mask (hi lo : UInt8) : (bloomBit hi lo).2.toNat = 2 ^ (bloomPos hi lo % 8) := by
  have hmod : bloomPos hi lo % 8 = lo.toNat % 8 := by
    unfold bloomPos
    omega
  have key : ∀ r : Fin 8, ((1 : UInt8) <<< r.val.toUInt8).toNat = 2 ^ r.val := by decide
  have hr : (lo &&& 0x7) = (lo.toNat % 8).toUInt8 := by
    apply UInt8.toNat_inj.1
    rw [UInt8.toNat_and, show (0x7 : UInt8).toNat = 2 ^ 3 - 1 from rfl, Nat.and_two_pow_sub_one_eq_mod,
      Nat.toUInt8_eq, UInt8.toNat_ofNat']
    omega
  show ((1 : UInt8) <<< (lo &&& 0x7)).toNat = _
  rw [hr, hmod]
  exact key ⟨lo.toNat % 8, Nat.mod_lt _ (by decide)⟩

theorem getElem_eq_getD (b : Bloom) (i : Fin 256) : b[i] = b.toList.getD i.val 0 := by
  rw [List.getD_eq_getElem _ _ (by simp), Vector.getElem_toList]
  rfl

theorem getD_toList_set (b : Bloom) (i : Fin 256) (x : UInt8) (j : Nat) :
    (b.set i x).toList.getD j 0 = if i.val = j then x else b.toList.getD j 0 := by
  rw [Vector.toList_set, List.getD_eq_getElem?_getD, List.getElem?_set, List.getD_eq_getElem?_getD]
  by_cases h : i.val = j
  · rw [if_pos h, if_pos h, if_pos (by simp)]
    rfl
  · rw [if_neg h, if_neg h]

/-- Or-ing the mask of one of a datum's bits into its byte sets that position and no other. -/
theorem bit_set_bloomBit (b : Bloom) (hi lo : UInt8) {k : Nat} (hk : k < 2048) :
    Bloom.bit (b.set (bloomBit hi lo).1 (b[(bloomBit hi lo).1] ||| (bloomBit hi lo).2)) k =
      (b.bit k || decide (k = bloomPos hi lo)) := by
  have hp := bloomPos_lt hi lo
  have hidx := bloomBit_index hi lo
  unfold Bloom.bit
  rw [getD_toList_set]
  by_cases hbyte : (bloomBit hi lo).1.val = 255 - k / 8
  · rw [if_pos hbyte, UInt8.toNat_or, Nat.testBit_or, toNat_bloomBit_mask, Nat.testBit_two_pow,
      getElem_eq_getD, hbyte]
    congr 1
    simp only [decide_eq_decide]
    omega
  · rw [if_neg hbyte]
    have hne : k ≠ bloomPos hi lo := fun h => hbyte (by rw [hidx, h])
    simp [hne]

/-- The test of one of a datum's bits reads the bloom at that position. -/
theorem test_bloomBit (b : Bloom) (hi lo : UInt8) :
    ((bloomBit hi lo).2 == (bloomBit hi lo).2 &&& b[(bloomBit hi lo).1]) = b.bit (bloomPos hi lo) := by
  have hand : ((bloomBit hi lo).2 &&& b[(bloomBit hi lo).1]).toNat =
      (b.bit (bloomPos hi lo)).toNat * 2 ^ (bloomPos hi lo % 8) := by
    rw [UInt8.toNat_and, toNat_bloomBit_mask, Nat.land_comm, Nat.and_two_pow, getElem_eq_getD,
      bloomBit_index]
    rfl
  have hpos : 0 < 2 ^ (bloomPos hi lo % 8) := Nat.pow_pos (by decide)
  cases hbit : b.bit (bloomPos hi lo)
  · rw [hbit, Bool.toNat_false, Nat.zero_mul] at hand
    rw [beq_eq_false_iff_ne]
    intro heq
    rw [← heq, toNat_bloomBit_mask] at hand
    omega
  · rw [hbit, Bool.toNat_true, Nat.one_mul, ← toNat_bloomBit_mask] at hand
    exact beq_iff_eq.2 (UInt8.toNat_inj.1 hand).symm

/-! ### Adding and testing -/

/-- Adding a datum sets its positions and keeps every other bit. -/
theorem bit_add (b : Bloom) (d : List UInt8) {k : Nat} (hk : k < 2048) :
    (b.add keccak d).bit k = (b.bit k || decide (k ∈ bloomPositions keccak d)) := by
  simp only [Bloom.add, bloomValues, List.foldl_cons, List.foldl_nil]
  rw [bit_set_bloomBit _ _ _ hk, bit_set_bloomBit _ _ _ hk, bit_set_bloomBit _ _ _ hk]
  simp only [bloomPositions, List.mem_cons, List.not_mem_nil, or_false, Bool.or_assoc, Bool.decide_or]

/-- `Test` asks for the three positions of the datum. -/
theorem test_eq (b : Bloom) (d : List UInt8) :
    b.test keccak d = (bloomPositions keccak d).all (b.bit ·) := by
  simp only [Bloom.test, bloomValues, bloomPositions, List.all_cons, List.all_nil, test_bloomBit]

/-- A datum tests true in a bloom it was added to. -/
theorem test_add (b : Bloom) (d : List UInt8) : (b.add keccak d).test keccak d = true := by
  rw [test_eq, List.all_eq_true]
  intro k hk
  rw [bit_add keccak b d (lt_of_mem_bloomPositions keccak hk)]
  simp [hk]

/-- Adding keeps what tested true. -/
theorem test_add_of_test {b : Bloom} {x : List UInt8} (h : b.test keccak x = true) (d : List UInt8) :
    (b.add keccak d).test keccak x = true := by
  rw [test_eq, List.all_eq_true] at h ⊢
  intro k hk
  rw [bit_add keccak b d (lt_of_mem_bloomPositions keccak hk), h k hk, Bool.true_or]

/-! ### The bloom of a block's receipts -/

/-- What `CreateBloom` adds, in order: of each log, the address and then the topics. -/
def bloomData (receipts : List Receipt) : List (List UInt8) :=
  receipts.flatMap fun r => r.logs.flatMap fun log => log.address.toList :: log.topics.map (·.toList)

private theorem foldl_logs (logs : List Log) (b : Bloom) :
    logs.foldl (fun bin log =>
        log.topics.foldl (fun bin t => bin.add keccak t.toList) (bin.add keccak log.address.toList)) b =
      (logs.flatMap fun log => log.address.toList :: log.topics.map (·.toList)).foldl (Bloom.add keccak) b := by
  induction logs generalizing b with
  | nil => rfl
  | cons log logs ih => simp only [List.foldl_cons, List.flatMap_cons, List.foldl_append, List.foldl_map, ih]

/-- `CreateBloom` adds the data of `bloomData` one after the other. -/
theorem createBloom_eq (receipts : List Receipt) :
    createBloom keccak receipts = (bloomData receipts).foldl (Bloom.add keccak) Bloom.empty := by
  unfold createBloom bloomData
  generalize Bloom.empty = b
  induction receipts generalizing b with
  | nil => rfl
  | cons r rs ih => rw [List.foldl_cons, List.flatMap_cons, List.foldl_append, foldl_logs, ih]

@[simp] theorem bit_empty (k : Nat) : Bloom.empty.bit k = false := by
  unfold Bloom.bit Bloom.empty
  rw [Vector.toList_replicate, List.getD_eq_getElem?_getD, List.getElem?_replicate]
  split <;> simp

theorem bit_foldl_add (l : List (List UInt8)) (b : Bloom) {k : Nat} (hk : k < 2048) :
    (l.foldl (Bloom.add keccak) b).bit k = (b.bit k || l.any fun d => decide (k ∈ bloomPositions keccak d)) := by
  induction l generalizing b with
  | nil => simp
  | cons d l ih => rw [List.foldl_cons, ih, bit_add keccak b d hk, List.any_cons, Bool.or_assoc]

/-- A bit of the bloom of a block's receipts is set exactly when it is a position of one of the data
`CreateBloom` adds. -/
theorem bit_createBloom (receipts : List Receipt) {k : Nat} (hk : k < 2048) :
    (createBloom keccak receipts).bit k = (bloomData receipts).any fun d => decide (k ∈ bloomPositions keccak d) := by
  rw [createBloom_eq, bit_foldl_add keccak _ _ hk, bit_empty, Bool.false_or]

/-- A datum `CreateBloom` adds tests true in the bloom. -/
theorem test_createBloom_of_mem {receipts : List Receipt} {d : List UInt8} (hd : d ∈ bloomData receipts) :
    (createBloom keccak receipts).test keccak d = true := by
  rw [test_eq, List.all_eq_true]
  intro k hk
  rw [bit_createBloom keccak receipts (lt_of_mem_bloomPositions keccak hk), List.any_eq_true]
  exact ⟨d, hd, decide_eq_true hk⟩

/-- The bloom of a block's receipts tests true for the address and every topic of each of their
logs. -/
theorem test_createBloom {receipts : List Receipt} {r : Receipt} (hr : r ∈ receipts) {log : Log}
    (hlog : log ∈ r.logs) :
    (createBloom keccak receipts).test keccak log.address.toList = true ∧
      ∀ t ∈ log.topics, (createBloom keccak receipts).test keccak t.toList = true := by
  have hmem : ∀ d ∈ log.address.toList :: log.topics.map (·.toList), d ∈ bloomData receipts := by
    intro d hd
    simp only [bloomData, List.mem_flatMap]
    exact ⟨r, hr, log, hlog, hd⟩
  refine ⟨test_createBloom_of_mem keccak (hmem _ List.mem_cons_self), fun t ht => ?_⟩
  exact test_createBloom_of_mem keccak (hmem _ (List.mem_cons_of_mem _ (List.mem_map_of_mem ht)))

end Go420coin.Types
