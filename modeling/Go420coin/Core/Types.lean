import Go420coin.Lib.BigEndian

/-!
# Addresses, hashes and block headers (`common/types.go`, `core/types/block.go`)

An `Address` is twenty bytes and a `Hash` thirty-two.  `BytesToAddress` and `BytesToHash` keep the
last bytes of a longer string and pad a shorter one with zeros on the left (`padLeft`).

A `Header` holds the fields of Go's header that the modelled consensus code reads.  `Difficulty`
and `Number` are `big.Int`s that a decoded header holds non-negative, so they are natural numbers
here; `Time` is a `uint64`.
-/

namespace Go420coin

/-- `common.Address`. -/
abbrev Address := Vector UInt8 20

/-- `common.Hash`. -/
abbrev Hash := Vector UInt8 32

/-- The lawful equality of hashes, as one named instance that every use refers to. -/
instance : LawfulBEq Hash := inferInstance

/-- `types.BlockNonce`. -/
abbrev BlockNonce := Vector UInt8 8

/-- `SetBytes` into `n` bytes: the last `n` bytes of `b`, padded with zeros on the left. -/
def padLeft (n : Nat) (b : List UInt8) : Vector UInt8 n :=
  ⟨(List.replicate (n - min b.length n) 0 ++ b.drop (b.length - n)).toArray, by simp; omega⟩

/-- `common.BytesToAddress`. -/
def bytesToAddress (b : List UInt8) : Address := padLeft 20 b

/-- `common.BytesToHash`. -/
def bytesToHash (b : List UInt8) : Hash := padLeft 32 b

/-- `Hash.Big`: the hash read as a big-endian number. -/
def Hash.big (h : Hash) : Nat := BigEndian.ofBytes h.toList

theorem toList_padLeft_of_le {n : Nat} {b : List UInt8} (h : b.length ≤ n) :
    (padLeft n b).toList = List.replicate (n - b.length) 0 ++ b := by
  simp [padLeft, Nat.min_eq_left h, Nat.sub_eq_zero_of_le h]

/-- `BytesToHash` of the big-endian string of a number that fits keeps the number. -/
theorem big_bytesToHash_toBytes {n : Nat} (h : n < 256 ^ 32) :
    (bytesToHash (BigEndian.toBytes n)).big = n := by
  have hl : (BigEndian.toBytes n).length ≤ 32 := BigEndian.length_toBytes_le.mpr h
  rw [Hash.big, bytesToHash, toList_padLeft_of_le hl, BigEndian.ofBytes_append,
    BigEndian.ofBytes_replicate_zero, BigEndian.ofBytes_toBytes, zero_mul, zero_add]

/-- `types.Header`, as far as the modelled code reads it. -/
structure Header where
  uncleHash : Hash
  coinbase : Address
  difficulty : Nat
  number : Nat
  time : UInt64
  extra : List UInt8
  nonce : BlockNonce
  deriving DecidableEq

/-- `types.EmptyUncleHash`: the Keccak-256 of the encoding of the empty list. -/
def emptyUncleHash : Hash :=
  #v[0x1d, 0xcc, 0x4d, 0xe8, 0xde, 0xc7, 0x5d, 0x7a, 0xab, 0x85, 0xb5, 0x67, 0xb6, 0xcc, 0xd4, 0x1a,
     0xd3, 0x12, 0x45, 0x1b, 0x94, 0x8a, 0x74, 0x13, 0xf0, 0xa1, 0x42, 0xfd, 0x40, 0xd4, 0x93, 0x47]

end Go420coin
