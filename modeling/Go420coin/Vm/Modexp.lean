import Go420coin.Lib.BigEndian
import Mathlib.Data.Nat.Size

/-!
# The price of the MODEXP precompile (`core/vm/contracts.go`)

`bigModExp.RequiredSmoke` reads three 32-byte length words from the input, the head of the exponent
after the base, and prices the call by EIP-198, or by EIP-2565 once that is active.  The words are
read with `getData`, which clamps its window to the input and pads it with zeros, and the lengths
are big integers, up to `2 ^ 256 - 1`.

`modexpPrice` states the price as the two EIPs do, reading the input byte by byte with zeros
beyond its end; `requiredSmoke_eq_price` shows that `RequiredSmoke` returns it, capped at
`2 ^ 64 - 1`, for every input: `getData` never panics here and returns the bytes the EIPs read
(`getData_eq`), the exponent head is the EIPs' (`expHead_eq`), `BitLen - 1` is the index of the
highest bit (`size_sub_one`), and the 64-bit result saturates exactly where the price stops fitting.
-/

namespace Go420coin.Vm

/-! ### The code -/

/-- `common.RightPadBytes`: a length that is not above the slice's leaves it as it is. -/
def rightPadBytes (slice : List UInt8) (l : Int) : List UInt8 :=
  if l ≤ slice.length then slice else slice ++ List.replicate (l.toNat - slice.length) 0

/-- `getData`: `size` bytes of `data` from `start`, the window clamped to the data and padded with
zeros.  `start + size` is a `uint64` sum, and `int(size)` a signed conversion; a sum that wraps
below the start makes the slice `data[start:end]` panic (`none`).  Go lengths are below `2 ^ 63`,
so `uint64(len(data))` is the length itself. -/
def getData (data : List UInt8) (start size : UInt64) : Option (List UInt8) :=
  let length := data.length
  let start := min start.toNat length
  let stop := min ((start + size.toNat) % 2 ^ 64) length
  if stop < start then none
  else some (rightPadBytes ((data.take stop).drop start)
    (if size.toNat < 2 ^ 63 then (size.toNat : Int) else (size.toNat : Int) - 2 ^ 64))

/-- `modexpMultComplexity`: the complexity of EIP-198 for `x = max(baseLen, modLen)`.  The
differences are positive in their branches, so the natural subtraction is the code's. -/
def modexpMultComplexity (x : Nat) : Nat :=
  if x ≤ 64 then x * x
  else if x ≤ 1024 then x * x / 4 + (96 * x - 3072)
  else x * x / 16 + (480 * x - 199680)

/-- `math.MaxUint64`. -/
def maxUint64 : UInt64 := 0xffffffffffffffff

/-- The head 32 bytes of the exponent, in the input after the header, for the adjusted exponent
length of `RequiredSmoke`: zero when the input ends before the exponent. -/
def readExpHead (input : List UInt8) (baseLen expLen : Nat) : Option Nat :=
  if input.length ≤ baseLen then pure 0
  else if expLen > 32 then BigEndian.ofBytes <$> getData input baseLen.toUInt64 32
  else BigEndian.ofBytes <$> getData input baseLen.toUInt64 expLen.toUInt64

/-- `bigModExp.RequiredSmoke`, with `eip2565` the precompile's flag; `none` is a panic.  Big
integers are `Nat`, `BitLen` is `Nat.size`, and `Uint64` keeps the low 64 bits. -/
def requiredSmoke (eip2565 : Bool) (input : List UInt8) : Option UInt64 := do
  let baseLen := BigEndian.ofBytes (← getData input 0 32)
  let expLen := BigEndian.ofBytes (← getData input 32 32)
  let modLen := BigEndian.ofBytes (← getData input 64 32)
  let input := if input.length > 96 then input.drop 96 else []
  let expHead ← readExpHead input baseLen expLen
  let msb := if expHead.size > 0 then expHead.size - 1 else 0
  let adjExpLen := (if expLen > 32 then 8 * (expLen - 32) else 0) + msb
  let smoke := max modLen baseLen
  if eip2565 then
    -- EIP-2565: the complexity `ceiling(x / 8) ^ 2`, the divisor 3, and a minimum of 200
    let smoke := (smoke + 7) / 8
    let smoke := smoke * smoke * max adjExpLen 1 / 3
    if smoke.size > 64 then pure maxUint64
    else if smoke.toUInt64 < 200 then pure 200
    else pure smoke.toUInt64
  else
    let smoke := modexpMultComplexity smoke * max adjExpLen 1 / 20
    if smoke.size > 64 then pure maxUint64
    else pure smoke.toUInt64

/-! ### The price the EIPs state -/

/-- `mult_complexity` of EIP-198, over the integers. -/
def multComplexity (x : Int) : Int :=
  if x ≤ 64 then x ^ 2
  else if x ≤ 1024 then x ^ 2 / 4 + 96 * x - 3072
  else x ^ 2 / 16 + 480 * x - 199680

/-- Byte `i` of the input, zero beyond its end. -/
def inputByte (input : List UInt8) (i : Nat) : UInt8 := input.getD i 0

/-- The 32-byte big-endian word at byte `start` of the input. -/
def inputWord (input : List UInt8) (start : Nat) : Nat :=
  BigEndian.ofBytes ((List.range 32).map fun j => inputByte input (start + j))

/-- The adjusted exponent length of EIP-198: `8 * (expLen - 32)` for an exponent longer than 32
bytes, plus the index of the highest bit of its first (at most) 32 bytes, zero for a zero head. -/
def adjustedExpLen (input : List UInt8) : Nat :=
  let baseLen := inputWord input 0
  let expLen := inputWord input 32
  let head := BigEndian.ofBytes ((List.range (min expLen 32)).map fun j => inputByte input (96 + baseLen + j))
  (if expLen > 32 then 8 * (expLen - 32) else 0) + head.log2

/-- The price of EIP-198, or of EIP-2565 when `eip2565` holds, before any cap. -/
def modexpPrice (eip2565 : Bool) (input : List UInt8) : Nat :=
  let x := max (inputWord input 0) (inputWord input 64)
  let e := max (adjustedExpLen input) 1
  if eip2565 then max 200 (((x + 7) / 8) ^ 2 * e / 3)
  else (multComplexity x).toNat * e / 20

/-! ### `getData` -/

/-- A window of `n` bytes from `s`, clamped to the data and padded, is the bytes from `s` on, zeros
past the end. -/
theorem window_eq (data : List UInt8) (s n : Nat) :
    rightPadBytes ((data.take (min (s + n) data.length)).drop s) n =
      (List.range n).map fun j => data.getD (s + j) 0 := by
  have hlen : ((data.take (min (s + n) data.length)).drop s).length = min (s + n) data.length - s := by simp
  apply List.ext_getElem?
  intro j
  unfold rightPadBytes
  by_cases hj : j < n
  · rw [List.getElem?_map, List.getElem?_range hj, Option.map_some, List.getD_eq_getElem?_getD]
    by_cases hin : s + j < data.length
    · -- a byte of the window
      have hslice : ((data.take (min (s + n) data.length)).drop s)[j]? = some data[s + j] := by
        rw [List.getElem?_drop, List.getElem?_take, if_pos (by omega), List.getElem?_eq_getElem hin]
      rw [List.getElem?_eq_getElem hin, Option.getD_some]
      split_ifs
      · exact hslice
      · rw [List.getElem?_append_left (by omega), hslice]
    · -- past the data: a padding zero
      rw [List.getElem?_eq_none (l := data) (by omega), Option.getD_none, if_neg (by omega),
        List.getElem?_append_right (by omega), List.getElem?_replicate, if_pos (by simp; omega)]
  · rw [List.getElem?_eq_none (l := List.map _ _) (by simp; omega)]
    split_ifs with h
    · exact List.getElem?_eq_none (by omega)
    · exact List.getElem?_eq_none (by simp; omega)

/-- `getData` of a window whose end fits a `uint64` does not panic, and reads the window byte by byte,
zeros beyond the data. -/
theorem getData_eq (data : List UInt8) {start size : UInt64} (h : start.toNat + size.toNat < 2 ^ 64)
    (hsize : size.toNat < 2 ^ 63) :
    getData data start size = some ((List.range size.toNat).map fun j => data.getD (start.toNat + j) 0) := by
  unfold getData
  have hs : min start.toNat data.length + size.toNat < 2 ^ 64 := by omega
  simp only [Nat.mod_eq_of_lt hs, if_pos hsize]
  rw [if_neg (by omega), window_eq]
  -- a start past the data reads zeros from the data's end just as well
  congr 1
  apply List.map_congr_left
  intro j _
  by_cases hst : start.toNat ≤ data.length
  · rw [Nat.min_eq_left hst]
  · rw [Nat.min_eq_right (by omega), List.getD_eq_getElem?_getD, List.getD_eq_getElem?_getD,
      List.getElem?_eq_none (by omega), List.getElem?_eq_none (by omega)]

/-! ### The exponent head and its highest bit -/

theorem ofBytes_map_zero {n : Nat} {f : Nat → UInt8} (h : ∀ j < n, f j = 0) :
    BigEndian.ofBytes ((List.range n).map f) = 0 := by
  rw [List.map_congr_left (fun j hj => h j (List.mem_range.1 hj)), List.map_const', List.length_range,
    BigEndian.ofBytes_replicate_zero]

theorem toNat_toUInt64 {n : Nat} (h : n < 2 ^ 64) : n.toUInt64.toNat = n := by
  simp only [Nat.toUInt64, UInt64.toNat_ofNat']
  exact Nat.mod_eq_of_lt h

/-- The head of the exponent `RequiredSmoke` reads is the EIPs': its first (at most) 32 bytes after
the base, zeros beyond the input. -/
theorem expHead_eq (input : List UInt8) (hlen : input.length < 2 ^ 64) (baseLen expLen : Nat) :
    readExpHead (if input.length > 96 then input.drop 96 else []) baseLen expLen =
    some (BigEndian.ofBytes ((List.range (min expLen 32)).map fun j => inputByte input (96 + baseLen + j))) := by
  have hrest : (if input.length > 96 then input.drop 96 else []) = input.drop 96 := by
    split_ifs with h
    · rfl
    · rw [List.drop_eq_nil_of_le (by omega)]
  have hget : ∀ k, (input.drop 96).getD (baseLen + k) 0 = inputByte input (96 + baseLen + k) := fun k => by
    simp only [inputByte, List.getD_eq_getElem?_getD, List.getElem?_drop]
    congr 2
    omega
  rw [hrest, readExpHead]
  split_ifs with hshort hexp
  · -- the exponent starts past the input: its head is zero
    rw [ofBytes_map_zero]
    · rfl
    · intro j _
      simp only [inputByte, List.getD_eq_getElem?_getD]
      rw [List.length_drop] at hshort
      rw [List.getElem?_eq_none (by omega)]
      rfl
  · rw [List.length_drop] at hshort
    have hb := toNat_toUInt64 (show baseLen < 2 ^ 64 by omega)
    rw [getData_eq _ (by rw [hb]; simp; omega) (by simp), hb, Nat.min_eq_right (by omega)]
    simp only [Option.map_eq_map, Option.map_some, UInt64.reduceToNat, hget]
  · rw [List.length_drop] at hshort
    have hb := toNat_toUInt64 (show baseLen < 2 ^ 64 by omega)
    have he := toNat_toUInt64 (show expLen < 2 ^ 64 by omega)
    rw [getData_eq _ (by rw [hb, he]; omega) (by rw [he]; omega), hb, he, Nat.min_eq_left (by omega)]
    simp only [Option.map_eq_map, Option.map_some, hget]

/-- `BitLen - 1`, or zero for zero, is the index of the highest bit. -/
theorem size_sub_one (n : Nat) : (if n.size > 0 then n.size - 1 else 0) = n.log2 := by
  by_cases hn : n = 0
  · subst hn
    rfl
  · have hsize : n.size = n.log2 + 1 := by
      apply le_antisymm
      · rw [Nat.size_le]
        exact Nat.lt_log2_self
      · rw [Nat.succ_le_iff, Nat.lt_size]
        exact Nat.log2_self_le hn
    rw [hsize, if_pos (by omega), Nat.add_sub_cancel]

/-- The code's complexity is EIP-198's. -/
theorem modexpMultComplexity_eq (x : Nat) : modexpMultComplexity x = (multComplexity x).toNat := by
  have hsq : (x : Int) ^ 2 = ((x * x : Nat) : Int) := by push_cast; ring
  unfold modexpMultComplexity multComplexity
  rw [hsq]
  -- with `x * x` an atom the three branches are linear
  split_ifs <;> omega

/-! ### `RequiredSmoke` against the price -/

/-- The 64-bit result saturates exactly where the price stops fitting. -/
theorem saturate (F : Nat) :
    (if F.size > 64 then (pure maxUint64 : Option UInt64) else pure F.toUInt64) =
      some (min (2 ^ 64 - 1) F).toUInt64 := by
  by_cases hF : F < 2 ^ 64
  · rw [if_neg (by rw [not_lt]; exact Nat.size_le.2 hF), Nat.min_eq_right (by omega)]
    rfl
  · rw [if_pos (by rw [gt_iff_lt, ← not_le, Nat.size_le]; exact hF), Nat.min_eq_left (by omega)]
    rfl

/-- Under EIP-2565 the price is at least 200. -/
theorem saturate_min (F : Nat) :
    (if F.size > 64 then (pure maxUint64 : Option UInt64) else if F.toUInt64 < 200 then pure 200
      else pure F.toUInt64) = some (min (2 ^ 64 - 1) (max 200 F)).toUInt64 := by
  by_cases hF : F < 2 ^ 64
  · rw [if_neg (by rw [not_lt]; exact Nat.size_le.2 hF)]
    have hlt : F.toUInt64 < 200 ↔ F < 200 := by
      rw [UInt64.lt_iff_toNat_lt, toNat_toUInt64 hF]
      simp
    by_cases h200 : F < 200
    · rw [if_pos (hlt.2 h200), Nat.max_eq_left (by omega), Nat.min_eq_right (by omega)]
      rfl
    · rw [if_neg (mt hlt.1 h200), Nat.max_eq_right (by omega), Nat.min_eq_right (by omega)]
      rfl
  · rw [if_pos (by rw [gt_iff_lt, ← not_le, Nat.size_le]; exact hF), Nat.min_eq_left (by omega)]
    rfl

/-- `RequiredSmoke` returns the price of EIP-198, or of EIP-2565, capped at `2 ^ 64 - 1`, for every
input Go can hold (its length is an `int`), whatever its length words say. -/
theorem requiredSmoke_eq_price (eip2565 : Bool) (input : List UInt8) (hlen : input.length < 2 ^ 64) :
    requiredSmoke eip2565 input = some (min (2 ^ 64 - 1) (modexpPrice eip2565 input)).toUInt64 := by
  have h0 : BigEndian.ofBytes ((List.range (UInt64.toNat 32)).map fun j => input.getD (UInt64.toNat 0 + j) 0) =
      inputWord input 0 := rfl
  have h32 : BigEndian.ofBytes ((List.range (UInt64.toNat 32)).map fun j => input.getD (UInt64.toNat 32 + j) 0) =
      inputWord input 32 := rfl
  have h64 : BigEndian.ofBytes ((List.range (UInt64.toNat 32)).map fun j => input.getD (UInt64.toNat 64 + j) 0) =
      inputWord input 64 := rfl
  unfold requiredSmoke
  rw [getData_eq input (by simp) (by simp), getData_eq input (by simp) (by simp), getData_eq input (by simp) (by simp)]
  simp only [Option.bind_eq_bind, Option.bind_some]
  rw [h0, h32, h64, expHead_eq input hlen, Option.bind_some, size_sub_one, max_comm (inputWord input 64)]
  unfold modexpPrice
  -- what is left is the pricing of the two EIPs, with `x * x` for the square
  change _ = some (min (2 ^ 64 - 1) (if eip2565 then max 200 (((max (inputWord input 0) (inputWord input 64) + 7) / 8) ^ 2 *
    max (adjustedExpLen input) 1 / 3) else (multComplexity (max (inputWord input 0) (inputWord input 64) : Nat)).toNat *
    max (adjustedExpLen input) 1 / 20)).toUInt64
  cases eip2565
  · rw [if_neg Bool.false_ne_true, if_neg Bool.false_ne_true, ← modexpMultComplexity_eq]
    exact saturate _
  · rw [if_pos rfl, if_pos rfl, pow_two]
    exact saturate_min _

theorem requiredSmoke_eq_price_threeByte :
    requiredSmoke true (List.replicate 31 0 ++ [1] ++ List.replicate 31 0 ++ [1] ++ List.replicate 31 0 ++ [1] ++
      [3, 5, 7]) =
    some (min (2 ^ 64 - 1) (modexpPrice true (List.replicate 31 0 ++ [1] ++ List.replicate 31 0 ++ [1] ++
      List.replicate 31 0 ++ [1] ++ [3, 5, 7]))).toUInt64 :=
  requiredSmoke_eq_price true _ (by simp)

/-- `3 ^ 5 mod 7` with one-byte operands costs nothing before EIP-2565. -/
example : requiredSmoke false (List.replicate 31 0 ++ [1] ++ List.replicate 31 0 ++ [1] ++ List.replicate 31 0 ++ [1] ++
    [3, 5, 7]) = some 0 := by decide

end Go420coin.Vm
