import Mathlib.Data.Nat.Bitwise

/-!
# Bits of a byte array, most significant bit first

A scan over a byte string can mark position `i` in bit `7 - i % 8` of byte `i / 8` of an array of
bytes.  Or-ing a mask into one byte sets the mask's bits there and leaves every other bit
(`testBit_modify_or`).  Three masks mark runs of positions inside one byte: one bit
(`0x80 >>> k`), the bits from `k` on (`0xFF >>> k`) and the bits before `k` (`~~~(0xFF >>> k)`);
and and-ing with the one-bit mask reads a bit back.
-/

namespace BitArray

/-- Bit `i`, counted from the most significant bit of byte `i / 8`; unset past the end. -/
def testBit (bits : Array UInt8) (i : Nat) : Bool := (bits.getD (i / 8) 0).toNat.testBit (7 - i % 8)

/-- No bit of a zeroed array is set. -/
@[simp] theorem testBit_replicate_zero (n i : Nat) : testBit (Array.replicate n 0) i = false := by
  unfold testBit
  rw [Array.getD_eq_getD_getElem?, Array.getElem?_replicate]
  split <;> simp

/-- Or-ing `m` into byte `j` sets the bits of `m` at that byte, if it exists. -/
theorem testBit_modify_or (bits : Array UInt8) (j : Nat) (m : UInt8) (i : Nat) :
    testBit (bits.modify j (· ||| m)) i =
      (testBit bits i || (decide (i / 8 = j ∧ j < bits.size) && m.toNat.testBit (7 - i % 8))) := by
  unfold testBit
  rw [Array.getD_eq_getD_getElem?, Array.getD_eq_getD_getElem?, Array.getElem?_modify]
  by_cases hj : j = i / 8
  · subst hj
    rw [if_pos rfl]
    by_cases hlt : i / 8 < bits.size
    · rw [Array.getElem?_eq_getElem hlt]
      simp [UInt8.toNat_or, Nat.testBit_or, hlt]
    · rw [Array.getElem?_eq_none (Nat.le_of_not_lt hlt)]
      simp [hlt]
  · rw [if_neg hj]
    simp [Ne.symm hj]

/-- The one-bit mask marks position `k` of its byte. -/
theorem testBit_oneBit {k r : Nat} (hk : k < 8) (hr : r < 8) :
    ((0x80 : UInt8) >>> k.toUInt8).toNat.testBit (7 - r) = decide (r = k) := by
  have key : ∀ k r : Fin 8, ((0x80 : UInt8) >>> k.val.toUInt8).toNat.testBit (7 - r.val) =
      decide (r.val = k.val) := by decide
  exact key ⟨k, hk⟩ ⟨r, hr⟩

/-- The mask `0xFF >>> k` marks the positions of its byte from `k` on. -/
theorem testBit_fromBit {k r : Nat} (hk : k < 8) (hr : r < 8) :
    ((0xFF : UInt8) >>> k.toUInt8).toNat.testBit (7 - r) = decide (k ≤ r) := by
  have key : ∀ k r : Fin 8, ((0xFF : UInt8) >>> k.val.toUInt8).toNat.testBit (7 - r.val) =
      decide (k.val ≤ r.val) := by decide
  exact key ⟨k, hk⟩ ⟨r, hr⟩

/-- The mask `~~~(0xFF >>> k)` marks the positions of its byte before `k`. -/
theorem testBit_beforeBit {k r : Nat} (hk : k < 8) (hr : r < 8) :
    (~~~((0xFF : UInt8) >>> k.toUInt8)).toNat.testBit (7 - r) = decide (r < k) := by
  have key : ∀ k r : Fin 8, (~~~((0xFF : UInt8) >>> k.val.toUInt8)).toNat.testBit (7 - r.val) =
      decide (r.val < k.val) := by decide
  exact key ⟨k, hk⟩ ⟨r, hr⟩

/-- And-ing with the one-bit mask reads position `k` of a byte. -/
theorem and_oneBit_eq_zero (b : UInt8) {k : Nat} (hk : k < 8) :
    ((b &&& ((0x80 : UInt8) >>> k.toUInt8)) == 0) = !b.toNat.testBit (7 - k) := by
  have hmask : ((0x80 : UInt8) >>> k.toUInt8).toNat = 2 ^ (7 - k) := by
    have key : ∀ k : Fin 8, ((0x80 : UInt8) >>> k.val.toUInt8).toNat = 2 ^ (7 - k.val) := by decide
    exact key ⟨k, hk⟩
  have hand : (b &&& ((0x80 : UInt8) >>> k.toUInt8)).toNat = (b.toNat.testBit (7 - k)).toNat * 2 ^ (7 - k) := by
    rw [UInt8.toNat_and, hmask, Nat.and_two_pow]
  cases hb : b.toNat.testBit (7 - k)
  · rw [hb, Bool.toNat_false, Nat.zero_mul] at hand
    simp [UInt8.toNat_inj.mp (hand.trans UInt8.toNat_zero.symm)]
  · rw [hb, Bool.toNat_true, Nat.one_mul] at hand
    have hne : b &&& ((0x80 : UInt8) >>> k.toUInt8) ≠ 0 := by
      intro h0
      rw [h0, UInt8.toNat_zero] at hand
      exact absurd hand.symm (Nat.pow_pos (by decide)).ne'
    simp [hne]

end BitArray
