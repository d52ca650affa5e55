import Go420coin.Common.Bitutil

/-!
# Bytewise operations (`common/bitutil/bitutil.go`)

`ANDBytes` and `ORBytes` combine two byte strings below the shorter length into a destination,
which must be as long (Go panics otherwise), and `TestBytes` asks for a non-zero byte.  On the
architectures that allow unaligned access they run word by word; a bitwise operation on a word is
the same operation on its bytes, so they are modelled by their portable loops (`safeANDBytes`,
`safeORBytes`, `safeTestBytes`).  `copy` is Go's builtin on byte slices.

In place, on strings of one length, an operation combines the bytes pairwise (`bytesOp_self`), so
it works bit by bit on the bitsets the strings hold (`bitAt_zipWith_and`, `bitAt_zipWith_or`), and
`TestBytes` finds a set bit (`testBytes_iff_bitAt`).
-/

namespace Go420coin.Bitutil

/-- The loop the portable `safeANDBytes` and `safeORBytes` share: `dst[i] =
op(a[i], b[i])` below the shorter of `a` and `b`, and the number of bytes written; `none` where
`dst` is shorter, where Go panics. -/
def bytesOp (op : UInt8 → UInt8 → UInt8) (dst a b : List UInt8) : Option (List UInt8 × Nat) :=
  let n := min a.length b.length
  if n ≤ dst.length then some ((List.range n).foldl (fun d i => d.set i (op (a.getD i 0) (b.getD i 0))) dst, n)
  else none

/-- `ANDBytes`. -/
def andBytes (dst a b : List UInt8) : Option (List UInt8 × Nat) := bytesOp (· &&& ·) dst a b

/-- `ORBytes`. -/
def orBytes (dst a b : List UInt8) : Option (List UInt8 × Nat) := bytesOp (· ||| ·) dst a b

/-- `ANDBytes(dst, dst, b)` and the like, the calls in place of the matcher: the destination is the
first operand, so the call never panics (`bytesOp_inPlace`). -/
def inPlace (op : UInt8 → UInt8 → UInt8) (dst b : List UInt8) : List UInt8 :=
  (List.range (min dst.length b.length)).foldl (fun d i => d.set i (op (dst.getD i 0) (b.getD i 0))) dst

/-- `TestBytes`. -/
def testBytes (p : List UInt8) : Bool := p.any (· != 0)

/-- Go's `copy(dst, src)` on byte slices: the first bytes of `src`, as many as fit, over `dst`. -/
def copyBytes (dst src : List UInt8) : List UInt8 := src.take dst.length ++ dst.drop src.length

/-! ### The loop -/

private theorem foldl_set_range (op : UInt8 → UInt8 → UInt8) (a b : List UInt8) :
    ∀ k, k ≤ min a.length b.length →
      (List.range k).foldl (fun d i => d.set i (op (a.getD i 0) (b.getD i 0))) a =
        (List.zipWith op a b).take k ++ a.drop k := by
  intro k
  induction k with
  | zero => intro _; simp
  | succ k ih =>
    intro hk
    rw [List.range_succ, List.foldl_append, ih (by omega), List.foldl_cons, List.foldl_nil]
    have hka : k < a.length := by omega
    have hkb : k < b.length := by omega
    -- the write at `k` turns the first byte of the untouched part into the combined byte
    have hzk : ((List.zipWith op a b).take k).length = k := by
      rw [List.length_take, List.length_zipWith]
      omega
    rw [List.drop_eq_getElem_cons hka, List.set_append, if_neg (by omega), hzk, Nat.sub_self, List.set_cons_zero,
      List.take_add_one, List.getElem?_zipWith, List.getElem?_eq_getElem hka, List.getElem?_eq_getElem hkb,
      List.getD_eq_getElem _ _ hka, List.getD_eq_getElem _ _ hkb]
    simp

/-- In place on strings of one length, each operation combines the bytes pairwise. -/
theorem bytesOp_self (op : UInt8 → UInt8 → UInt8) {a b : List UInt8} (hlen : a.length = b.length) :
    bytesOp op a a b = some (List.zipWith op a b, a.length) := by
  unfold bytesOp
  have hmin : min a.length b.length = a.length := by rw [hlen, Nat.min_self]
  rw [hmin, if_pos (Nat.le_refl _), foldl_set_range op a b _ (by rw [hmin]), List.drop_length, List.append_nil,
    List.take_of_length_le (by rw [List.length_zipWith, hlen, Nat.min_self])]

theorem bytesOp_inPlace (op : UInt8 → UInt8 → UInt8) (dst b : List UInt8) :
    bytesOp op dst dst b = some (inPlace op dst b, min dst.length b.length) := by
  unfold bytesOp inPlace
  rw [if_pos (Nat.min_le_left _ _)]

theorem inPlace_of_length (op : UInt8 → UInt8 → UInt8) {a b : List UInt8} (hlen : a.length = b.length) :
    inPlace op a b = List.zipWith op a b := by
  have h := (bytesOp_inPlace op a b).symm.trans (bytesOp_self op hlen)
  exact (Prod.mk.inj (Option.some.inj h)).1

theorem length_zipWith_self (op : UInt8 → UInt8 → UInt8) {a b : List UInt8} (hlen : a.length = b.length) :
    (List.zipWith op a b).length = a.length := by
  rw [List.length_zipWith, hlen, Nat.min_self]

/-! ### Bits -/

theorem bitAt_zipWith_and {a b : List UInt8} (hlen : a.length = b.length) (j : Nat) :
    bitAt (List.zipWith (· &&& ·) a b) j = (bitAt a j && bitAt b j) := by
  unfold bitAt
  rw [List.getD_eq_getElem?_getD, List.getD_eq_getElem?_getD, List.getD_eq_getElem?_getD,
    List.getElem?_zipWith]
  by_cases hj : j / 8 < a.length
  · rw [List.getElem?_eq_getElem hj, List.getElem?_eq_getElem (hlen ▸ hj)]
    simp [UInt8.toNat_and, Nat.testBit_and]
  · rw [List.getElem?_eq_none (by omega), List.getElem?_eq_none (by omega)]
    simp

theorem bitAt_zipWith_or {a b : List UInt8} (hlen : a.length = b.length) (j : Nat) :
    bitAt (List.zipWith (· ||| ·) a b) j = (bitAt a j || bitAt b j) := by
  unfold bitAt
  rw [List.getD_eq_getElem?_getD, List.getD_eq_getElem?_getD, List.getD_eq_getElem?_getD,
    List.getElem?_zipWith]
  by_cases hj : j / 8 < a.length
  · rw [List.getElem?_eq_getElem hj, List.getElem?_eq_getElem (hlen ▸ hj)]
    simp [UInt8.toNat_or, Nat.testBit_or]
  · rw [List.getElem?_eq_none (by omega), List.getElem?_eq_none (by omega)]
    simp

/-- A vector of `0xff` bytes has every bit of its length set. -/
theorem bitAt_replicate_ff (n j : Nat) : bitAt (List.replicate n 0xff) j = decide (j < 8 * n) := by
  unfold bitAt
  rw [List.getD_eq_getElem?_getD, List.getElem?_replicate]
  split_ifs with h
  · rw [Option.getD_some, show (0xff : UInt8).toNat = 2 ^ 8 - 1 from rfl, Nat.testBit_two_pow_sub_one]
    simp only [decide_eq_decide]
    omega
  · rw [Option.getD_none, UInt8.toNat_zero, Nat.zero_testBit]
    simp only [false_eq_decide_iff]
    omega

/-- `TestBytes` finds a set bit. -/
theorem testBytes_iff_bitAt (p : List UInt8) : testBytes p = true ↔ ∃ j, bitAt p j = true := by
  unfold testBytes
  rw [List.any_eq_true]
  constructor
  · rintro ⟨x, hx, hne⟩
    by_contra hno
    have hzero := eq_zero_of_bitAt (fun j => by simpa using (not_exists.1 hno) j) x hx
    simp [hzero] at hne
  · rintro ⟨j, hj⟩
    obtain ⟨x, hx, hne⟩ := exists_ne_zero_of_bitAt hj
    exact ⟨x, hx, by simpa using hne⟩

theorem length_copyBytes (dst src : List UInt8) : (copyBytes dst src).length = dst.length := by
  unfold copyBytes
  simp only [List.length_append, List.length_take, List.length_drop]
  omega

/-- Copying a string of the destination's length is the string. -/
theorem copyBytes_of_length {dst src : List UInt8} (h : src.length = dst.length) : copyBytes dst src = src := by
  unfold copyBytes
  rw [List.take_of_length_le (by omega), List.drop_eq_nil_of_le (by omega), List.append_nil]

end Go420coin.Bitutil
