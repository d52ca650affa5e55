import Mathlib.Data.Nat.Digits.Lemmas
import Go420coin.Lib.KeyOrder

/-!
# Big-endian byte strings

A byte string read most significant byte first denotes a natural number (`ofBytes`), and every number
has a shortest such string (`toBytes`, empty for zero).  The two are inverse on strings without a
leading zero byte; a string of length `k` denotes a number below `256 ^ k`, and `toBytes n` fits in
`k` bytes exactly when `n < 256 ^ k`.  `toBytes` is read through Mathlib's `Nat.digits` in base 256.
-/

namespace BigEndian

/-- The number denoted by a big-endian byte string. -/
def ofBytes (bs : List UInt8) : Nat := bs.foldl (fun acc b => acc * 256 + b.toNat) 0

/-- The shortest big-endian byte string denoting `n`. -/
def toBytes (n : Nat) : List UInt8 := ((Nat.digits 256 n).map Nat.toUInt8).reverse

private theorem foldl_acc (bs : List UInt8) (a : Nat) :
    bs.foldl (fun acc b => acc * 256 + b.toNat) a = a * 256 ^ bs.length + ofBytes bs := by
  induction bs generalizing a with
  | nil => simp [ofBytes]
  | cons b bs ih =>
    simp only [List.foldl_cons, ofBytes, List.length_cons]
    rw [ih, ih (0 * 256 + b.toNat)]
    ring

@[simp] theorem ofBytes_nil : ofBytes [] = 0 := rfl

theorem ofBytes_cons (b : UInt8) (bs : List UInt8) :
    ofBytes (b :: bs) = b.toNat * 256 ^ bs.length + ofBytes bs := by
  simp only [ofBytes, List.foldl_cons]
  rw [foldl_acc]
  simp [ofBytes]

theorem ofBytes_append (as bs : List UInt8) :
    ofBytes (as ++ bs) = ofBytes as * 256 ^ bs.length + ofBytes bs := by
  simp only [ofBytes, List.foldl_append]
  exact foldl_acc bs _

/-- Leading zero bytes add nothing. -/
@[simp] theorem ofBytes_replicate_zero (k : Nat) : ofBytes (List.replicate k 0) = 0 := by
  induction k with
  | zero => rfl
  | succ k ih => rw [List.replicate_succ, ofBytes_cons, ih]; simp

theorem ofBytes_lt (bs : List UInt8) : ofBytes bs < 256 ^ bs.length := by
  induction bs with
  | nil => simp
  | cons b bs ih =>
    rw [ofBytes_cons, List.length_cons, pow_succ]
    have hb : b.toNat < 256 := b.toNat_lt
    nlinarith

/-- `ofBytes` is `Nat.ofDigits` on the reversed string. -/
theorem ofBytes_eq_ofDigits (bs : List UInt8) :
    ofBytes bs = Nat.ofDigits 256 (bs.reverse.map UInt8.toNat) := by
  induction bs using List.reverseRecOn with
  | nil => rfl
  | append_singleton bs b ih =>
    rw [ofBytes_append, ih]
    simp [Nat.ofDigits_cons, ofBytes_cons]
    ring

@[simp] theorem ofBytes_toBytes (n : Nat) : ofBytes (toBytes n) = n := by
  rw [ofBytes_eq_ofDigits, toBytes, List.reverse_reverse, List.map_map]
  have : ∀ d ∈ Nat.digits 256 n, (UInt8.toNat ∘ Nat.toUInt8) d = d := by
    intro d hd
    have := Nat.digits_lt_base (by norm_num) hd
    simp only [Function.comp, Nat.toUInt8, UInt8.toNat_ofNat']
    omega
  rw [List.map_congr_left this, List.map_id', Nat.ofDigits_digits]

@[simp] theorem toBytes_eq_nil {n : Nat} : toBytes n = [] ↔ n = 0 := by
  simp [toBytes, Nat.digits_eq_nil_iff_eq_zero]

@[simp] theorem toBytes_zero : toBytes 0 = [] := toBytes_eq_nil.2 rfl

theorem length_toBytes_div {n : Nat} (hn : n ≠ 0) :
    (toBytes n).length = (toBytes (n / 256)).length + 1 := by
  simp [toBytes, Nat.digits_def' (b := 256) (by norm_num) (Nat.pos_of_ne_zero hn)]

theorem length_toBytes_le {n k : Nat} : (toBytes n).length ≤ k ↔ n < 256 ^ k := by
  simpa [toBytes] using Nat.digits_length_le_iff (b := 256) (by norm_num) n

/-- The shortest string of a positive number starts with a non-zero byte. -/
theorem head_toBytes_ne_zero {n : Nat} (hn : n ≠ 0) : (toBytes n).head? ≠ some 0 := by
  have hne := (Nat.digits_ne_nil_iff_ne_zero (b := 256)).mpr hn
  have hlast := Nat.getLast_digit_ne_zero 256 hn
  have hlt := Nat.digits_lt_base (b := 256) (by norm_num) (List.getLast_mem hne)
  rw [toBytes, List.head?_reverse, List.getLast?_map, List.getLast?_eq_some_getLast hne]
  simp only [Option.map_some, ne_eq, Option.some.injEq]
  intro h
  apply hlast
  have := congrArg UInt8.toNat h
  simp only [Nat.toUInt8, UInt8.toNat_ofNat'] at this
  simpa using (show (Nat.digits 256 n).getLast hne % 256 = (Nat.digits 256 n).getLast hne by omega) ▸ this

/-- A string without a leading zero byte is the shortest string of the number it denotes. -/
theorem toBytes_ofBytes {bs : List UInt8} (h : bs.head? ≠ some 0) : toBytes (ofBytes bs) = bs := by
  rw [ofBytes_eq_ofDigits, toBytes]
  have hlt : ∀ l ∈ bs.reverse.map UInt8.toNat, l < 256 := by
    intro l hl
    obtain ⟨b, -, rfl⟩ := List.mem_map.1 hl
    exact b.toNat_lt
  have hlast : ∀ h' : bs.reverse.map UInt8.toNat ≠ [], (bs.reverse.map UInt8.toNat).getLast h' ≠ 0 := by
    intro h'
    cases bs with
    | nil => simp at h'
    | cons b bs =>
      simp only [List.reverse_cons, List.map_append, List.map_cons, List.map_nil]
      intro hb
      apply h
      simp only [List.head?_cons, Option.some.injEq]
      exact UInt8.toNat_inj.1 (by simpa using hb)
  rw [Nat.digits_ofDigits 256 (by norm_num) _ hlt hlast, List.map_map]
  have : ∀ b ∈ bs.reverse, (Nat.toUInt8 ∘ UInt8.toNat) b = b := fun b _ => by
    simp [Nat.toUInt8]
  rw [List.map_congr_left this, List.map_id', List.reverse_reverse]

/-- The shortest bytes of a number below 256 other than zero: the number's byte. -/
theorem toBytes_of_lt_256 {n : Nat} (h0 : n ≠ 0) (h : n < 256) : toBytes n = [n.toUInt8] := by
  have hne : [n.toUInt8].head? ≠ some 0 := by
    simp only [List.head?_cons, ne_eq, Option.some.injEq]
    intro hz
    have := congrArg UInt8.toNat hz
    simp [Nat.toUInt8] at this
    omega
  have hv : ofBytes [n.toUInt8] = n := by simp [ofBytes_cons, Nat.toUInt8]; omega
  rw [← toBytes_ofBytes hne, hv]

/-- A smaller leading byte outweighs all that follows it. -/
theorem ofBytes_cons_lt_of_lt {a b : UInt8} {as bs : List UInt8} (h : as.length = bs.length) (hab : a < b) :
    ofBytes (a :: as) < ofBytes (b :: bs) := by
  rw [ofBytes_cons, ofBytes_cons, h]
  have ha := ofBytes_lt as
  rw [h] at ha
  have hmul : (a.toNat + 1) * 256 ^ bs.length ≤ b.toNat * 256 ^ bs.length :=
    Nat.mul_le_mul_right _ (UInt8.lt_iff_toNat_lt.1 hab)
  rw [Nat.add_mul, Nat.one_mul] at hmul
  omega

/-- Strings of one length compare as their first bytes do, and as what follows when these agree. -/
theorem ofBytes_cons_lt_iff {a b : UInt8} {as bs : List UInt8} (h : as.length = bs.length) :
    ofBytes (a :: as) < ofBytes (b :: bs) ↔ a < b ∨ (a = b ∧ ofBytes as < ofBytes bs) := by
  constructor
  · intro hlt
    rcases lt_trichotomy a.toNat b.toNat with hab | hab | hab
    · exact .inl (UInt8.lt_iff_toNat_lt.2 hab)
    · obtain rfl : a = b := UInt8.toNat_inj.1 hab
      rw [ofBytes_cons, ofBytes_cons, h] at hlt
      exact .inr ⟨rfl, by omega⟩
    · exact absurd hlt (Nat.lt_asymm (ofBytes_cons_lt_of_lt h.symm (UInt8.lt_iff_toNat_lt.2 hab)))
  · rintro (hab | ⟨rfl, hlt⟩)
    · exact ofBytes_cons_lt_of_lt h hab
    · rw [ofBytes_cons, ofBytes_cons, h]
      omega

/-- Strings of one length denote one number only if they are equal. -/
theorem ofBytes_inj_of_length_eq : ∀ {as bs : List UInt8}, as.length = bs.length → ofBytes as = ofBytes bs → as = bs
  | [], [], _, _ => rfl
  | a :: as, b :: bs, h, he => by
    have h' : as.length = bs.length := by simpa using h
    have hab : a = b := by
      rcases lt_trichotomy a.toNat b.toNat with hab | hab | hab
      · exact absurd he (Nat.ne_of_lt (ofBytes_cons_lt_of_lt h' (UInt8.lt_iff_toNat_lt.2 hab)))
      · exact UInt8.toNat_inj.1 hab
      · exact absurd he (Nat.ne_of_gt (ofBytes_cons_lt_of_lt h'.symm (UInt8.lt_iff_toNat_lt.2 hab)))
    subst hab
    rw [ofBytes_cons, ofBytes_cons, h'] at he
    rw [ofBytes_inj_of_length_eq h' (by omega)]

/-- Strings of one length part in the order of the numbers they denote. -/
theorem parts_of_ofBytes_lt : ∀ {as bs : List UInt8}, as.length = bs.length → ofBytes as < ofBytes bs →
    KeyOrder.Parts as bs
  | [], [], _, h => absurd h (Nat.lt_irrefl 0)
  | x :: as, y :: bs, hl, h => by
    have hl' : as.length = bs.length := by simpa using hl
    rw [ofBytes_cons, ofBytes_cons, hl'] at h
    have ha := ofBytes_lt as
    have hb := ofBytes_lt bs
    rw [hl'] at ha
    rcases Nat.lt_trichotomy x.toNat y.toNat with hxy | hxy | hxy
    · exact KeyOrder.parts_cons_cons.2 (.inl (UInt8.lt_iff_toNat_lt.2 hxy))
    · -- the first bytes agree: the rest decides
      obtain rfl : x = y := UInt8.toNat_inj.1 hxy
      exact KeyOrder.parts_cons_cons.2 (.inr ⟨rfl, parts_of_ofBytes_lt hl' (by omega)⟩)
    · -- a larger first byte outweighs all that follows
      have hmul : (y.toNat + 1) * 256 ^ bs.length ≤ x.toNat * 256 ^ bs.length := Nat.mul_le_mul_right _ hxy
      rw [Nat.add_mul, Nat.one_mul] at hmul
      omega

theorem exists_replicate_zero_append : ∀ bs : List UInt8,
    ∃ k rest, bs = List.replicate k 0 ++ rest ∧ rest.head? ≠ some 0
  | [] => ⟨0, [], rfl, by simp⟩
  | b :: bs => by
    by_cases hb : b = 0
    · obtain ⟨k, rest, h, hrest⟩ := exists_replicate_zero_append bs
      exact ⟨k + 1, rest, by rw [hb, h, List.replicate_succ, List.cons_append], hrest⟩
    · exact ⟨0, b :: bs, rfl, by simpa using hb⟩

/-- A string is its number's shortest string after its leading zeros. -/
theorem replicate_append_toBytes_ofBytes (bs : List UInt8) :
    List.replicate (bs.length - (toBytes (ofBytes bs)).length) 0 ++ toBytes (ofBytes bs) = bs := by
  obtain ⟨k, rest, rfl, hrest⟩ := exists_replicate_zero_append bs
  rw [ofBytes_append, ofBytes_replicate_zero, zero_mul, zero_add, toBytes_ofBytes hrest, List.length_append,
    List.length_replicate, Nat.add_sub_cancel]

/-! ### Bytes cut out with shifts -/

/-- The low `k` bytes of `n`, most significant first, each cut from `n` by a shift: the bytes a
program writes for an integer of known width. -/
def lowBytes : Nat → Nat → List UInt8
  | 0, _ => []
  | k + 1, n => (n >>> (8 * k)).toUInt8 :: lowBytes k n

@[simp] theorem length_lowBytes (k n : Nat) : (lowBytes k n).length = k := by
  induction k with
  | zero => rfl
  | succ k ih => simp [lowBytes, ih]

theorem shiftRight_eight_mul (n k : Nat) : n >>> (8 * k) = n / 256 ^ k := by
  rw [Nat.shiftRight_eq_div_pow, pow_mul]
  norm_num

theorem ofBytes_lowBytes (k n : Nat) : ofBytes (lowBytes k n) = n % 256 ^ k := by
  induction k with
  | zero => simp [lowBytes, Nat.mod_one]
  | succ k ih =>
    -- the byte in front is the digit of `256 ^ k`
    rw [lowBytes, ofBytes_cons, length_lowBytes, ih, shiftRight_eight_mul, pow_succ, Nat.mod_mul]
    simp only [Nat.toUInt8, UInt8.toNat_ofNat']
    ring

theorem head_lowBytes_ne_zero {k n : Nat} (hlo : 256 ^ k ≤ n) (hhi : n < 256 ^ (k + 1)) :
    (lowBytes (k + 1) n).head? ≠ some 0 := by
  have h1 : 1 ≤ n / 256 ^ k := (Nat.le_div_iff_mul_le (by positivity)).2 (by simpa using hlo)
  have h2 : n / 256 ^ k < 256 := Nat.div_lt_of_lt_mul (by rwa [pow_succ] at hhi)
  simp only [lowBytes, List.head?_cons, ne_eq, Option.some.injEq]
  intro hz
  have := congrArg UInt8.toNat hz
  simp only [Nat.toUInt8, UInt8.toNat_ofNat', UInt8.toNat_zero, shiftRight_eight_mul] at this
  omega

/-- From `256 ^ k` on and below `256 ^ (k + 1)`, the low `k + 1` bytes are the shortest string. -/
theorem lowBytes_eq_toBytes {k n : Nat} (hlo : 256 ^ k ≤ n) (hhi : n < 256 ^ (k + 1)) :
    lowBytes (k + 1) n = toBytes n := by
  rw [← toBytes_ofBytes (head_lowBytes_ne_zero hlo hhi), ofBytes_lowBytes, Nat.mod_eq_of_lt hhi]

end BigEndian
