import Mathlib.Data.List.Basic
import Mathlib.Tactic.Ring
import Mathlib.Tactic.Linarith

/-!
# Hex quantities (`common/hexutil`)

A quantity is written `0x` followed by its hex digits, without leading zeros.  `DecodeBig` and
`Big.UnmarshalText` read the digits from the right in chunks of `bigWordNibbles` nibbles, one
`big.Word` each (8 or 16 nibbles, by the platform), with a spare word; `DecodeUint64` hands the
digits to `strconv.ParseUint`, and `Uint64.UnmarshalText` runs its own loop.

Text is bytes here, as in Go.  Each decoder accepts exactly the quantities of at most 64 (or 16)
digits and reads their hex value (`decodeBig_toOption`, `decodeUint64_toOption`,
`unmarshalTextUint64_toOption`), for every chunk size; the two readers of each type agree on every
non-empty text; and each reads back what `EncodeBig` and `EncodeUint64` write.
-/

namespace Go420coin.Hexutil

/-- The errors of `hexutil` that the quantity decoders return. -/
inductive Error where
  | emptyString
  | invalidSyntax
  | missingPrefix
  | emptyNumber
  | leadingZero
  | uint64Range
  | big256Range
  deriving DecidableEq, Repr

/-! ### The code -/

/-- `has0xPrefix`. -/
def has0xPrefix : List UInt8 → Bool
  | a :: b :: _ => a == '0'.toUInt8 && (b == 'x'.toUInt8 || b == 'X'.toUInt8)
  | _ => false

/-- The checks `checkNumber` and `checkNumberText` make after the empty case: the prefix, an empty
number, and a leading zero. -/
def checkDigits (input : List UInt8) : Except Error (List UInt8) :=
  if !has0xPrefix input then .error .missingPrefix
  else
    let input := input.drop 2
    if input.length = 0 then .error .emptyNumber
    else if input.length > 1 ∧ input.head? = some '0'.toUInt8 then .error .leadingZero
    else .ok input

/-- `checkNumber`. -/
def checkNumber (input : List UInt8) : Except Error (List UInt8) :=
  if input.length = 0 then .error .emptyString else checkDigits input

/-- `checkNumberText`: the empty text is allowed. -/
def checkNumberText (input : List UInt8) : Except Error (List UInt8) :=
  if input.length = 0 then .ok [] else checkDigits input

/-- `badNibble`, `^uint64(0)`. -/
def badNibble : UInt64 := ~~~0

/-- `decodeNibble`. -/
def decodeNibble (c : UInt8) : UInt64 :=
  if c ≥ '0'.toUInt8 ∧ c ≤ '9'.toUInt8 then (c - '0'.toUInt8).toUInt64
  else if c ≥ 'A'.toUInt8 ∧ c ≤ 'F'.toUInt8 then (c - 'A'.toUInt8 + 10).toUInt64
  else if c ≥ 'a'.toUInt8 ∧ c ≤ 'f'.toUInt8 then (c - 'a'.toUInt8 + 10).toUInt64
  else badNibble

/-- The inner loop of `DecodeBig`: the nibbles of one chunk into a `big.Word` of `wordBits` bits,
`words[i] *= 16; words[i] += nib` wrapping as the word does. -/
def decodeWord (wordBits : Nat) : List UInt8 → Nat → Except Error Nat
  | [], word => .ok word
  | c :: cs, word =>
    let nib := decodeNibble c
    if nib = badNibble then .error .invalidSyntax
    else decodeWord wordBits cs ((word * 16 % 2 ^ wordBits + nib.toNat) % 2 ^ wordBits)

/-- The outer loop of `DecodeBig`: `k` more words, each from the `bigWordNibbles` nibbles before
`end`, the last chunk cut at the start of `raw`. -/
def decodeWords (bigWordNibbles : Nat) (raw : List UInt8) : Nat → Nat → Except Error (List Nat)
  | 0, _ => .ok []
  | k + 1, stop =>
    let start := stop - bigWordNibbles
    match decodeWord (4 * bigWordNibbles) ((raw.take stop).drop start) 0 with
    | .error e => .error e
    | .ok word =>
      match decodeWords bigWordNibbles raw k start with
      | .error e => .error e
      | .ok words => .ok (word :: words)

/-- `big.Int.SetBits`: the words, least significant first. -/
def setBits (wordBits : Nat) : List Nat → Nat
  | [] => 0
  | w :: ws => w + 2 ^ wordBits * setBits wordBits ws

/-- The body of `DecodeBig` and `Big.UnmarshalText` after the text is checked. -/
def decodeBigRaw (bigWordNibbles : Nat) (raw : List UInt8) : Except Error Nat :=
  if raw.length > 64 then .error .big256Range
  else
    match decodeWords bigWordNibbles raw (raw.length / bigWordNibbles + 1) raw.length with
    | .error e => .error e
    | .ok words => .ok (setBits (4 * bigWordNibbles) words)

/-- `DecodeBig`, on a platform whose `big.Word` holds `bigWordNibbles` nibbles. -/
def decodeBig (bigWordNibbles : Nat) (input : List UInt8) : Except Error Nat :=
  match checkNumber input with
  | .error e => .error e
  | .ok raw => decodeBigRaw bigWordNibbles raw

/-- `Big.UnmarshalText`. -/
def unmarshalTextBig (bigWordNibbles : Nat) (input : List UInt8) : Except Error Nat :=
  match checkNumberText input with
  | .error e => .error e
  | .ok raw => decodeBigRaw bigWordNibbles raw

/-- The lower-case hex digits of `n`, as `%x` and `strconv.AppendUint(_, n, 16)` write them. -/
def hexDigits (n : Nat) : List UInt8 := (Nat.toDigits 16 n).map Char.toUInt8

/-- `EncodeBig` of a non-negative number (`%#x`). -/
def encodeBig (x : Nat) : List UInt8 :=
  if x = 0 then ['0'.toUInt8, 'x'.toUInt8, '0'.toUInt8] else '0'.toUInt8 :: 'x'.toUInt8 :: hexDigits x

/-- `Big.MarshalText`. -/
def marshalTextBig (x : Nat) : List UInt8 := encodeBig x

/-- `EncodeUint64`. -/
def encodeUint64 (i : UInt64) : List UInt8 := '0'.toUInt8 :: 'x'.toUInt8 :: hexDigits i.toNat

/-- `Uint64.MarshalText`. -/
def marshalTextUint64 (i : UInt64) : List UInt8 := '0'.toUInt8 :: 'x'.toUInt8 :: hexDigits i.toNat

/-- The errors of `strconv.ParseUint`. -/
inductive NumError where
  | invalidSyntax
  | range
  deriving DecidableEq, Repr

/-- The digit value `strconv.ParseUint` gives a byte: `'0'`-`'9'`, then letters of either case from
`10` on (`36` for a byte that is neither). -/
def parseDigit (c : UInt8) : Nat :=
  if '0'.toUInt8 ≤ c ∧ c ≤ '9'.toUInt8 then (c - '0'.toUInt8).toNat
  else
    let lower := c ||| 0x20
    if 'a'.toUInt8 ≤ lower ∧ lower ≤ 'z'.toUInt8 then (lower - 'a'.toUInt8).toNat + 10 else 36

/-- The loop of `strconv.ParseUint(s, 16, 64)`: a byte that is not a digit below 16 is a syntax
error, and a value past `2^64 - 1` a range error, whichever comes first. -/
def parseUintLoop : List UInt8 → Nat → Except NumError Nat
  | [], n => .ok n
  | c :: cs, n =>
    let d := parseDigit c
    if d ≥ 16 then .error .invalidSyntax
    else if n ≥ (2 ^ 64 - 1) / 16 + 1 then .error .range
    else if n * 16 + d > 2 ^ 64 - 1 then .error .range
    else parseUintLoop cs (n * 16 + d)

/-- `strconv.ParseUint(s, 16, 64)`. -/
def parseUint (s : List UInt8) : Except NumError UInt64 :=
  if s = [] then .error .invalidSyntax
  else
    match parseUintLoop s 0 with
    | .error e => .error e
    | .ok n => .ok n.toUInt64

/-- `mapError` on the errors of `ParseUint`. -/
def mapError : NumError → Error
  | .range => .uint64Range
  | .invalidSyntax => .invalidSyntax

/-- `DecodeUint64`. -/
def decodeUint64 (input : List UInt8) : Except Error UInt64 :=
  match checkNumber input with
  | .error e => .error e
  | .ok raw =>
    match parseUint raw with
    | .error e => .error (mapError e)
    | .ok dec => .ok dec

/-- The loop of `Uint64.UnmarshalText`. -/
def unmarshalLoop : List UInt8 → UInt64 → Except Error UInt64
  | [], dec => .ok dec
  | c :: cs, dec =>
    let nib := decodeNibble c
    if nib = badNibble then .error .invalidSyntax else unmarshalLoop cs (dec * 16 + nib)

/-- `Uint64.UnmarshalText`. -/
def unmarshalTextUint64 (input : List UInt8) : Except Error UInt64 :=
  match checkNumberText input with
  | .error e => .error e
  | .ok raw => if raw.length > 16 then .error .uint64Range else unmarshalLoop raw 0

/-! ### Quantities -/

/-- A hex digit. -/
def isHexDigit (c : UInt8) : Bool :=
  ('0'.toUInt8 ≤ c && c ≤ '9'.toUInt8) || ('a'.toUInt8 ≤ c && c ≤ 'f'.toUInt8) ||
    ('A'.toUInt8 ≤ c && c ≤ 'F'.toUInt8)

/-- The value of a hex digit. -/
def hexDigitValue (c : UInt8) : Nat :=
  if c ≤ '9'.toUInt8 then c.toNat - '0'.toNat
  else if c ≤ 'F'.toUInt8 then c.toNat - 'A'.toNat + 10
  else c.toNat - 'a'.toNat + 10

/-- The value of a run of hex digits, most significant first, after `acc`. -/
def hexValueFrom (acc : Nat) (digits : List UInt8) : Nat :=
  digits.foldl (fun acc c => 16 * acc + hexDigitValue c) acc

/-- The value of a run of hex digits. -/
def hexValue (digits : List UInt8) : Nat := hexValueFrom 0 digits

/-- A quantity of at most `maxDigits` digits: `0x` or `0X`, then one to `maxDigits` hex digits,
the first not `0` unless it is the only one. -/
def isQuantity (maxDigits : Nat) : List UInt8 → Bool
  | z :: x :: digits =>
    z == '0'.toUInt8 && (x == 'x'.toUInt8 || x == 'X'.toUInt8) && 1 ≤ digits.length &&
      digits.length ≤ maxDigits && digits.all isHexDigit && !(1 < digits.length && digits.head? == some '0'.toUInt8)
  | _ => false

/-! ### Digits -/

/-- A fact about every byte, from its check on the 256 of them. -/
theorem byte_cases {P : UInt8 → Prop} (h : ∀ n : Fin 256, P (UInt8.ofNat n)) (c : UInt8) : P c := by
  have := h ⟨c.toNat, c.toNat_lt⟩
  simpa using this

theorem decodeNibble_eq (c : UInt8) :
    decodeNibble c = if isHexDigit c then (hexDigitValue c).toUInt64 else badNibble := by
  revert c
  apply byte_cases
  decide +kernel

theorem parseDigit_spec (c : UInt8) :
    (parseDigit c < 16 ↔ isHexDigit c = true) ∧ (isHexDigit c = true → parseDigit c = hexDigitValue c) := by
  revert c
  apply byte_cases
  decide +kernel

theorem hexDigitValue_spec (c : UInt8) :
    isHexDigit c = true → hexDigitValue c < 16 ∧ (c ≠ '0'.toUInt8 → 1 ≤ hexDigitValue c) := by
  revert c
  apply byte_cases
  decide +kernel

/-- The digit characters of `Nat.toDigits 16` are hex digits of their value, `'0'` only for zero. -/
theorem digitChar_spec (d : Nat) (hd : d < 16) :
    isHexDigit (Nat.digitChar d).toUInt8 = true ∧ hexDigitValue (Nat.digitChar d).toUInt8 = d ∧
      ((Nat.digitChar d).toUInt8 = '0'.toUInt8 ↔ d = 0) := by
  have key : ∀ d : Fin 16, isHexDigit (Nat.digitChar d).toUInt8 = true ∧
      hexDigitValue (Nat.digitChar d).toUInt8 = d ∧ ((Nat.digitChar d).toUInt8 = '0'.toUInt8 ↔ d.val = 0) := by
    decide
  exact key ⟨d, hd⟩

theorem decodeNibble_ne_bad_iff (c : UInt8) : decodeNibble c ≠ badNibble ↔ isHexDigit c = true := by
  rw [decodeNibble_eq]
  cases h : isHexDigit c
  · simp
  · have hlt := (hexDigitValue_spec c h).1
    simp only [if_true, ne_eq, iff_true]
    intro heq
    have := congrArg UInt64.toNat heq
    rw [Nat.toUInt64_eq, UInt64.toNat_ofNat', Nat.mod_eq_of_lt (by omega)] at this
    simp [badNibble] at this
    omega

theorem toNat_decodeNibble {c : UInt8} (h : isHexDigit c = true) : (decodeNibble c).toNat = hexDigitValue c := by
  have hlt := (hexDigitValue_spec c h).1
  rw [decodeNibble_eq, if_pos h, Nat.toUInt64_eq, UInt64.toNat_ofNat', Nat.mod_eq_of_lt (by omega)]

/-! ### Hex values -/

theorem hexValueFrom_append (a : Nat) (l₁ l₂ : List UInt8) :
    hexValueFrom a (l₁ ++ l₂) = hexValueFrom (hexValueFrom a l₁) l₂ := by
  rw [hexValueFrom, List.foldl_append]
  rfl

theorem hexValueFrom_cons (a : Nat) (c : UInt8) (l : List UInt8) :
    hexValueFrom a (c :: l) = hexValueFrom (16 * a + hexDigitValue c) l := rfl

/-- The digits after `a` shift it up by four bits each. -/
theorem hexValueFrom_eq : ∀ (a : Nat) (l : List UInt8), hexValueFrom a l = a * 16 ^ l.length + hexValue l
  | a, [] => by simp [hexValueFrom, hexValue]
  | a, c :: l => by
    rw [hexValue, hexValueFrom_cons, hexValueFrom_cons, hexValueFrom_eq _ l, hexValueFrom_eq (16 * 0 + _) l,
      List.length_cons, Nat.pow_succ]
    ring

theorem hexValue_append (l₁ l₂ : List UInt8) : hexValue (l₁ ++ l₂) = hexValue l₁ * 16 ^ l₂.length + hexValue l₂ := by
  rw [hexValue, hexValueFrom_append, hexValueFrom_eq]
  rfl

theorem hexValue_cons (c : UInt8) (l : List UInt8) :
    hexValue (c :: l) = hexDigitValue c * 16 ^ l.length + hexValue l := by
  rw [show c :: l = [c] ++ l from rfl, hexValue_append]
  simp [hexValue, hexValueFrom]

theorem hexValue_lt : ∀ {l : List UInt8}, l.all isHexDigit = true → hexValue l < 16 ^ l.length
  | [], _ => by simp [hexValue, hexValueFrom]
  | c :: l, h => by
    rw [List.all_cons, Bool.and_eq_true] at h
    have hc := (hexDigitValue_spec c h.1).1
    have hl := hexValue_lt h.2
    rw [hexValue_cons, List.length_cons, Nat.pow_succ]
    nlinarith

/-- A run of hex digits that starts with a non-zero digit is worth at least its leading place. -/
theorem le_hexValue {c : UInt8} {l : List UInt8} (hc : isHexDigit c = true) (h0 : c ≠ '0'.toUInt8) :
    16 ^ l.length ≤ hexValue (c :: l) := by
  rw [hexValue_cons]
  have hv := (hexDigitValue_spec c hc).2 h0
  calc 16 ^ l.length = 1 * 16 ^ l.length := (Nat.one_mul _).symm
    _ ≤ hexDigitValue c * 16 ^ l.length := Nat.mul_le_mul_right _ hv
    _ ≤ _ := Nat.le_add_right _ _

/-! ### What the encoders write -/

theorem hexDigits_eq (x : Nat) :
    hexDigits x = if x < 16 then [(Nat.digitChar x).toUInt8]
      else hexDigits (x / 16) ++ [(Nat.digitChar (x % 16)).toUInt8] := by
  rw [hexDigits, Nat.toDigits_eq_if (by decide)]
  split_ifs <;> simp [hexDigits]

/-- The digits `%x` writes are hex digits, and read back as the number; the induction follows
`Nat.toDigits`, the last digit split off. -/
theorem hexDigits_spec (x : Nat) : (hexDigits x).all isHexDigit = true ∧ hexValue (hexDigits x) = x := by
  induction x using Nat.strong_induction_on with
  | _ x ih =>
  rw [hexDigits_eq]
  split_ifs with hx
  · have hd := digitChar_spec x hx
    refine ⟨by simp [hd.1], ?_⟩
    simp [hexValue, hexValueFrom, hd.2.1]
  · have hd := digitChar_spec (x % 16) (Nat.mod_lt _ (by decide))
    obtain ⟨hall, hval⟩ := ih (x / 16) (by omega)
    refine ⟨by simp [hall, hd.1], ?_⟩
    rw [hexValue_append, hval, List.length_singleton, pow_one]
    simp only [hexValue, hexValueFrom, List.foldl_cons, List.foldl_nil, hd.2.1]
    omega

/-- A positive number's digits do not start with `0`. -/
theorem head_hexDigits (x : Nat) (hx : 0 < x) : (hexDigits x).head? ≠ some '0'.toUInt8 := by
  induction x using Nat.strong_induction_on with
  | _ x ih =>
  rw [hexDigits_eq]
  split_ifs with h16
  · have hd := digitChar_spec x h16
    simp only [List.head?_cons, ne_eq, Option.some.injEq]
    exact fun h => absurd (hd.2.2.1 h) (by omega)
  · have hne : hexDigits (x / 16) ≠ [] := by simp [hexDigits]
    obtain ⟨c, cs, hcs⟩ := List.exists_cons_of_ne_nil hne
    have := ih (x / 16) (by omega) (by omega)
    rw [hcs] at this ⊢
    simpa using this

theorem length_hexDigits_le {x k : Nat} (hk : 0 < k) (hx : x < 16 ^ k) : (hexDigits x).length ≤ k := by
  rw [hexDigits, List.length_map]
  exact (Nat.length_toDigits_le_iff (by decide) hk).2 hx

/-! ### Checking the text -/

theorem checkNumber_of_ne_nil {s : List UInt8} (hs : s ≠ []) : checkNumber s = checkDigits s := by
  rw [checkNumber, if_neg (by simpa using hs)]

theorem checkNumberText_of_ne_nil {s : List UInt8} (hs : s ≠ []) : checkNumberText s = checkDigits s := by
  rw [checkNumberText, if_neg (by simpa using hs)]

/-- What `checkDigits` lets through: the text after the prefix, not empty, without a leading zero. -/
theorem checkDigits_ok {s raw : List UInt8} (h : checkDigits s = .ok raw) :
    has0xPrefix s = true ∧ s.drop 2 = raw ∧ raw ≠ [] ∧ (1 < raw.length → raw.head? ≠ some '0'.toUInt8) := by
  unfold checkDigits at h
  by_cases hp : (!has0xPrefix s) = true
  · rw [if_pos hp] at h
    cases h
  rw [if_neg hp] at h
  dsimp only at h
  by_cases he : (s.drop 2).length = 0
  · rw [if_pos he] at h
    cases h
  rw [if_neg he] at h
  by_cases hz : (s.drop 2).length > 1 ∧ (s.drop 2).head? = some '0'.toUInt8
  · rw [if_pos hz] at h
    cases h
  rw [if_neg hz] at h
  cases h
  exact ⟨by simpa using hp, rfl, fun hnil => he (by rw [hnil]; rfl), fun h1 h0 => hz ⟨h1, h0⟩⟩

/-- A quantity is a text `checkDigits` lets through, of hex digits, not too long. -/
theorem isQuantity_iff (m : Nat) (s : List UInt8) :
    isQuantity m s = true ↔ ∃ raw, checkDigits s = .ok raw ∧ raw.length ≤ m ∧ raw.all isHexDigit = true := by
  constructor
  · intro h
    match s, h with
    | z :: x :: digits, h =>
      simp only [isQuantity, Bool.and_eq_true, decide_eq_true_eq, Bool.not_eq_true', Bool.and_eq_false_iff,
        decide_eq_false_iff_not] at h
      obtain ⟨⟨⟨⟨hp, h1⟩, hm⟩, hall⟩, hz⟩ := h
      refine ⟨digits, ?_, hm, hall⟩
      have hp' : has0xPrefix (z :: x :: digits) = true := by
        simp only [has0xPrefix, Bool.and_eq_true]
        exact hp
      have hz' : ¬ (digits.length > 1 ∧ digits.head? = some '0'.toUInt8) := by
        rintro ⟨h1', h0⟩
        rcases hz with hz | hz
        · omega
        · simp [h0] at hz
      unfold checkDigits
      rw [if_neg (by simp [hp']), List.drop_succ_cons, List.drop_succ_cons, List.drop_zero,
        if_neg (show ¬ digits.length = 0 by omega), if_neg hz']
  · rintro ⟨raw, h, hm, hall⟩
    obtain ⟨hp, hdrop, hne, hz⟩ := checkDigits_ok h
    match s, hp, hdrop with
    | z :: x :: digits, hp, hdrop =>
      rw [List.drop_succ_cons, List.drop_succ_cons, List.drop_zero] at hdrop
      subst hdrop
      have h1 : 1 ≤ digits.length := List.length_pos_iff.2 hne
      simp only [has0xPrefix, Bool.and_eq_true] at hp
      simp only [isQuantity, Bool.and_eq_true, decide_eq_true_eq, Bool.not_eq_true', Bool.and_eq_false_iff]
      refine ⟨⟨⟨⟨hp, h1⟩, hm⟩, hall⟩, ?_⟩
      by_cases h1' : 1 < digits.length
      · exact .inr (by simpa using hz h1')
      · exact .inl (by simpa using h1')

/-! ### `DecodeBig` and `Big.UnmarshalText` -/

/-- A wrapping step of a word is the step of the number, wrapped. -/
theorem mod_step (a d m : Nat) : (a % m * 16 % m + d) % m = (16 * a + d) % m := by
  rw [Nat.add_mod, Nat.mod_mod, Nat.mul_mod, Nat.mod_mod, ← Nat.mul_mod, Nat.mul_comm, ← Nat.add_mod]

/-- The inner loop reads the chunk's value, wrapped to the word, or refuses a non-digit. -/
theorem decodeWord_eq (w : Nat) : ∀ (cs : List UInt8) (acc : Nat),
    decodeWord w cs (acc % 2 ^ w) = if cs.all isHexDigit then .ok (hexValueFrom acc cs % 2 ^ w) else .error .invalidSyntax
  | [], acc => rfl
  | c :: cs, acc => by
    simp only [decodeWord]
    by_cases hc : isHexDigit c = true
    · rw [if_neg ((decodeNibble_ne_bad_iff c).2 hc), toNat_decodeNibble hc, mod_step, decodeWord_eq w cs,
        List.all_cons, hc, Bool.true_and, hexValueFrom_cons]
    · rw [if_pos (by by_contra hne; exact hc ((decodeNibble_ne_bad_iff c).1 hne)), List.all_cons]
      simp [hc]

theorem decodeWord_zero (w : Nat) (cs : List UInt8) :
    decodeWord w cs 0 = if cs.all isHexDigit then .ok (hexValue cs % 2 ^ w) else .error .invalidSyntax := by
  have := decodeWord_eq w cs 0
  rwa [Nat.zero_mod] at this

theorem decodeWords_succ (n : Nat) (raw : List UInt8) (k stop : Nat) :
    decodeWords n raw (k + 1) stop =
      match decodeWord (4 * n) ((raw.take stop).drop (stop - n)) 0 with
      | .error e => .error e
      | .ok word =>
        match decodeWords n raw k (stop - n) with
        | .error e => .error e
        | .ok words => .ok (word :: words) := rfl

/-- The outer loop reads the value of the first `stop` digits, a chunk of `n` to a word, as long as
it has words enough; the induction is on the words left. -/
theorem decodeWords_toOption (n : Nat) (raw : List UInt8) : ∀ (k stop : Nat), stop ≤ k * n → stop ≤ raw.length →
    (decodeWords n raw k stop).toOption.map (setBits (4 * n)) =
      if (raw.take stop).all isHexDigit then some (hexValue (raw.take stop)) else none
  | 0, stop, hs, _ => by
    have hs0 : stop = 0 := by simpa using hs
    subst hs0
    rfl
  | k + 1, stop, hs, hr => by
    rw [decodeWords_succ, decodeWord_zero]
    set chunk := (raw.take stop).drop (stop - n) with hchunk_def
    have hsplit : raw.take stop = raw.take (stop - n) ++ chunk := by
      conv_lhs => rw [← List.take_append_drop (stop - n) (raw.take stop)]
      rw [List.take_take, Nat.min_eq_left (Nat.sub_le _ _)]
    have hchunk : chunk.length ≤ n := by
      simp only [hchunk_def, List.length_drop, List.length_take]
      omega
    have ih := decodeWords_toOption n raw k (stop - n) (by rw [Nat.succ_mul] at hs; omega) (by omega)
    rw [hsplit, List.all_append]
    by_cases hc : chunk.all isHexDigit = true
    · -- the chunk fits its word, so the word is the chunk's value
      have hlt : hexValue chunk < 2 ^ (4 * n) :=
        calc hexValue chunk < 16 ^ chunk.length := hexValue_lt hc
          _ ≤ 16 ^ n := Nat.pow_le_pow_right (by decide) hchunk
          _ = 2 ^ (4 * n) := by rw [Nat.pow_mul]
      rw [if_pos hc, Nat.mod_eq_of_lt hlt, hc, Bool.and_true]
      dsimp only
      cases hw : decodeWords n raw k (stop - n) with
      | error e =>
        rw [hw] at ih
        by_cases hall : (raw.take (stop - n)).all isHexDigit = true
        · rw [if_pos hall] at ih
          cases ih
        · rw [if_neg hall]
          rfl
      | ok words =>
        rw [hw] at ih
        by_cases hall : (raw.take (stop - n)).all isHexDigit = true
        · rw [if_pos hall] at ih
          rw [if_pos hall]
          simp only [Except.toOption, Option.map_some, setBits, Option.some.injEq] at ih ⊢
          rw [ih, hexValue_append]
          -- a full chunk shifts the rest by a word; a short one is the whole text
          by_cases hfull : n ≤ stop
          · have hlen : chunk.length = n := by
              simp only [hchunk_def, List.length_drop, List.length_take]
              omega
            rw [hlen, show (16 : Nat) ^ n = 2 ^ (4 * n) by rw [Nat.pow_mul]]
            ring
          · rw [show stop - n = 0 by omega, List.take_zero]
            simp [hexValue, hexValueFrom]
        · rw [if_neg hall] at ih
          cases ih
    · rw [if_neg hc]
      simp only [hc, Bool.and_false, Bool.false_eq_true, if_false]
      rfl

/-- The body of the big decoders reads the value of at most 64 hex digits, with any chunk size. -/
theorem decodeBigRaw_toOption {n : Nat} (hn : 0 < n) (raw : List UInt8) :
    (decodeBigRaw n raw).toOption =
      if raw.length ≤ 64 ∧ raw.all isHexDigit = true then some (hexValue raw) else none := by
  have hk : raw.length ≤ (raw.length / n + 1) * n := by
    have := Nat.lt_div_mul_add (a := raw.length) hn
    rw [Nat.succ_mul]
    omega
  have hw := decodeWords_toOption n raw _ _ hk (Nat.le_refl _)
  rw [List.take_length] at hw
  unfold decodeBigRaw
  by_cases hlong : raw.length > 64
  · rw [if_pos hlong, if_neg (fun h => by omega)]
    rfl
  rw [if_neg hlong]
  cases hd : decodeWords n raw (raw.length / n + 1) raw.length with
  | error e =>
    rw [hd] at hw
    by_cases hall : raw.all isHexDigit = true
    · rw [if_pos hall] at hw
      cases hw
    · rw [if_neg (fun h => hall h.2)]
      rfl
  | ok words =>
    rw [hd] at hw
    by_cases hall : raw.all isHexDigit = true
    · rw [if_pos hall] at hw
      rw [if_pos ⟨by omega, hall⟩]
      simpa [Except.toOption] using hw
    · rw [if_neg hall] at hw
      cases hw

/-- Once `checkDigits` has passed, the text is a quantity iff its digits are few enough and all hex. -/
theorem isQuantity_of_checkDigits {m : Nat} {s raw : List UInt8} (h : checkDigits s = .ok raw) :
    isQuantity m s = (decide (raw.length ≤ m) && raw.all isHexDigit) := by
  apply Bool.eq_iff_iff.2
  rw [isQuantity_iff, Bool.and_eq_true, decide_eq_true_eq]
  constructor
  · rintro ⟨raw', h', hm, hall⟩
    rw [h] at h'
    cases h'
    exact ⟨hm, hall⟩
  · rintro ⟨hm, hall⟩
    exact ⟨raw, h, hm, hall⟩

theorem isQuantity_of_checkDigits_error {m : Nat} {s : List UInt8} {e : Error} (h : checkDigits s = .error e) :
    isQuantity m s = false := by
  rw [Bool.eq_false_iff]
  intro hq
  obtain ⟨raw, h', -⟩ := (isQuantity_iff m s).1 hq
  rw [h] at h'
  cases h'

/-- `DecodeBig` reads exactly the quantities of at most 64 digits, for every chunk size. -/
theorem decodeBig_toOption {n : Nat} (hn : 0 < n) {s : List UInt8} (hs : s ≠ []) :
    (decodeBig n s).toOption = if isQuantity 64 s then some (hexValue (s.drop 2)) else none := by
  rw [decodeBig, checkNumber_of_ne_nil hs]
  cases hc : checkDigits s with
  | error e =>
    rw [isQuantity_of_checkDigits_error hc]
    rfl
  | ok raw =>
    obtain ⟨-, hdrop, -⟩ := checkDigits_ok hc
    dsimp only
    rw [decodeBigRaw_toOption hn, isQuantity_of_checkDigits hc, hdrop]
    simp only [Bool.and_eq_true, decide_eq_true_eq]

/-- `Big.UnmarshalText` differs from `DecodeBig` only on the empty text. -/
theorem unmarshalTextBig_eq (n : Nat) {s : List UInt8} (hs : s ≠ []) : unmarshalTextBig n s = decodeBig n s := by
  rw [unmarshalTextBig, decodeBig, checkNumber_of_ne_nil hs, checkNumberText_of_ne_nil hs]

example : unmarshalTextBig 16 [] = .ok 0 ∧ decodeBig 16 [] = .error .emptyString := by decide

/-! ### `DecodeUint64` and `Uint64.UnmarshalText` -/

/-- The value after a wrapped accumulator is the value after the accumulator, wrapped. -/
theorem hexValueFrom_mod (a m : Nat) (l : List UInt8) : hexValueFrom (a % m) l % m = hexValueFrom a l % m := by
  rw [hexValueFrom_eq, hexValueFrom_eq, Nat.add_mod, Nat.mul_mod, Nat.mod_mod, ← Nat.mul_mod, ← Nat.add_mod]

/-- The loop of `Uint64.UnmarshalText` reads the hex value of the digits after its accumulator,
wrapped to 64 bits, or refuses a non-digit. -/
theorem unmarshalLoop_eq : ∀ (cs : List UInt8) (acc : UInt64),
    unmarshalLoop cs acc = if cs.all isHexDigit then .ok (hexValueFrom acc.toNat cs).toUInt64 else .error .invalidSyntax
  | [], acc => by simp [unmarshalLoop, hexValueFrom]
  | c :: cs, acc => by
    simp only [unmarshalLoop]
    by_cases hc : isHexDigit c = true
    · rw [if_neg ((decodeNibble_ne_bad_iff c).2 hc), unmarshalLoop_eq cs, List.all_cons, hc, Bool.true_and,
        hexValueFrom_cons]
      -- the wrapped step `dec * 16 + nib` is the step of the number, wrapped
      have hstep : (acc * 16 + decodeNibble c).toNat = (16 * acc.toNat + hexDigitValue c) % 2 ^ 64 := by
        rw [UInt64.toNat_add, UInt64.toNat_mul, toNat_decodeNibble hc, show UInt64.toNat 16 = 16 from rfl]
        omega
      have hwrap : (hexValueFrom (acc * 16 + decodeNibble c).toNat cs).toUInt64 =
          (hexValueFrom (16 * acc.toNat + hexDigitValue c) cs).toUInt64 := by
        apply UInt64.toNat_inj.1
        rw [Nat.toUInt64_eq, Nat.toUInt64_eq, UInt64.toNat_ofNat', UInt64.toNat_ofNat', hstep, hexValueFrom_mod]
      rw [hwrap]
    · rw [if_pos (by by_contra hne; exact hc ((decodeNibble_ne_bad_iff c).1 hne)), List.all_cons]
      simp [hc]

/-- `Uint64.UnmarshalText` reads exactly the quantities of at most 16 digits. -/
theorem unmarshalTextUint64_toOption {s : List UInt8} (hs : s ≠ []) :
    (unmarshalTextUint64 s).toOption = if isQuantity 16 s then some (hexValue (s.drop 2)).toUInt64 else none := by
  rw [unmarshalTextUint64, checkNumberText_of_ne_nil hs]
  cases hc : checkDigits s with
  | error e =>
    rw [isQuantity_of_checkDigits_error hc]
    rfl
  | ok raw =>
    obtain ⟨-, hdrop, -⟩ := checkDigits_ok hc
    dsimp only
    rw [isQuantity_of_checkDigits hc, hdrop]
    by_cases hl : raw.length > 16
    · rw [if_pos hl, show decide (raw.length ≤ 16) = false by simpa using hl]
      rfl
    · rw [if_neg hl, unmarshalLoop_eq, show decide (raw.length ≤ 16) = true by simpa using hl, Bool.true_and]
      cases raw.all isHexDigit <;> rfl

/-- The value never falls below the accumulator. -/
theorem le_hexValueFrom (a : Nat) (l : List UInt8) : a ≤ hexValueFrom a l := by
  rw [hexValueFrom_eq]
  calc a = a * 1 := (Nat.mul_one a).symm
    _ ≤ a * 16 ^ l.length := Nat.mul_le_mul_left _ (Nat.one_le_pow _ _ (by decide))
    _ ≤ _ := Nat.le_add_right _ _

/-- The loop of `strconv.ParseUint(s, 16, 64)` reads the hex value of the digits after its
accumulator, as long as it stays within 64 bits; the induction is on the text, the accumulator
general. -/
theorem parseUintLoop_toOption : ∀ (cs : List UInt8) (n : Nat), n ≤ 2 ^ 64 - 1 →
    (parseUintLoop cs n).toOption =
      if cs.all isHexDigit = true ∧ hexValueFrom n cs ≤ 2 ^ 64 - 1 then some (hexValueFrom n cs) else none
  | [], n, hn => by simpa [parseUintLoop, hexValueFrom, Except.toOption] using hn
  | c :: cs, n, hn => by
    have hv : hexValueFrom n (c :: cs) = hexValueFrom (16 * n + hexDigitValue c) cs := hexValueFrom_cons _ _ _
    have hmono := le_hexValueFrom (16 * n + hexDigitValue c) cs
    simp only [parseUintLoop]
    by_cases hd : parseDigit c ≥ 16
    · -- not a digit below 16: a syntax error, and the text is no hex number
      have hc : isHexDigit c = false := by
        rw [Bool.eq_false_iff]
        exact fun h => absurd ((parseDigit_spec c).1.2 h) (by omega)
      rw [if_pos hd, List.all_cons, hc]
      simp [Except.toOption]
    have hc : isHexDigit c = true := (parseDigit_spec c).1.1 (by omega)
    have hdv := (parseDigit_spec c).2 hc
    rw [if_neg hd, List.all_cons, hc, Bool.true_and, hv]
    by_cases hcut : n ≥ (2 ^ 64 - 1) / 16 + 1
    · -- past the cutoff: a range error, and the value is too large
      rw [if_pos hcut, if_neg (fun h => by omega)]
      rfl
    rw [if_neg hcut]
    by_cases hover : n * 16 + parseDigit c > 2 ^ 64 - 1
    · rw [if_pos hover, if_neg (fun h => by omega)]
      rfl
    rw [if_neg hover, parseUintLoop_toOption cs _ (by omega), hdv, Nat.mul_comm n 16]

/-- Digits of a quantity without a leading zero fit 64 bits iff there are at most 16 of them. -/
theorem hexValue_le_iff_length {raw : List UInt8} (hall : raw.all isHexDigit = true)
    (hz : 1 < raw.length → raw.head? ≠ some '0'.toUInt8) : hexValue raw ≤ 2 ^ 64 - 1 ↔ raw.length ≤ 16 := by
  constructor
  · intro hle
    by_contra hlong
    match raw, hall, hz, hlong with
    | c :: l, hall, hz, hlong =>
      rw [List.all_cons, Bool.and_eq_true] at hall
      have h0 : c ≠ '0'.toUInt8 := fun h => hz (by omega) (by rw [h]; rfl)
      have hl : 16 ≤ l.length := by simp only [List.length_cons] at hlong; omega
      have := le_hexValue (l := l) hall.1 h0
      have : 16 ^ 16 ≤ 16 ^ l.length := Nat.pow_le_pow_right (by decide) hl
      omega
  · intro hl
    have hlt := hexValue_lt hall
    have : 16 ^ raw.length ≤ 16 ^ 16 := Nat.pow_le_pow_right (by decide) hl
    omega

/-- `DecodeUint64` reads exactly the quantities of at most 16 digits. -/
theorem decodeUint64_toOption {s : List UInt8} (hs : s ≠ []) :
    (decodeUint64 s).toOption = if isQuantity 16 s then some (hexValue (s.drop 2)).toUInt64 else none := by
  rw [decodeUint64, checkNumber_of_ne_nil hs]
  cases hc : checkDigits s with
  | error e =>
    rw [isQuantity_of_checkDigits_error hc]
    rfl
  | ok raw =>
    obtain ⟨-, hdrop, hne, hz⟩ := checkDigits_ok hc
    have hloop := parseUintLoop_toOption raw 0 (by decide)
    dsimp only
    rw [isQuantity_of_checkDigits hc, hdrop, parseUint, if_neg hne]
    cases hp : parseUintLoop raw 0 with
    | error e =>
      rw [hp] at hloop
      by_cases hq : (decide (raw.length ≤ 16) && raw.all isHexDigit) = true
      · rw [Bool.and_eq_true, decide_eq_true_eq] at hq
        rw [if_pos ⟨hq.2, (hexValue_le_iff_length hq.2 hz).2 hq.1⟩] at hloop
        cases hloop
      · rw [if_neg hq]
        rfl
    | ok v =>
      rw [hp] at hloop
      by_cases hq : raw.all isHexDigit = true ∧ hexValueFrom 0 raw ≤ 2 ^ 64 - 1
      · rw [if_pos hq] at hloop
        have hq' : (decide (raw.length ≤ 16) && raw.all isHexDigit) = true := by
          rw [Bool.and_eq_true, decide_eq_true_eq]
          exact ⟨(hexValue_le_iff_length hq.1 hz).1 hq.2, hq.1⟩
        rw [if_pos hq']
        cases hloop
        rfl
      · rw [if_neg hq] at hloop
        cases hloop

/-! ### Round trips -/

theorem eq_ok_of_toOption {ε α : Type} {e : Except ε α} {a : α} (h : e.toOption = some a) : e = .ok a := by
  cases e with
  | error _ => cases h
  | ok b => cases h; rfl

theorem encodeBig_eq (x : Nat) : encodeBig x = '0'.toUInt8 :: 'x'.toUInt8 :: hexDigits x := by
  rw [encodeBig]
  split_ifs with hx
  · subst hx
    rfl
  · rfl

/-- What the encoders write is a quantity, for every number that fits its digits. -/
theorem isQuantity_encode {m x : Nat} (hm : 0 < m) (hx : x < 16 ^ m) :
    isQuantity m ('0'.toUInt8 :: 'x'.toUInt8 :: hexDigits x) = true := by
  obtain ⟨hall, -⟩ := hexDigits_spec x
  have hne : hexDigits x ≠ [] := by simp [hexDigits]
  have hlen := length_hexDigits_le hm hx
  simp only [isQuantity, Bool.and_eq_true, decide_eq_true_eq, Bool.not_eq_true', Bool.and_eq_false_iff,
    decide_eq_false_iff_not]
  refine ⟨⟨⟨⟨by decide, List.length_pos_iff.2 hne⟩, hlen⟩, hall⟩, ?_⟩
  by_cases hx0 : x = 0
  · subst hx0
    exact .inl (by decide)
  · exact .inr (by simpa using head_hexDigits x (by omega))

theorem decodeBig_encodeBig {n x : Nat} (hn : 0 < n) (hx : x < 2 ^ 256) : decodeBig n (encodeBig x) = .ok x := by
  apply eq_ok_of_toOption
  rw [decodeBig_toOption hn (by simp [encodeBig_eq]), encodeBig_eq,
    if_pos (isQuantity_encode (by decide) (by rw [show (16 : Nat) ^ 64 = 2 ^ 256 by decide]; exact hx))]
  simp only [List.drop_succ_cons, List.drop_zero, (hexDigits_spec x).2]

theorem decode_encodeUint64 (i : UInt64) :
    decodeUint64 (encodeUint64 i) = .ok i ∧ unmarshalTextUint64 (encodeUint64 i) = .ok i := by
  have hq : isQuantity 16 (encodeUint64 i) = true :=
    isQuantity_encode (by decide) (by rw [show (16 : Nat) ^ 16 = 2 ^ 64 by decide]; exact i.toNat_lt)
  have hv : (hexValue ((encodeUint64 i).drop 2)).toUInt64 = i := by
    rw [encodeUint64, List.drop_succ_cons, List.drop_succ_cons, List.drop_zero, (hexDigits_spec _).2,
      Nat.toUInt64_eq, UInt64.ofNat_toNat]
  have hne : encodeUint64 i ≠ [] := by simp [encodeUint64]
  constructor
  · apply eq_ok_of_toOption
    rw [decodeUint64_toOption hne, if_pos hq, hv]
  · apply eq_ok_of_toOption
    rw [unmarshalTextUint64_toOption hne, if_pos hq, hv]

theorem hex_quantity_codecs (n : Nat) (hn : 0 < n) :
    (∀ x : Nat, x < 2 ^ 256 →
      decodeBig n (encodeBig x) = .ok x ∧ unmarshalTextBig n (marshalTextBig x) = .ok x) ∧
    (∀ s : List UInt8, s ≠ [] →
      (decodeBig n s).toOption = (if isQuantity 64 s then some (hexValue (s.drop 2)) else none) ∧
        unmarshalTextBig n s = decodeBig n s) ∧
    (∀ s : List UInt8, s ≠ [] →
      (decodeUint64 s).toOption = (unmarshalTextUint64 s).toOption ∧
        (unmarshalTextUint64 s).toOption = if isQuantity 16 s then some (hexValue (s.drop 2)).toUInt64 else none) ∧
    ∀ i : UInt64, decodeUint64 (encodeUint64 i) = .ok i ∧ unmarshalTextUint64 (encodeUint64 i) = .ok i := by
  refine ⟨fun x hx => ?_, fun s hs => ⟨decodeBig_toOption hn hs, unmarshalTextBig_eq n hs⟩,
    fun s hs => ?_, decode_encodeUint64⟩
  · have hd := decodeBig_encodeBig hn hx
    refine ⟨hd, ?_⟩
    rw [marshalTextBig, unmarshalTextBig_eq n (by simp [encodeBig_eq]), hd]
  · rw [decodeUint64_toOption hs, unmarshalTextUint64_toOption hs]
    exact ⟨rfl, rfl⟩

theorem hex_quantity_codecs_word64 : decodeBig 16 (encodeBig 255) = .ok 255 :=
  ((hex_quantity_codecs 16 (by decide)).1 255 (by decide)).1

end Go420coin.Hexutil
