import Mathlib.Data.List.Basic
import Go420coin.Lib.KeyOrder

/-!
# Trie keys (`trie/encoding.go`)

Keys reach the trie as byte strings (KEYBYTES), are walked as one byte per nibble with a terminator
`16` at the end (HEX, `keybytesToHex`), and are stored in nodes in the hex-prefix form (COMPACT,
`hexToCompact`).

A hex key of a byte string is a `HexKey`: nibbles below `16` followed by the terminator.  No hex key
is a proper prefix of another (`HexKey.prefix_eq`), which is what lets the trie store a value at
the end of every key.  `compactToHex` gives back the hex key, or the run of nibbles, that
`hexToCompact` packed (`compactToHex_hexToCompact_hexKey`, `compactToHex_hexToCompact_nibbles`).
-/

namespace Go420coin.Trie

/-- `keybytesToHex`: two nibbles for each byte, then the terminator `16`. -/
def keybytesToHex (str : List UInt8) : List UInt8 :=
  str.flatMap (fun b => [b / 16, b % 16]) ++ [16]

/-- `hasTerm`: the hex key ends with the terminator. -/
def hasTerm (s : List UInt8) : Bool :=
  s.getLast? = some 16

/-- `decodeNibbles`: pack pairs of nibbles into bytes (Go writes them into a buffer of half the length,
and is only called on an even number of nibbles). -/
def decodeNibbles : List UInt8 → List UInt8
  | a :: b :: rest => (a <<< 4 ||| b) :: decodeNibbles rest
  | _ => []

/-- `hexToCompact`: the flag byte (terminator bit `0x20`, odd bit `0x10`, and the first nibble of an odd
key), then the remaining nibbles in pairs. -/
def hexToCompact (hex : List UInt8) : List UInt8 :=
  let terminator : UInt8 := if hasTerm hex then 1 else 0
  let hex := if hasTerm hex then hex.dropLast else hex
  if hex.length % 2 = 1 then
    ((terminator <<< 5) ||| ((1 : UInt8) <<< 4) ||| hex.headD 0) :: decodeNibbles hex.tail
  else
    (terminator <<< 5) :: decodeNibbles hex

/-- `hexToCompactInPlace`, read as the first `binLen` bytes of the buffer once the compact form is
written over a non-empty hex key: the flag byte, then the nibbles packed in pairs.  The loop itself,
over the buffer, is `hexToCompactInPlaceRun` below, which gives these bytes on every non-empty key
(`hexToCompactInPlaceRun_eq`). -/
def hexToCompactInPlace (hex : List UInt8) : List UInt8 :=
  let (firstByte, hex) : UInt8 × List UInt8 :=
    if 0 < hex.length ∧ hex.getLast? = some 16 then ((1 : UInt8) <<< 5, hex.dropLast) else (0, hex)
  if hex.length &&& 1 = 1 then ((firstByte ||| (1 : UInt8) <<< 4) ||| hex.headD 0) :: decodeNibbles hex.tail
  else firstByte :: decodeNibbles hex

/-- `compactToHex`: unpack the nibbles, drop the terminator unless the flag asks for it, and drop the
flag nibbles. -/
def compactToHex (compact : List UInt8) : List UInt8 :=
  if compact = [] then compact
  else
    let base := keybytesToHex compact
    let base := if base.headD 0 < 2 then base.dropLast else base
    let chop := 2 - (base.headD 0 &&& 1)
    base.drop chop.toNat

/-- `hexToKeybytes`: the terminator dropped, the nibbles packed in pairs; a key of an odd number of
nibbles is a panic (`none`). -/
def hexToKeybytes (hex : List UInt8) : Option (List UInt8) :=
  let hex := if hasTerm hex then hex.dropLast else hex
  if hex.length &&& 1 ≠ 0 then none else some (decodeNibbles hex)

/-- The loop of `hexToCompactInPlace` over the buffer it reads: while `ni < hexLen`, byte `bi` is
written from the nibbles at `ni` and `ni + 1` as the buffer holds them then.  `none` is an index out
of range (a panic), or the fuel run out. -/
def compactInPlaceLoop (hexLen : Nat) : Nat → Nat → Nat → List UInt8 → Option (List UInt8)
  | 0, _, _, _ => none
  | fuel + 1, ni, bi, buf =>
    if ni < hexLen then
      match buf[ni]?, buf[ni + 1]? with
      | some a, some b =>
        if bi < buf.length then compactInPlaceLoop hexLen fuel (ni + 2) (bi + 1) (buf.set bi (a <<< 4 ||| b))
        else none
      | _, _ => none
    else some buf

/-- The rest of `hexToCompactInPlace` once the terminator is looked at: the odd flag and the first
nibble, the loop, and `hex[0] = firstByte`, which panics (`none`) on an empty buffer. -/
def compactInPlaceFrom (hex : List UInt8) (firstByte : UInt8) (hexLen : Nat) : Option (Nat × List UInt8) :=
  let binLen := hexLen / 2 + 1
  let start : Option (UInt8 × Nat) :=
    if hexLen &&& 1 = 1 then hex[0]?.map fun h0 => ((firstByte ||| (1 : UInt8) <<< 4) ||| h0, 1)
    else some (firstByte, 0)
  start.bind fun (firstByte, ni) =>
    (compactInPlaceLoop hexLen (hexLen + 1) ni 1 hex).bind fun buf =>
      if 0 < buf.length then some (binLen, buf.set 0 firstByte) else none

/-- `hexToCompactInPlace` as it runs: `binLen` and the buffer once the compact key is written over
the hex key, or `none` for a panic. -/
def hexToCompactInPlaceRun (hex : List UInt8) : Option (Nat × List UInt8) :=
  if 0 < hex.length ∧ hex[hex.length - 1]? = some 16 then compactInPlaceFrom hex ((1 : UInt8) <<< 5) (hex.length - 1)
  else compactInPlaceFrom hex 0 hex.length

/-- `prefixLen`: the length of the common prefix of two keys. -/
def prefixLen : List UInt8 → List UInt8 → Nat
  | a :: as, b :: bs => if a = b then prefixLen as bs + 1 else 0
  | _, _ => 0

/-! ### Hex keys -/

/-- A hex key: nibbles below `16`, then the terminator `16`. -/
inductive HexKey : List UInt8 → Prop
  | term : HexKey [16]
  | nibble {x : UInt8} {p : List UInt8} : x < 16 → HexKey p → HexKey (x :: p)

/-- Nibbles without the terminator: the path of an extension node. -/
def Nibbles (p : List UInt8) : Prop := ∀ x ∈ p, x < 16

namespace HexKey

theorem ne_nil {p : List UInt8} (h : HexKey p) : p ≠ [] := by
  cases h <;> simp

theorem append {p q : List UInt8} (hp : Nibbles p) (hq : HexKey q) : HexKey (p ++ q) := by
  induction p with
  | nil => exact hq
  | cons x p ih =>
    exact .nibble (hp x (by simp)) (ih fun y hy => hp y (by simp [hy]))

theorem cons_iff {x : UInt8} {p : List UInt8} : HexKey (x :: p) ↔ (x = 16 ∧ p = []) ∨ (x < 16 ∧ HexKey p) := by
  constructor
  · intro h
    cases h with
    | term => exact .inl ⟨rfl, rfl⟩
    | nibble hx hp => exact .inr ⟨hx, hp⟩
  · rintro (⟨rfl, rfl⟩ | ⟨hx, hp⟩)
    · exact .term
    · exact .nibble hx hp

theorem of_append {p q : List UInt8} (h : HexKey (p ++ q)) (hq : q ≠ []) : Nibbles p ∧ HexKey q := by
  induction p with
  | nil => exact ⟨fun _ h => absurd h (by simp), h⟩
  | cons x p ih =>
    rcases cons_iff.1 h with ⟨-, hpq⟩ | ⟨hx, hp⟩
    · exact absurd (List.append_eq_nil_iff.1 hpq).2 hq
    · obtain ⟨hn, hq'⟩ := ih hp
      refine ⟨fun y hy => ?_, hq'⟩
      rcases List.mem_cons.1 hy with rfl | hy
      · exact hx
      · exact hn y hy

/-- A hex key starts with the index of a child of a full node: a nibble, or the terminator
that ends it. -/
theorem cons_toNat {b : UInt8} {p : List UInt8} (h : HexKey (b :: p)) :
    (b.toNat = 16 ∧ p = []) ∨ (b.toNat < 16 ∧ HexKey p) := by
  rcases cons_iff.1 h with ⟨rfl, rfl⟩ | ⟨hb, hp⟩
  · exact .inl ⟨rfl, rfl⟩
  · exact .inr ⟨UInt8.lt_iff_toNat_lt.1 hb, hp⟩

theorem toNat_head_lt {b : UInt8} {p : List UInt8} (h : HexKey (b :: p)) : b.toNat < 17 := by
  rcases cons_toNat h with ⟨hb, -⟩ | ⟨hb, -⟩ <;> omega

/-- The terminator occurs only at the end of a hex key. -/
theorem not_nibbles {p : List UInt8} (h : HexKey p) : ¬ Nibbles p := by
  induction h with
  | term => intro hn; exact absurd (hn 16 (by simp)) (by decide)
  | nibble _ _ ih => exact fun hn => ih fun y hy => hn y (by simp [hy])

/-- No hex key is a proper prefix of another. -/
theorem prefix_eq {p q : List UInt8} (hp : HexKey p) (hq : HexKey q) (h : p <+: q) : p = q := by
  obtain ⟨t, rfl⟩ := h
  induction hp with
  | term =>
    rcases cons_iff.1 hq with ⟨-, ht⟩ | ⟨hx, -⟩
    · simp_all
    · exact absurd hx (by decide)
  | nibble hx _ ih =>
    rcases cons_iff.1 hq with ⟨rfl, -⟩ | ⟨-, hq⟩
    · exact absurd hx (by decide)
    · exact congrArg (List.cons _) (ih hq)

/-- What follows any position of a hex key is a hex key. -/
theorem drop {p : List UInt8} (h : HexKey p) {m : Nat} (hm : m < p.length) : HexKey (p.drop m) := by
  induction h generalizing m with
  | term =>
    obtain rfl : m = 0 := by simpa using hm
    exact .term
  | nibble hx hp ih =>
    cases m with
    | zero => exact .nibble hx hp
    | succ m => exact ih (by simpa using hm)

/-- Before its last element a hex key has only nibbles. -/
theorem nibbles_take {p : List UInt8} (h : HexKey p) {m : Nat} (hm : m < p.length) :
    Nibbles (p.take m) := by
  induction h generalizing m with
  | term =>
    obtain rfl : m = 0 := by simpa using hm
    simp [Nibbles]
  | nibble hx hp ih =>
    cases m with
    | zero => simp [Nibbles]
    | succ m =>
      intro y hy
      rw [List.take_succ_cons, List.mem_cons] at hy
      rcases hy with rfl | hy
      · exact hx
      · exact ih (by simpa using hm) y hy

/-- A hex key is a run of nibbles and the terminator. -/
theorem exists_nibbles_append {k : List UInt8} (hk : HexKey k) : ∃ p, Nibbles p ∧ k = p ++ [16] := by
  have h := hk
  rw [← List.dropLast_append_getLast hk.ne_nil] at h
  obtain ⟨hp, hl⟩ := of_append h (by simp)
  have h16 : k.getLast hk.ne_nil = 16 := by
    rcases cons_iff.1 hl with ⟨hx, -⟩ | ⟨-, hnil⟩
    · exact hx
    · exact absurd rfl hnil.ne_nil
  exact ⟨_, hp, by rw [← h16, List.dropLast_append_getLast]⟩

theorem hasTerm_eq_true {k : List UInt8} (hk : HexKey k) : hasTerm k = true := by
  obtain ⟨p, -, rfl⟩ := hk.exists_nibbles_append
  simp [hasTerm]

end HexKey

namespace Nibbles

variable {p q : List UInt8}

theorem drop (h : Nibbles p) (m : Nat) : Nibbles (p.drop m) :=
  fun x hx => h x (List.mem_of_mem_drop hx)

theorem append (hp : Nibbles p) (hq : Nibbles q) : Nibbles (p ++ q) := by
  intro x hx
  rcases List.mem_append.1 hx with hx | hx
  · exact hp x hx
  · exact hq x hx

theorem cons {x : UInt8} (hx : x < 16) (hp : Nibbles p) : Nibbles (x :: p) := by
  intro y hy
  rcases List.mem_cons.1 hy with rfl | hy
  · exact hx
  · exact hp y hy

end Nibbles

theorem hexKey_keybytesToHex (str : List UInt8) : HexKey (keybytesToHex str) := by
  induction str with
  | nil => exact .term
  | cons b str ih =>
    have h1 : b / 16 < 16 := by
      rw [UInt8.lt_iff_toNat_lt, UInt8.toNat_div]
      have := b.toNat_lt
      simp only [UInt8.reduceToNat]
      omega
    have h2 : b % 16 < 16 := by
      rw [UInt8.lt_iff_toNat_lt, UInt8.toNat_mod]
      simp only [UInt8.reduceToNat]
      omega
    simpa [keybytesToHex] using HexKey.nibble h1 (HexKey.nibble h2 ih)

/-- Distinct byte strings have distinct hex keys. -/
theorem keybytesToHex_injective : Function.Injective keybytesToHex := by
  intro a b h
  induction a generalizing b with
  | nil =>
    cases b with
    | nil => rfl
    | cons c b => simp [keybytesToHex] at h
  | cons x a ih =>
    cases b with
    | nil => simp [keybytesToHex] at h
    | cons y b =>
      simp only [keybytesToHex, List.flatMap_cons, List.cons_append, List.nil_append, List.cons.injEq] at h
      obtain ⟨h1, h2, h3⟩ := h
      have hxy : x = y := by
        apply UInt8.toNat_inj.1
        have e1 := congrArg UInt8.toNat h1
        have e2 := congrArg UInt8.toNat h2
        simp only [UInt8.toNat_div, UInt8.toNat_mod, UInt8.reduceToNat] at e1 e2
        omega
      rw [hxy, ih h3]

/-! ### Nibbles of byte strings and compact keys -/

theorem dropLast_keybytesToHex (str : List UInt8) :
    (keybytesToHex str).dropLast = str.flatMap (fun b => [b / 16, b % 16]) := by
  simp [keybytesToHex]

theorem length_keybytesToHex (str : List UInt8) : (keybytesToHex str).length = 2 * str.length + 1 := by
  induction str with
  | nil => rfl
  | cons b str ih =>
    simp [keybytesToHex] at ih ⊢
    omega

theorem dropLast_keybytesToHex_append (str : List UInt8) : (keybytesToHex str).dropLast ++ [16] = keybytesToHex str := by
  rw [dropLast_keybytesToHex, keybytesToHex]

theorem nibbles_dropLast_keybytesToHex (str : List UInt8) : Nibbles (keybytesToHex str).dropLast := by
  have h := hexKey_keybytesToHex str
  rw [← List.dropLast_append_getLast (hexKey_keybytesToHex str).ne_nil] at h
  exact (HexKey.of_append h (by simp)).1

/-- Byte strings that part in order have hex keys that part in order, below the nibbles of the later
one already. -/
theorem parts_keybytesToHex {a b : List UInt8} (h : KeyOrder.Parts a b) :
    KeyOrder.Parts (keybytesToHex a) (keybytesToHex b).dropLast := by
  rw [dropLast_keybytesToHex, keybytesToHex]
  refine (h.flatMap fun x y hxy => ?_).append_left _
  -- a byte below another has a smaller high nibble, or the same high nibble and a smaller low one
  rw [UInt8.lt_iff_toNat_lt] at hxy
  by_cases hhi : x / 16 = y / 16
  · refine KeyOrder.parts_cons_cons.2 (.inr ⟨hhi, KeyOrder.parts_cons_cons.2 (.inl ?_)⟩)
    have e := congrArg UInt8.toNat hhi
    rw [UInt8.lt_iff_toNat_lt]
    simp only [UInt8.toNat_div, UInt8.toNat_mod, UInt8.reduceToNat] at e ⊢
    omega
  · refine KeyOrder.parts_cons_cons.2 (.inl ?_)
    have e : (x / 16).toNat ≠ (y / 16).toNat := fun e => hhi (UInt8.toNat_inj.1 e)
    rw [UInt8.lt_iff_toNat_lt]
    simp only [UInt8.toNat_div, UInt8.reduceToNat] at e ⊢
    omega

theorem length_decodeNibbles_le : ∀ hex : List UInt8, (decodeNibbles hex).length ≤ hex.length
  | a :: b :: rest => by
    have := length_decodeNibbles_le rest
    simp only [decodeNibbles, List.length_cons]
    omega
  | [] | [_] => by simp [decodeNibbles]

theorem length_hexToCompact_le (hex : List UInt8) : (hexToCompact hex).length ≤ hex.length + 1 := by
  -- both branches: a flag byte, then at most as many bytes as nibbles
  have key : ∀ (t : UInt8) (H : List UInt8), H.length ≤ hex.length →
      (if H.length % 2 = 1 then ((t <<< 5 ||| (1 : UInt8) <<< 4) ||| H.headD 0) :: decodeNibbles H.tail
        else t <<< 5 :: decodeNibbles H).length ≤ hex.length + 1 := by
    intro t H hH
    have h1 := length_decodeNibbles_le H.tail
    have h2 := length_decodeNibbles_le H
    split_ifs <;> simp only [List.length_cons, List.length_tail] at h1 ⊢ <;> omega
  unfold hexToCompact
  split_ifs
  · exact key 1 _ (by simp)
  · exact key 0 _ (Nat.le_refl _)

/-- Writing the compact key over the hex key gives the compact key. -/
theorem hexToCompactInPlace_eq (hex : List UInt8) : hexToCompactInPlace hex = hexToCompact hex := by
  have hterm : (0 < hex.length ∧ hex.getLast? = some 16) ↔ hasTerm hex = true := by
    cases hex <;> simp [hasTerm]
  have hodd : ∀ l : List UInt8, (l.length &&& 1 = 1) ↔ l.length % 2 = 1 := fun l => by
    rw [Nat.and_one_is_mod]
  simp only [hexToCompactInPlace, hexToCompact, hterm, hodd]
  split_ifs <;> rfl

theorem decodeNibbles_nil : decodeNibbles [] = [] := rfl

theorem decodeNibbles_cons_cons (a b : UInt8) (rest : List UInt8) :
    decodeNibbles (a :: b :: rest) = (a <<< 4 ||| b) :: decodeNibbles rest := rfl

theorem toNat_pack {a b : UInt8} (ha : a < 16) (hb : b < 16) : (a <<< 4 ||| b).toNat = a.toNat * 16 + b.toNat := by
  have ha' : a.toNat < 16 := ha
  have hb' : b.toNat < 16 := hb
  have hs : a.toNat <<< 4 % 2 ^ 8 = a.toNat <<< 4 := by rw [Nat.shiftLeft_eq]; omega
  rw [UInt8.toNat_or, UInt8.toNat_shiftLeft, show (4 : UInt8).toNat % 8 = 4 from rfl, hs,
    ← Nat.shiftLeft_add_eq_or_of_lt (by omega : b.toNat < 2 ^ 4), Nat.shiftLeft_eq]

/-- A byte packed from two nibbles gives them back as its high and low nibble. -/
theorem pack_div_mod {a b : UInt8} (ha : a < 16) (hb : b < 16) :
    (a <<< 4 ||| b) / 16 = a ∧ (a <<< 4 ||| b) % 16 = b := by
  have ha' : a.toNat < 16 := ha
  have hb' : b.toNat < 16 := hb
  have hv := toNat_pack ha hb
  constructor <;> apply UInt8.toNat_inj.1
  · rw [UInt8.toNat_div, hv, show (16 : UInt8).toNat = 16 from rfl]
    omega
  · rw [UInt8.toNat_mod, hv, show (16 : UInt8).toNat = 16 from rfl]
    omega

/-- A byte is its high nibble, moved up, next to its low nibble. -/
theorem pack_nibbles (b : UInt8) : (b / 16) <<< 4 ||| b % 16 = b := by
  have hhi : b / 16 < 16 := by
    rw [UInt8.lt_iff_toNat_lt, UInt8.toNat_div]
    have := b.toNat_lt
    simp only [UInt8.reduceToNat]
    omega
  have hlo : b % 16 < 16 := by
    rw [UInt8.lt_iff_toNat_lt, UInt8.toNat_mod]
    simp only [UInt8.reduceToNat]
    omega
  apply UInt8.toNat_inj.1
  rw [toNat_pack hhi hlo, UInt8.toNat_div, UInt8.toNat_mod, show (16 : UInt8).toNat = 16 from rfl]
  omega

/-- `keybytesToHex` unpacks what `decodeNibbles` packs. -/
theorem flatMap_decodeNibbles : ∀ {p : List UInt8}, Nibbles p → p.length % 2 = 0 →
    (decodeNibbles p).flatMap (fun b => [b / 16, b % 16]) = p
  | [], _, _ => rfl
  | [_], _, h => absurd h (by simp)
  | a :: b :: rest, hp, h => by
    have hab := pack_div_mod (hp a (by simp)) (hp b (by simp))
    have hrest : rest.length % 2 = 0 := by simp at h; omega
    rw [decodeNibbles, List.flatMap_cons, hab.1, hab.2,
      flatMap_decodeNibbles (fun x hx => hp x (by simp [hx])) hrest]
    rfl

/-- `decodeNibbles` packs what `keybytesToHex` unpacks. -/
theorem decodeNibbles_flatMap (str : List UInt8) : decodeNibbles (str.flatMap fun b => [b / 16, b % 16]) = str := by
  induction str with
  | nil => rfl
  | cons b str ih =>
    rw [List.flatMap_cons, List.cons_append, List.cons_append, List.nil_append, decodeNibbles_cons_cons,
      pack_nibbles, ih]

/-- `hexToKeybytes` undoes `keybytesToHex`. -/
theorem hexToKeybytes_keybytesToHex (k : List UInt8) : hexToKeybytes (keybytesToHex k) = some k := by
  have heven : (keybytesToHex k).dropLast.length &&& 1 = 0 := by
    rw [List.length_dropLast, length_keybytesToHex, Nat.and_one_is_mod]
    omega
  simp only [hexToKeybytes, (hexKey_keybytesToHex k).hasTerm_eq_true, if_true, heven, ne_eq, not_true_eq_false,
    if_false]
  rw [dropLast_keybytesToHex, decodeNibbles_flatMap]

/-- `compactToHex` of a flag byte before packed nibbles: the flag's high nibble says whether the key
ends in the terminator (from `2` on) and whether its low nibble is the first of the key (odd). -/
theorem compactToHex_flag {f : UInt8} {q : List UInt8} (hq : Nibbles q) (he : q.length % 2 = 0) :
    compactToHex (f :: decodeNibbles q) =
      (if f / 16 < 2 then f / 16 :: f % 16 :: q else f / 16 :: f % 16 :: (q ++ [16])).drop
        (2 - (f / 16 &&& 1)).toNat := by
  have hk : keybytesToHex (f :: decodeNibbles q) = f / 16 :: f % 16 :: (q ++ [16]) := by
    rw [keybytesToHex, List.flatMap_cons, flatMap_decodeNibbles hq he]
    rfl
  simp only [compactToHex, reduceCtorEq, if_false, hk, List.headD_cons]
  split_ifs
  · rw [List.dropLast_cons_of_ne_nil (by simp), List.dropLast_cons_of_ne_nil (by simp), List.dropLast_concat]
    rfl
  · rfl

theorem Nibbles.hasTerm_eq_false {p : List UInt8} (hp : Nibbles p) : hasTerm p = false := by
  cases h : p.getLast? with
  | none => simp [hasTerm, h]
  | some x =>
    have hx := hp x (List.mem_of_getLast? h)
    simp only [hasTerm, h, decide_eq_false_iff_not, Option.some.injEq]
    rintro rfl
    exact absurd hx (by decide)

/-- `compactToHex` undoes `hexToCompact` on a run of nibbles. -/
theorem compactToHex_hexToCompact_nibbles {p : List UInt8} (hp : Nibbles p) :
    compactToHex (hexToCompact p) = p := by
  simp only [hexToCompact, hp.hasTerm_eq_false, Bool.false_eq_true, if_false]
  split_ifs with hodd
  · obtain ⟨x, q, rfl⟩ := List.exists_cons_of_length_pos (l := p) (by omega)
    have hx : x < 16 := hp x (by simp)
    have hq : Nibbles q := fun y hy => hp y (by simp [hy])
    have hf := pack_div_mod (show (1 : UInt8) < 16 by decide) hx
    rw [show ((0 : UInt8) <<< 5 ||| (1 : UInt8) <<< 4) = (1 : UInt8) <<< 4 from rfl, List.headD_cons, List.tail_cons,
      compactToHex_flag hq (by simp at hodd; omega), hf.1, hf.2]
    rfl
  · rw [compactToHex_flag hp (by omega)]
    rfl

/-- `compactToHex` undoes `hexToCompact` on a hex key. -/
theorem compactToHex_hexToCompact_hexKey {k : List UInt8} (hk : HexKey k) :
    compactToHex (hexToCompact k) = k := by
  have ht := hk.hasTerm_eq_true
  obtain ⟨p, hp, rfl⟩ := hk.exists_nibbles_append
  simp only [hexToCompact, ht, if_true, List.dropLast_concat]
  split_ifs with hodd
  · obtain ⟨x, q, rfl⟩ := List.exists_cons_of_length_pos (l := p) (by omega)
    have hx : x < 16 := hp x (by simp)
    have hq : Nibbles q := fun y hy => hp y (by simp [hy])
    have hf := pack_div_mod (show (3 : UInt8) < 16 by decide) hx
    rw [show ((1 : UInt8) <<< 5 ||| (1 : UInt8) <<< 4) = (3 : UInt8) <<< 4 from rfl, List.headD_cons, List.tail_cons,
      compactToHex_flag hq (by simp at hodd; omega), hf.1, hf.2]
    rfl
  · rw [compactToHex_flag hp (by omega)]
    rfl

/-! ### The in-place encoding -/

theorem length_decodeNibbles : ∀ hex : List UInt8, (decodeNibbles hex).length = hex.length / 2
  | [] => rfl
  | [_] => by simp [decodeNibbles]
  | a :: b :: rest => by
    rw [decodeNibbles_cons_cons, List.length_cons, length_decodeNibbles rest, List.length_cons,
      List.length_cons]
    omega

theorem decodeNibbles_append_pair : ∀ {l : List UInt8}, l.length % 2 = 0 → ∀ a b : UInt8,
    decodeNibbles (l ++ [a, b]) = decodeNibbles l ++ [a <<< 4 ||| b]
  | [], _, _, _ => rfl
  | [_], h, _, _ => absurd h (by simp)
  | x :: y :: rest, h, a, b => by
    have hrest : rest.length % 2 = 0 := by simp at h; omega
    rw [List.cons_append, List.cons_append, decodeNibbles_cons_cons, decodeNibbles_cons_cons,
      decodeNibbles_append_pair hrest, List.cons_append]

/-- The buffer after `j` rounds of the loop started at nibble `s`: the first byte as it was, the
`j` bytes packed so far, and the rest of the key as it was. -/
def inPlaceBuffer (hex : List UInt8) (s j : Nat) : List UInt8 :=
  hex.take 1 ++ decodeNibbles ((hex.drop s).take (2 * j)) ++ hex.drop (1 + j)

section InPlace

variable {hex : List UInt8} {s j : Nat}

theorem length_decodeNibbles_take (hj : s + 2 * j ≤ hex.length) :
    (decodeNibbles ((hex.drop s).take (2 * j))).length = j := by
  rw [length_decodeNibbles, List.length_take, List.length_drop]
  omega

/-- The loop reads the key as it was: the first byte, and every byte past the ones written. -/
theorem getElem?_inPlaceBuffer (h0 : 0 < hex.length) (hj : s + 2 * j ≤ hex.length) {k : Nat}
    (hk : k = 0 ∨ 1 + j ≤ k) : (inPlaceBuffer hex s j)[k]? = hex[k]? := by
  have hD := length_decodeNibbles_take hj
  have h1 : (hex.take 1).length = 1 := by simp; omega
  rcases hk with rfl | hk
  · rw [inPlaceBuffer, List.append_assoc, List.getElem?_append_left (by omega), List.getElem?_take_of_lt (by omega)]
  · rw [inPlaceBuffer, List.getElem?_append_right (by simp only [List.length_append]; omega), List.getElem?_drop,
      List.length_append, h1, hD]
    congr 1
    omega

/-- A round of the loop writes the next packed byte in place. -/
theorem set_inPlaceBuffer {a b : UInt8} (hj : s + 2 * j ≤ hex.length) (ha : hex[s + 2 * j]? = some a)
    (hb : hex[s + 2 * j + 1]? = some b) (h1j : 1 + j < hex.length) :
    (inPlaceBuffer hex s j).set (1 + j) (a <<< 4 ||| b) = inPlaceBuffer hex s (j + 1) := by
  have hD := length_decodeNibbles_take hj
  have h1 : (hex.take 1).length = 1 := by simp; omega
  -- the nibbles packed so far grow by the pair just read
  have htake : (hex.drop s).take (2 * (j + 1)) = (hex.drop s).take (2 * j) ++ [a, b] := by
    rw [show 2 * (j + 1) = 2 * j + 1 + 1 by omega, List.take_add_one, List.take_add_one, List.getElem?_drop,
      List.getElem?_drop, ha, show s + (2 * j + 1) = s + 2 * j + 1 by omega, hb]
    simp
  have hpack : decodeNibbles ((hex.drop s).take (2 * (j + 1))) =
      decodeNibbles ((hex.drop s).take (2 * j)) ++ [a <<< 4 ||| b] := by
    rw [htake, decodeNibbles_append_pair (by simp; omega)]
  rw [inPlaceBuffer, List.set_append_right _ _ (by simp only [List.length_append]; omega), List.length_append, h1, hD,
    Nat.sub_self, List.drop_eq_getElem_cons h1j, List.set_cons_zero, inPlaceBuffer, hpack,
    show 1 + (j + 1) = 1 + j + 1 by omega]
  simp

theorem length_inPlaceBuffer (hj : s + 2 * j ≤ hex.length) (h1j : 1 + j ≤ hex.length) :
    (inPlaceBuffer hex s j).length = hex.length := by
  rw [inPlaceBuffer, List.length_append, List.length_append, length_decodeNibbles_take hj, List.length_take,
    List.length_drop]
  omega

theorem inPlaceBuffer_zero : inPlaceBuffer hex s 0 = hex := by
  rw [inPlaceBuffer, Nat.mul_zero, List.take_zero, decodeNibbles_nil, List.append_nil, Nat.add_zero,
    List.take_append_drop]

theorem compactInPlaceLoop_succ (hexLen fuel ni bi : Nat) (buf : List UInt8) :
    compactInPlaceLoop hexLen (fuel + 1) ni bi buf =
      if ni < hexLen then
        match buf[ni]?, buf[ni + 1]? with
        | some a, some b =>
          if bi < buf.length then compactInPlaceLoop hexLen fuel (ni + 2) (bi + 1) (buf.set bi (a <<< 4 ||| b))
          else none
        | _, _ => none
      else some buf := rfl

/-- The loop packs the nibbles from `s` up to `hexLen`, each pair read before a byte is written over
it; the induction is on the fuel, with the buffer after `j` rounds as the invariant. -/
theorem compactInPlaceLoop_eq {hexLen : Nat} (h0 : 0 < hex.length) (hlen : hexLen ≤ hex.length)
    (hpar : (hexLen - s) % 2 = 0) (hsl : s ≤ hexLen) :
    ∀ fuel j, s + 2 * j ≤ hexLen → (hexLen - (s + 2 * j)) / 2 < fuel →
      compactInPlaceLoop hexLen fuel (s + 2 * j) (1 + j) (inPlaceBuffer hex s j) =
        some (inPlaceBuffer hex s ((hexLen - s) / 2)) := by
  intro fuel
  induction fuel with
  | zero => intro j _ hf; omega
  | succ fuel ih =>
    intro j hj hf
    rw [compactInPlaceLoop_succ]
    by_cases hlt : s + 2 * j < hexLen
    · -- a pair is left: both nibbles still hold the key's bytes
      have hj2 : s + 2 * j + 2 ≤ hexLen := by omega
      have ha := getElem?_inPlaceBuffer (s := s) (j := j) h0 (by omega) (k := s + 2 * j) (by omega)
      have hb := getElem?_inPlaceBuffer (s := s) (j := j) h0 (by omega) (k := s + 2 * j + 1) (by omega)
      rw [List.getElem?_eq_getElem (by omega : s + 2 * j < hex.length)] at ha
      rw [List.getElem?_eq_getElem (by omega : s + 2 * j + 1 < hex.length)] at hb
      rw [if_pos hlt, ha, hb]
      dsimp only
      rw [if_pos (by rw [length_inPlaceBuffer (by omega) (by omega)]; omega),
        set_inPlaceBuffer (by omega) (List.getElem?_eq_getElem _) (List.getElem?_eq_getElem _) (by omega),
        show s + 2 * j + 2 = s + 2 * (j + 1) by omega, show 1 + j + 1 = 1 + (j + 1) by omega]
      exact ih (j + 1) (by omega) (by omega)
    · -- the loop ends after the last pair
      rw [if_neg hlt]
      congr 2
      omega

/-- The key as `hex[0] = firstByte` leaves it, cut at `binLen`. -/
theorem take_set_inPlaceBuffer (h0 : 0 < hex.length) (hj : s + 2 * j ≤ hex.length) (f : UInt8) :
    ((inPlaceBuffer hex s j).set 0 f).take (j + 1) = f :: decodeNibbles ((hex.drop s).take (2 * j)) := by
  obtain ⟨x, xs, rfl⟩ := List.exists_cons_of_length_pos h0
  rw [inPlaceBuffer, List.take_succ_cons, List.take_zero, List.singleton_append, List.cons_append,
    List.set_cons_zero, List.take_succ_cons, List.take_append_of_le_length (Nat.le_of_eq (length_decodeNibbles_take hj).symm),
    List.take_of_length_le (Nat.le_of_eq (length_decodeNibbles_take hj))]

end InPlace

/-- After the terminator is looked at, the in-place encoding writes the flag byte and the packed
nibbles of the first `hexLen` bytes, as `hexToCompact` builds them. -/
theorem compactInPlaceFrom_eq {hex : List UInt8} {hexLen : Nat} (t : UInt8) (h0 : 0 < hex.length)
    (hlen : hexLen ≤ hex.length) :
    ∃ buf, compactInPlaceFrom hex t hexLen = some (hexLen / 2 + 1, buf) ∧ hexLen / 2 + 1 ≤ buf.length ∧
      buf.take (hexLen / 2 + 1) =
        if (hex.take hexLen).length % 2 = 1 then
          ((t ||| (1 : UInt8) <<< 4) ||| (hex.take hexLen).headD 0) :: decodeNibbles (hex.take hexLen).tail
        else t :: decodeNibbles (hex.take hexLen) := by
  have hH : (hex.take hexLen).length = hexLen := by simp; omega
  have hodd : (hexLen &&& 1 = 1) ↔ hexLen % 2 = 1 := by rw [Nat.and_one_is_mod]
  rw [hH]
  unfold compactInPlaceFrom
  by_cases hpar : hexLen % 2 = 1
  · -- odd: the first nibble goes into the flag byte and the loop starts at nibble 1
    obtain ⟨x, xs, rfl⟩ := List.exists_cons_of_length_pos h0
    obtain ⟨k, rfl⟩ : ∃ k, hexLen = k + 1 := ⟨hexLen - 1, by omega⟩
    have hl : (x :: xs).length = xs.length + 1 := rfl
    have hloop := compactInPlaceLoop_eq (s := 1) h0 hlen (by omega) (by omega) (k + 1 + 1) 0 (by omega) (by omega)
    rw [Nat.mul_zero, Nat.add_zero, inPlaceBuffer_zero] at hloop
    have hk : (k + 1 - 1) / 2 = (k + 1) / 2 := by omega
    rw [hk] at hloop
    refine ⟨(inPlaceBuffer (x :: xs) 1 ((k + 1) / 2)).set 0 ((t ||| (1 : UInt8) <<< 4) ||| x), ?_, ?_, ?_⟩
    · rw [if_pos (hodd.2 hpar)]
      simp only [List.getElem?_cons_zero, Option.map_some, Option.bind_some]
      rw [hloop]
      simp only [Option.bind_some]
      rw [if_pos (by rw [length_inPlaceBuffer (by omega) (by omega)]; simp)]
    · rw [List.length_set, length_inPlaceBuffer (by omega) (by omega)]
      omega
    · rw [take_set_inPlaceBuffer h0 (by omega), if_pos hpar, List.take_succ_cons, List.headD_cons, List.tail_cons,
        List.drop_one, List.tail_cons, show 2 * ((k + 1) / 2) = k by omega]
  · -- even: the flag byte is the terminator bit alone and the loop starts at nibble 0
    have hloop := compactInPlaceLoop_eq (s := 0) h0 hlen (by omega) (by omega) (hexLen + 1) 0 (by omega) (by omega)
    rw [Nat.mul_zero, Nat.add_zero, inPlaceBuffer_zero, Nat.sub_zero] at hloop
    refine ⟨(inPlaceBuffer hex 0 (hexLen / 2)).set 0 t, ?_, ?_, ?_⟩
    · rw [if_neg (fun h => hpar (hodd.1 h))]
      simp only [Option.bind_some]
      rw [hloop]
      simp only [Option.bind_some]
      rw [if_pos (by rw [length_inPlaceBuffer (by omega) (by omega)]; exact h0)]
    · rw [List.length_set, length_inPlaceBuffer (by omega) (by omega)]
      omega
    · rw [take_set_inPlaceBuffer h0 (by omega), if_neg hpar, List.drop_zero, show 2 * (hexLen / 2) = hexLen by omega]

/-- On a non-empty key, the in-place encoding leaves the compact key in the first `binLen` bytes. -/
theorem hexToCompactInPlaceRun_eq {hex : List UInt8} (h0 : hex ≠ []) :
    ∃ n buf, hexToCompactInPlaceRun hex = some (n, buf) ∧ n ≤ buf.length ∧ buf.take n = hexToCompact hex := by
  have hpos : 0 < hex.length := List.length_pos_of_ne_nil h0
  have hterm : (0 < hex.length ∧ hex[hex.length - 1]? = some 16) ↔ hasTerm hex = true := by
    simp [hasTerm, List.getLast?_eq_getElem?, hpos]
  unfold hexToCompactInPlaceRun
  by_cases ht : hasTerm hex = true
  · obtain ⟨buf, hrun, hle, htake⟩ := compactInPlaceFrom_eq ((1 : UInt8) <<< 5) hpos (show hex.length - 1 ≤ hex.length by omega)
    refine ⟨_, buf, by rw [if_pos (hterm.2 ht)]; exact hrun, hle, ?_⟩
    rw [htake, hexToCompact]
    simp only [ht, if_true, List.dropLast_eq_take]
  · obtain ⟨buf, hrun, hle, htake⟩ := compactInPlaceFrom_eq 0 hpos (Nat.le_refl hex.length)
    refine ⟨_, buf, by rw [if_neg (fun h => ht (hterm.1 h))]; exact hrun, hle, ?_⟩
    rw [htake, hexToCompact, List.take_length]
    simp only [ht, Bool.false_eq_true, if_false]
    rfl

example : hexToCompactInPlaceRun [1, 2, 3, 16] = some (2, [0x31, 0x23, 3, 16]) := by decide

/-- The hex-prefix encoding is undone by `compactToHex` on every run of nibbles, with or without the
terminator; on every non-empty key the in-place encoding leaves the compact key in the first `binLen`
bytes of the buffer; and `hexToKeybytes` undoes `keybytesToHex`. -/
theorem trie_key_encodings_round_trip :
    (∀ h : List UInt8, Nibbles h ∨ HexKey h → compactToHex (hexToCompact h) = h) ∧
    (∀ h : List UInt8, h ≠ [] →
      ∃ n buf, hexToCompactInPlaceRun h = some (n, buf) ∧ n ≤ buf.length ∧ buf.take n = hexToCompact h) ∧
    ∀ k : List UInt8, hexToKeybytes (keybytesToHex k) = some k := by
  refine ⟨fun h hh => ?_, fun h hne => hexToCompactInPlaceRun_eq hne, hexToKeybytes_keybytesToHex⟩
  rcases hh with hn | hk
  · exact compactToHex_hexToCompact_nibbles hn
  · exact compactToHex_hexToCompact_hexKey hk

theorem trie_key_encodings_round_trip_leaf :
    compactToHex (hexToCompact [1, 2, 16]) = [1, 2, 16] ∧
      ∃ n buf, hexToCompactInPlaceRun [1, 2, 16] = some (n, buf) ∧ n ≤ buf.length ∧
        buf.take n = hexToCompact [1, 2, 16] :=
  ⟨trie_key_encodings_round_trip.1 _ (.inr (.nibble (by decide) (.nibble (by decide) .term))),
    trie_key_encodings_round_trip.2.1 _ (by simp)⟩

/-- The empty key: `hexToCompact` gives the flag byte alone, and the in-place encoding panics at
`hex[0] = firstByte`. -/
theorem hexToCompactInPlaceRun_nil : hexToCompactInPlaceRun [] = none ∧ hexToCompact [] = [0] := by
  decide

/-! ### Common prefixes -/

theorem prefixLen_nil_left (b : List UInt8) : prefixLen [] b = 0 := rfl

theorem prefixLen_nil_right (x : UInt8) (a : List UInt8) : prefixLen (x :: a) [] = 0 := rfl

theorem prefixLen_cons_cons (x y : UInt8) (a b : List UInt8) :
    prefixLen (x :: a) (y :: b) = if x = y then prefixLen a b + 1 else 0 := rfl

theorem prefixLen_le_left (a b : List UInt8) : prefixLen a b ≤ a.length := by
  induction a generalizing b with
  | nil => simp [prefixLen_nil_left]
  | cons x a ih =>
    cases b with
    | nil => simp [prefixLen_nil_right]
    | cons y b =>
      simp only [prefixLen_cons_cons, List.length_cons]
      split_ifs
      · exact Nat.succ_le_succ (ih b)
      · exact Nat.zero_le _

theorem prefixLen_comm (a b : List UInt8) : prefixLen a b = prefixLen b a := by
  induction a generalizing b with
  | nil => cases b <;> simp [prefixLen_nil_left, prefixLen_nil_right]
  | cons x a ih =>
    cases b with
    | nil => simp [prefixLen_nil_left, prefixLen_nil_right]
    | cons y b =>
      simp only [prefixLen_cons_cons, ih b]
      by_cases h : x = y
      · simp [h]
      · simp [h, Ne.symm h]

theorem prefixLen_le_right (a b : List UInt8) : prefixLen a b ≤ b.length :=
  prefixLen_comm b a ▸ prefixLen_le_left b a

/-- Both keys start with the same `prefixLen` bytes. -/
theorem take_prefixLen (a b : List UInt8) : a.take (prefixLen a b) = b.take (prefixLen a b) := by
  induction a generalizing b with
  | nil => simp [prefixLen_nil_left]
  | cons x a ih =>
    cases b with
    | nil => simp [prefixLen_nil_right]
    | cons y b =>
      simp only [prefixLen_cons_cons]
      split_ifs with h
      · simp [h, ih b]
      · simp

/-- After the common prefix, the keys differ or one of them has ended. -/
theorem getElem?_prefixLen_ne (a b : List UInt8) :
    a[prefixLen a b]? = none ∨ b[prefixLen a b]? = none ∨ a[prefixLen a b]? ≠ b[prefixLen a b]? := by
  induction a generalizing b with
  | nil => simp [prefixLen_nil_left]
  | cons x a ih =>
    cases b with
    | nil => simp [prefixLen_nil_right]
    | cons y b =>
      simp only [prefixLen_cons_cons]
      split_ifs with h
      · simpa using ih b
      · simp [h]

/-- The whole of `a` is a common prefix exactly when `a` is a prefix of `b`. -/
theorem prefixLen_eq_length_iff (a b : List UInt8) : prefixLen a b = a.length ↔ a <+: b := by
  induction a generalizing b with
  | nil => simp [prefixLen_nil_left]
  | cons x a ih =>
    cases b with
    | nil => simp [prefixLen_nil_right]
    | cons y b =>
      simp only [prefixLen_cons_cons, List.length_cons, List.cons_prefix_cons]
      split_ifs with h
      · simp [h, ih b]
      · simp [h]

end Go420coin.Trie
