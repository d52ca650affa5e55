import Go420coin.Lib.BitArray
import Go420coin.Vm.Smoke

/-!
# Jump destination analysis (`core/vm/analysis.go`, `core/vm/contract.go`)

`codeBitmap` marks the bytes of the code that are data, the immediates of the `PUSHn`
instructions, in a bit vector with four spare bytes, so that a `PUSH32` at the end of the code
writes inside it.  Long immediates are marked eight bits at a time by `set8`, which straddles two
bytes of the vector.

The decoding it follows is the orbit of `0` under `nextPc` (`IsBoundary`): a `PUSHn` at `q` makes
`q + 1, …, q + n` data and the next instruction starts at `q + n + 1`.  The bitmap is computed with
no index out of range, and a position of the code is a code segment exactly when it is such a
boundary (`codeBitmap_spec`).

`validJumpdest` and `validJumpSubdest` read the bitmap through `isCode`, which takes it from the
contract, from the parent's `jumpdests` map under the code hash, or computes it and stores it.  If
the bitmaps a contract can find there are its code's (`Contract.Inv`), every `validJumpdest` query
answers by the decoding and leaves them so (`validJumpdest_spec`, `validJumpdests_spec`).
-/

namespace Go420coin.Vm

open BitArray

/-- `PUSH1`. -/
def PUSH1 : UInt8 := 0x60

/-- `PUSH32`. -/
def PUSH32 : UInt8 := 0x7f

/-- `JUMPDEST`. -/
def JUMPDEST : UInt8 := 0x5b

/-- `BEGINSUB`. -/
def BEGINSUB : UInt8 := 0x5c

/-! ### `bitvec` -/

/-- `bitvec.set`: marks position `pos`; out of range it panics. -/
def bitvecSet (bits : Array UInt8) (pos : Nat) : Option (Array UInt8) :=
  if pos / 8 < bits.size then some (bits.modify (pos / 8) (· ||| (0x80 >>> (pos % 8).toUInt8)))
  else none

/-- `bitvec.set8`: marks positions `pos` to `pos + 7`, in byte `pos / 8` and the next. -/
def bitvecSet8 (bits : Array UInt8) (pos : Nat) : Option (Array UInt8) :=
  if pos / 8 + 1 < bits.size then
    some (((bits.modify (pos / 8) (· ||| (0xFF >>> (pos % 8).toUInt8))).modify (pos / 8 + 1)
      (· ||| ~~~(0xFF >>> (pos % 8).toUInt8))))
  else none

/-- `bitvec.codeSegment`: whether position `pos` is unmarked. -/
def codeSegment (bits : Array UInt8) (pos : Nat) : Option Bool :=
  if h : pos / 8 < bits.size then some ((bits[pos / 8] &&& (0x80 >>> (pos % 8).toUInt8)) == 0) else none

/-- The first loop over a push's immediate: `for ; numbits >= 8; numbits -= 8 { bits.set8(pc); pc += 8 }`. -/
def setOctets : Nat → Nat → Array UInt8 → Option (Nat × Nat × Array UInt8)
  | numbits + 8, pc, bits => (bitvecSet8 bits pc).bind fun bits => setOctets numbits (pc + 8) bits
  | numbits, pc, bits => some (numbits, pc, bits)

/-- The second loop: `for ; numbits > 0; numbits-- { bits.set(pc); pc++ }`. -/
def setBits : Nat → Nat → Array UInt8 → Option (Nat × Array UInt8)
  | numbits + 1, pc, bits => (bitvecSet bits pc).bind fun bits => setBits numbits (pc + 1) bits
  | 0, pc, bits => some (pc, bits)

/-- The loop of `codeBitmap` from `pc`, for at most `fuel` instructions. -/
def codeBitmapLoop (code : List UInt8) : Nat → Nat → Array UInt8 → Option (Array UInt8)
  | 0, _, _ => none
  | fuel + 1, pc, bits =>
    if pc < code.length then
      let op := code.getD pc 0
      if op ≥ PUSH1 && op ≤ PUSH32 then
        let numbits := (op - PUSH1 + 1).toNat
        match setOctets numbits (pc + 1) bits with
        | none => none
        | some (numbits, pc, bits) =>
          match setBits numbits pc bits with
          | none => none
          | some (pc, bits) => codeBitmapLoop code fuel pc bits
      else codeBitmapLoop code fuel (pc + 1) bits
    else some bits

/-- `codeBitmap`; each pass moves `pc` on, so the code's length bounds the passes. -/
def codeBitmap (code : List UInt8) : Option (Array UInt8) :=
  codeBitmapLoop code (code.length + 1) 0 (Array.replicate (code.length / 8 + 1 + 4) 0)

/-! ### The decoding -/

/-- Where the instruction after the one at `q` starts. -/
def nextPc (code : List UInt8) (q : Nat) : Nat :=
  let op := code.getD q 0
  if op ≥ PUSH1 && op ≤ PUSH32 then q + (op - PUSH1 + 1).toNat + 1 else q + 1

/-- The instruction boundaries of the left-to-right decoding. -/
inductive IsBoundary (code : List UInt8) : Nat → Prop
  | zero : IsBoundary code 0
  | next {q : Nat} : IsBoundary code q → q < code.length → IsBoundary code (nextPc code q)

/-! ### The contract's analysis -/

/-- `Contract`, the fields the jump checks read and write; `jumpdests` is the parent's map. -/
structure Contract where
  code : List UInt8
  codeHash : Hash
  analysis : Option (Array UInt8)
  jumpdests : Hash → Option (Array UInt8)

/-- `common.Hash{}`. -/
def zeroHash : Hash := Vector.replicate 32 0

/-- `Contract.isCode`: the analysis from the contract, else from `jumpdests` under the code hash,
else a new one, stored in `jumpdests` when there is a code hash. -/
def Contract.isCode (c : Contract) (udest : Nat) : Option (Bool × Contract) :=
  match c.analysis with
  | some analysis => (codeSegment analysis udest).map (·, c)
  | none =>
    if c.codeHash ≠ zeroHash then
      let found : Option (Array UInt8 × (Hash → Option (Array UInt8))) :=
        match c.jumpdests c.codeHash with
        | some analysis => some (analysis, c.jumpdests)
        | none => (codeBitmap c.code).map fun analysis =>
            (analysis, Function.update c.jumpdests c.codeHash (some analysis))
      found.bind fun (analysis, jumpdests) =>
        (codeSegment analysis udest).map (·, { c with analysis := some analysis, jumpdests := jumpdests })
    else
      (codeBitmap c.code).bind fun analysis =>
        (codeSegment analysis udest).map (·, { c with analysis := some analysis })

/-- The checks of a target in range: the opcode there, then `isCode`. -/
def Contract.destAt (c : Contract) (opcode : UInt8) (udest : Nat) : Option (Bool × Contract) :=
  if c.code.getD udest 0 ≠ opcode then some (false, c) else c.isCode udest

/-- `Contract.validJumpdest`. -/
def Contract.validJumpdest (c : Contract) (dest : BitVec 256) : Option (Bool × Contract) :=
  let (udest, overflow) := uint64WithOverflow dest
  if overflow || udest.toNat ≥ c.code.length then some (false, c) else c.destAt JUMPDEST udest.toNat

/-- `Contract.validJumpSubdest`: its range check reads the target as an `int64`. -/
def Contract.validJumpSubdest (c : Contract) (udest : UInt64) : Option (Bool × Contract) :=
  if udest.toInt64 < 0 || udest.toNat ≥ c.code.length then some (false, c) else c.destAt BEGINSUB udest.toNat

/-- The jump checks of one execution, each on the contract the one before left. -/
def Contract.validJumpdests (c : Contract) : List (BitVec 256) → Option (List Bool × Contract)
  | [] => some ([], c)
  | dest :: dests =>
    (c.validJumpdest dest).bind fun (b, c) => (c.validJumpdests dests).map fun (bs, c) => (b :: bs, c)

/-! ### Marking the data -/

theorem bitvecSet_spec {bits : Array UInt8} {pos : Nat} (h : pos / 8 < bits.size) :
    ∃ bits', bitvecSet bits pos = some bits' ∧ bits'.size = bits.size ∧
      ∀ i, testBit bits' i = true ↔ testBit bits i = true ∨ i = pos := by
  refine ⟨bits.modify (pos / 8) (· ||| (0x80 >>> (pos % 8).toUInt8)), by rw [bitvecSet, if_pos h],
    Array.size_modify, fun i => ?_⟩
  have hk : pos % 8 < 8 := Nat.mod_lt _ (by decide)
  have hr : i % 8 < 8 := Nat.mod_lt _ (by decide)
  rw [testBit_modify_or, testBit_oneBit hk hr]
  simp only [Bool.or_eq_true, Bool.and_eq_true, decide_eq_true_eq, h, and_true]
  constructor
  · rintro (h1 | ⟨h2, h3⟩)
    · exact .inl h1
    · exact .inr (by omega)
  · rintro (h1 | rfl)
    · exact .inl h1
    · exact .inr ⟨rfl, rfl⟩

theorem bitvecSet8_spec {bits : Array UInt8} {pos : Nat} (h : pos / 8 + 1 < bits.size) :
    ∃ bits', bitvecSet8 bits pos = some bits' ∧ bits'.size = bits.size ∧
      ∀ i, testBit bits' i = true ↔ testBit bits i = true ∨ (pos ≤ i ∧ i < pos + 8) := by
  refine ⟨(bits.modify (pos / 8) (· ||| (0xFF >>> (pos % 8).toUInt8))).modify (pos / 8 + 1)
      (· ||| ~~~(0xFF >>> (pos % 8).toUInt8)), by rw [bitvecSet8, if_pos h],
    by rw [Array.size_modify, Array.size_modify], fun i => ?_⟩
  have hk : pos % 8 < 8 := Nat.mod_lt _ (by decide)
  have hr : i % 8 < 8 := Nat.mod_lt _ (by decide)
  rw [testBit_modify_or, testBit_modify_or, testBit_fromBit hk hr, testBit_beforeBit hk hr, Array.size_modify]
  simp only [Bool.or_eq_true, Bool.and_eq_true, decide_eq_true_eq]
  -- the first byte holds positions from `pos` to its end, the second the rest
  constructor
  · rintro ((h1 | ⟨⟨h2, -⟩, h3⟩) | ⟨⟨h4, -⟩, h5⟩)
    · exact .inl h1
    · exact .inr (by omega)
    · exact .inr (by omega)
  · rintro (h1 | ⟨h2, h3⟩)
    · exact .inl (.inl h1)
    · by_cases hsame : i / 8 = pos / 8
      · exact .inl (.inr ⟨⟨hsame, by omega⟩, by omega⟩)
      · exact .inr ⟨⟨by omega, h⟩, by omega⟩

/-- Marking nothing. -/
theorem or_range_empty {P : Prop} {a i : Nat} : (P ∨ (a ≤ i ∧ i < a)) ↔ P :=
  ⟨fun h => h.elim id fun ⟨h₁, h₂⟩ => absurd h₂ (Nat.not_lt.mpr h₁), .inl⟩

/-- Marking `[a, b)` and then `[b, c)` marks `[a, c)`. -/
theorem or_range_append {P : Prop} {a b c i : Nat} (hab : a ≤ b) (hbc : b ≤ c) :
    ((P ∨ (a ≤ i ∧ i < b)) ∨ (b ≤ i ∧ i < c)) ↔ P ∨ (a ≤ i ∧ i < c) := by
  constructor
  · rintro ((hp | ⟨h₁, h₂⟩) | ⟨h₁, h₂⟩)
    · exact .inl hp
    · exact .inr ⟨h₁, by omega⟩
    · exact .inr ⟨by omega, h₂⟩
  · rintro (hp | ⟨h₁, h₂⟩)
    · exact .inl (.inl hp)
    · by_cases hb : i < b
      · exact .inl (.inr ⟨h₁, hb⟩)
      · exact .inr ⟨by omega, h₂⟩

theorem setOctets_of_lt {numbits : Nat} (pc : Nat) (bits : Array UInt8) (h : numbits < 8) :
    setOctets numbits pc bits = some (numbits, pc, bits) := by
  interval_cases numbits <;> rfl

theorem setOctets_add_eight (numbits pc : Nat) (bits : Array UInt8) :
    setOctets (numbits + 8) pc bits = (bitvecSet8 bits pc).bind fun bits => setOctets numbits (pc + 8) bits :=
  rfl

/-- The first loop marks the whole octets of the immediate, if they fit. -/
theorem setOctets_spec (numbits : Nat) : ∀ (pc : Nat) (bits : Array UInt8), (pc + numbits) / 8 < bits.size →
    ∃ bits', setOctets numbits pc bits = some (numbits % 8, pc + 8 * (numbits / 8), bits') ∧
      bits'.size = bits.size ∧
      ∀ i, testBit bits' i = true ↔ testBit bits i = true ∨ (pc ≤ i ∧ i < pc + 8 * (numbits / 8)) := by
  induction numbits using Nat.strong_induction_on with
  | _ numbits ih =>
    intro pc bits h
    by_cases hlt : numbits < 8
    · -- fewer than eight bits: the loop stops at once
      refine ⟨bits, ?_, rfl, fun i => ?_⟩
      · rw [setOctets_of_lt pc bits hlt, Nat.mod_eq_of_lt hlt, Nat.div_eq_of_lt hlt, Nat.mul_zero,
          Nat.add_zero]
      · rw [Nat.div_eq_of_lt hlt, Nat.mul_zero, Nat.add_zero, or_range_empty]
    · -- eight bits by `set8`, then the loop again
      obtain ⟨m, rfl⟩ : ∃ m, numbits = m + 8 := ⟨numbits - 8, by omega⟩
      obtain ⟨bits₁, h₁, hsize₁, hbits₁⟩ := @bitvecSet8_spec bits pc (by omega)
      obtain ⟨bits₂, h₂, hsize₂, hbits₂⟩ := ih m (by omega) (pc + 8) bits₁ (by rw [hsize₁]; omega)
      have hmod : (m + 8) % 8 = m % 8 := by omega
      have hpc : pc + 8 * ((m + 8) / 8) = pc + 8 + 8 * (m / 8) := by omega
      refine ⟨bits₂, ?_, hsize₂.trans hsize₁, fun i => ?_⟩
      · rw [setOctets_add_eight, h₁, Option.bind_some, h₂, hmod, hpc]
      · rw [hbits₂, hbits₁, hpc, or_range_append (by omega) (by omega)]

/-- The second loop marks the remaining bits one by one, if they fit. -/
theorem setBits_spec : ∀ (numbits pc : Nat) (bits : Array UInt8), (pc + numbits) / 8 < bits.size →
    ∃ bits', setBits numbits pc bits = some (pc + numbits, bits') ∧ bits'.size = bits.size ∧
      ∀ i, testBit bits' i = true ↔ testBit bits i = true ∨ (pc ≤ i ∧ i < pc + numbits)
  | 0, pc, bits, _ => ⟨bits, rfl, rfl, fun i => by rw [Nat.add_zero, or_range_empty]⟩
  | numbits + 1, pc, bits, h => by
    obtain ⟨bits₁, h₁, hsize₁, hbits₁⟩ := @bitvecSet_spec bits pc (by omega)
    obtain ⟨bits₂, h₂, hsize₂, hbits₂⟩ := setBits_spec numbits (pc + 1) bits₁ (by rw [hsize₁]; omega)
    have hend : pc + 1 + numbits = pc + (numbits + 1) := by omega
    refine ⟨bits₂, ?_, hsize₂.trans hsize₁, fun i => ?_⟩
    · rw [setBits, h₁, Option.bind_some, h₂, hend]
    · have hone : i = pc ↔ pc ≤ i ∧ i < pc + 1 := by omega
      rw [hbits₂, hbits₁, hone, or_range_append (by omega) (by omega), hend]

/-! ### The decoding -/

/-- A push's immediate is at most 32 bytes. -/
theorem pushWidth_le {op : UInt8} (h : (op ≥ PUSH1 && op ≤ PUSH32) = true) :
    (op - PUSH1 + 1).toNat ≤ 32 := by
  simp only [PUSH1, PUSH32, Bool.and_eq_true, decide_eq_true_eq, ge_iff_le, UInt8.le_iff_toNat_le] at h ⊢
  rw [UInt8.toNat_add, UInt8.toNat_sub_of_le _ _ (UInt8.le_iff_toNat_le.mpr h.1)]
  simp only [UInt8.reduceToNat] at *
  omega

theorem nextPc_of_push {code : List UInt8} {q : Nat}
    (h : (code.getD q 0 ≥ PUSH1 && code.getD q 0 ≤ PUSH32) = true) :
    nextPc code q = q + (code.getD q 0 - PUSH1 + 1).toNat + 1 := by
  simp only [nextPc]
  rw [if_pos h]

theorem nextPc_of_not_push {code : List UInt8} {q : Nat}
    (h : ¬(code.getD q 0 ≥ PUSH1 && code.getD q 0 ≤ PUSH32) = true) : nextPc code q = q + 1 := by
  simp only [nextPc]
  rw [if_neg h]

theorem lt_nextPc (code : List UInt8) (q : Nat) : q < nextPc code q := by
  by_cases h : (code.getD q 0 ≥ PUSH1 && code.getD q 0 ≤ PUSH32) = true
  · rw [nextPc_of_push h]
    omega
  · rw [nextPc_of_not_push h]
    omega

theorem nextPc_le (code : List UInt8) (q : Nat) : nextPc code q ≤ q + 33 := by
  by_cases h : (code.getD q 0 ≥ PUSH1 && code.getD q 0 ≤ PUSH32) = true
  · have := pushWidth_le h
    rw [nextPc_of_push h]
    omega
  · rw [nextPc_of_not_push h]
    omega

/-- No boundary falls inside an instruction: the boundary after `p` comes at `nextPc code p` or
later.  By strong induction on the later boundary `q`, which is the `nextPc` of a boundary `q'`
before it; `p` cannot lie strictly between `q'` and `q`, by the induction at `p`. -/
theorem IsBoundary.nextPc_le_of_lt {code : List UInt8} {p q : Nat} (hp : IsBoundary code p)
    (hq : IsBoundary code q) (hpq : p < q) : nextPc code p ≤ q := by
  induction q using Nat.strong_induction_on generalizing p with
  | _ q ih =>
    cases hq with
    | zero => omega
    | @next q' hq' hlen =>
      have hq'q := lt_nextPc code q'
      rcases Nat.lt_trichotomy p q' with hlt | rfl | hgt
      · exact (ih q' hq'q hp hq' hlt).trans hq'q.le
      · exact Nat.le_refl _
      · have := ih p hpq hq' hp hgt
        omega

/-! ### The bitmap -/

/-- `codeSegment` in range reads the bit back, negated. -/
theorem codeSegment_eq {bits : Array UInt8} {pos : Nat} (h : pos / 8 < bits.size) :
    codeSegment bits pos = some (!testBit bits pos) := by
  rw [codeSegment, dif_pos h, and_oneBit_eq_zero _ (Nat.mod_lt _ (by decide)), testBit,
    Array.getD_eq_getD_getElem?, Array.getElem?_eq_getElem h, Option.getD_some]

/-- One pass of the loop at a position of the code: a push marks its immediate, up to the next
instruction, and any other instruction marks nothing. -/
theorem codeBitmapLoop_step {code : List UInt8} {fuel pc : Nat} {bits : Array UInt8}
    (hpc : pc < code.length) (hsize : nextPc code pc / 8 < bits.size) :
    ∃ bits', codeBitmapLoop code (fuel + 1) pc bits = codeBitmapLoop code fuel (nextPc code pc) bits' ∧
      bits'.size = bits.size ∧
      ∀ i, testBit bits' i = true ↔ testBit bits i = true ∨ (pc + 1 ≤ i ∧ i < nextPc code pc) := by
  by_cases hop : (code.getD pc 0 ≥ PUSH1 && code.getD pc 0 ≤ PUSH32) = true
  · -- the immediate is marked eight bits at a time, then one at a time
    have hnext := nextPc_of_push hop
    generalize hn : (code.getD pc 0 - PUSH1 + 1).toNat = n at hnext
    obtain ⟨bits₁, h₁, hsize₁, hbits₁⟩ := setOctets_spec n (pc + 1) bits (by omega)
    obtain ⟨bits₂, h₂, hsize₂, hbits₂⟩ :=
      setBits_spec (n % 8) (pc + 1 + 8 * (n / 8)) bits₁ (by rw [hsize₁]; omega)
    have hend : pc + 1 + 8 * (n / 8) + n % 8 = nextPc code pc := by omega
    refine ⟨bits₂, ?_, hsize₂.trans hsize₁, fun i => ?_⟩
    · simp only [codeBitmapLoop, if_pos hpc, hop, if_true, hn, h₁, h₂, hend]
    · rw [hbits₂, hbits₁, ← hend, or_range_append (by omega) (by omega)]
  · have hnext := nextPc_of_not_push hop
    refine ⟨bits, ?_, rfl, fun i => ?_⟩
    · simp only [codeBitmapLoop, if_pos hpc]
      rw [if_neg hop, hnext]
    · rw [hnext, or_range_empty]

/-- The loop from a boundary `pc` whose marks below `pc` are exactly the non-boundaries, with the
four spare bytes and fuel enough for the instructions left, ends and marks exactly the
non-boundaries of the code.  Induction on the fuel; each pass moves `pc` to the next boundary. -/
theorem codeBitmapLoop_spec (code : List UInt8) :
    ∀ (fuel pc : Nat) (bits : Array UInt8), IsBoundary code pc → code.length - pc < fuel →
      bits.size = code.length / 8 + 5 → (∀ i, testBit bits i = true ↔ i < pc ∧ ¬IsBoundary code i) →
      ∃ bits', codeBitmapLoop code fuel pc bits = some bits' ∧ bits'.size = code.length / 8 + 5 ∧
        ∀ i < code.length, (testBit bits' i = true ↔ ¬IsBoundary code i)
  | 0, _, _, _, hfuel, _, _ => absurd hfuel (Nat.not_lt_zero _)
  | fuel + 1, pc, bits, hb, hfuel, hsize, hbits => by
    by_cases hpc : pc < code.length
    · have hnext := lt_nextPc code pc
      obtain ⟨bits', hstep, hsize', hbits'⟩ := @codeBitmapLoop_step code fuel pc bits hpc
        (by have := nextPc_le code pc; omega)
      rw [hstep]
      refine codeBitmapLoop_spec code fuel _ bits' (hb.next hpc) (by omega) (hsize'.trans hsize)
        fun i => ?_
      rw [hbits', hbits]
      -- the immediate between `pc` and the next boundary holds no boundary
      constructor
      · rintro (⟨h₁, h₂⟩ | ⟨h₁, h₂⟩)
        · exact ⟨by omega, h₂⟩
        · exact ⟨h₂, fun hi => absurd (hb.nextPc_le_of_lt hi (by omega)) (by omega)⟩
      · rintro ⟨h₁, h₂⟩
        rcases Nat.lt_trichotomy i pc with hlt | rfl | hgt
        · exact .inl ⟨hlt, h₂⟩
        · exact absurd hb h₂
        · exact .inr ⟨hgt, h₁⟩
    · refine ⟨bits, by rw [codeBitmapLoop, if_neg hpc], hsize, fun i hi => ?_⟩
      rw [hbits]
      exact ⟨And.right, fun h => ⟨by omega, h⟩⟩

/-- `codeBitmap` never indexes outside its vector, and a position of the code is a code segment
exactly when it is an instruction boundary. -/
theorem codeBitmap_spec (code : List UInt8) :
    ∃ bits, codeBitmap code = some bits ∧ bits.size = code.length / 8 + 5 ∧
      ∀ p < code.length, codeSegment bits p = some (!testBit bits p) ∧
        (testBit bits p = false ↔ IsBoundary code p) := by
  obtain ⟨bits, h, hsize, hbits⟩ := codeBitmapLoop_spec code (code.length + 1) 0
    (Array.replicate (code.length / 8 + 1 + 4) 0) .zero (by omega) (by simp)
    (fun i => by simp)
  refine ⟨bits, h, hsize, fun p hp => ⟨codeSegment_eq (by omega), ?_⟩⟩
  rw [← Bool.not_eq_true, hbits p hp, not_not]

/-! ### The jump checks -/

/-- The bitmaps a contract can find are its code's: its own analysis, and the parent's under its
code hash when it has one.  Its code is a Go slice, whose length is an `int`. -/
structure Contract.Inv (c : Contract) : Prop where
  analysis : ∀ a, c.analysis = some a → codeBitmap c.code = some a
  jumpdests : c.codeHash ≠ zeroHash → ∀ a, c.jumpdests c.codeHash = some a → codeBitmap c.code = some a
  short : c.code.length < 2 ^ 63

/-- `isCode` answers whether the position is a boundary, from whichever of the three places the
bitmap comes, and leaves the contract's bitmaps its code's. -/
theorem Contract.isCode_spec {c : Contract} (hc : c.Inv) {pos : Nat} (hpos : pos < c.code.length) :
    ∃ b c', c.isCode pos = some (b, c') ∧ (b = true ↔ IsBoundary c.code pos) ∧ c'.Inv ∧
      c'.code = c.code := by
  obtain ⟨bits, hbits, -, hseg⟩ := codeBitmap_spec c.code
  obtain ⟨hsegp, hiff⟩ := hseg pos hpos
  have hb : ((!testBit bits pos) = true ↔ IsBoundary c.code pos) := by
    rw [Bool.not_eq_true', hiff]
  -- a bitmap found in the contract or the map is the code's, by the invariant
  have hfound : ∀ {a}, codeBitmap c.code = some a → a = bits := fun h => Option.some.inj (h.symm.trans hbits)
  cases ha : c.analysis with
  | some a =>
    obtain rfl := hfound (hc.analysis a ha)
    exact ⟨_, c, by simp only [Contract.isCode, ha, hsegp, Option.map_some], hb, hc, rfl⟩
  | none =>
    by_cases hh : c.codeHash = zeroHash
    · -- initcode: computed, and kept in the contract only
      refine ⟨_, { c with analysis := some bits }, ?_, hb, ⟨?_, fun hne => absurd hh hne, hc.short⟩, rfl⟩
      · simp only [Contract.isCode, ha, hh, ne_eq, not_true_eq_false, if_false, hbits, Option.bind_some,
          hsegp, Option.map_some]
      · rintro a ⟨⟩
        exact hbits
    · cases hj : c.jumpdests c.codeHash with
      | some a =>
        -- the parent's analysis
        obtain rfl := hfound (hc.jumpdests hh a hj)
        refine ⟨_, { c with analysis := some a }, ?_, hb, ⟨?_, hc.jumpdests, hc.short⟩, rfl⟩
        · simp only [Contract.isCode, ha, hh, hj, ne_eq, not_false_eq_true, if_true, Option.bind_some,
            hsegp, Option.map_some]
        · rintro a' ⟨⟩
          exact hbits
      | none =>
        -- computed, and stored in the parent's map too
        refine ⟨_, { c with analysis := some bits,
                            jumpdests := Function.update c.jumpdests c.codeHash (some bits) }, ?_, hb,
          ⟨?_, fun _ a h => ?_, hc.short⟩, rfl⟩
        · simp only [Contract.isCode, ha, hh, hj, ne_eq, not_false_eq_true, if_true, hbits,
            Option.map_some, Option.bind_some, hsegp]
        · rintro a ⟨⟩
          exact hbits
        · dsimp only at h ⊢
          rw [Function.update_self] at h
          cases h
          exact hbits

/-- A target in range is valid when the opcode there is the one asked for and it is a boundary. -/
theorem Contract.destAt_spec {c : Contract} (hc : c.Inv) (opcode : UInt8) {pos : Nat}
    (hpos : pos < c.code.length) :
    ∃ b c', c.destAt opcode pos = some (b, c') ∧
      (b = true ↔ c.code.getD pos 0 = opcode ∧ IsBoundary c.code pos) ∧ c'.Inv ∧ c'.code = c.code := by
  by_cases hop : c.code.getD pos 0 = opcode
  · obtain ⟨b, c', h, hb, hc', hcode⟩ := c.isCode_spec hc hpos
    refine ⟨b, c', by rw [Contract.destAt, if_neg (not_not.mpr hop), h], ?_, hc', hcode⟩
    rw [hb]
    exact ⟨fun h => ⟨hop, h⟩, And.right⟩
  · exact ⟨false, c, by rw [Contract.destAt, if_pos hop],
      ⟨fun h => absurd h Bool.false_ne_true, fun h => absurd h.1 hop⟩, hc, rfl⟩

/-- `validJumpdest` holds exactly at the `JUMPDEST`s of the code that are instruction boundaries. -/
theorem Contract.validJumpdest_spec {c : Contract} (hc : c.Inv) (dest : BitVec 256) :
    ∃ b c', c.validJumpdest dest = some (b, c') ∧
      (b = true ↔ dest.toNat < c.code.length ∧ c.code.getD dest.toNat 0 = JUMPDEST ∧
        IsBoundary c.code dest.toNat) ∧ c'.Inv ∧ c'.code = c.code := by
  by_cases hin : dest.toNat < c.code.length
  · have hu : isUint64 dest = true := by
      have := hc.short
      simp only [isUint64, decide_eq_true_eq]
      omega
    obtain ⟨b, c', h, hb, hc', hcode⟩ := c.destAt_spec hc JUMPDEST hin
    refine ⟨b, c', ?_, by rw [hb]; exact ⟨fun h => ⟨hin, h⟩, And.right⟩, hc', hcode⟩
    simp only [Contract.validJumpdest, uint64WithOverflow, hu, toNat_uint64 hu, Bool.not_true,
      Bool.false_or, ge_iff_le, decide_eq_true_eq, Nat.not_le.mpr hin, if_false, h]
  · refine ⟨false, c, ?_, by simp [hin], hc, rfl⟩
    cases hu : isUint64 dest
    · simp only [Contract.validJumpdest, uint64WithOverflow, hu, Bool.not_false, Bool.true_or, if_true]
    · simp only [Contract.validJumpdest, uint64WithOverflow, hu, toNat_uint64 hu, Bool.not_true,
        Bool.false_or, ge_iff_le, decide_eq_true_eq, Nat.not_lt.mp hin, if_true]

/-- Along the jump checks of one execution every answer is by the decoding, from whichever place
each check finds the bitmap.  Induction on the checks, with `Contract.Inv` carried along. -/
theorem Contract.validJumpdests_spec {c : Contract} (hc : c.Inv) (dests : List (BitVec 256)) :
    ∃ bs c', c.validJumpdests dests = some (bs, c') ∧
      List.Forall₂ (fun dest b => b = true ↔ dest.toNat < c.code.length ∧
        c.code.getD dest.toNat 0 = JUMPDEST ∧ IsBoundary c.code dest.toNat) dests bs ∧
      c'.Inv ∧ c'.code = c.code := by
  induction dests generalizing c with
  | nil => exact ⟨[], c, rfl, .nil, hc, rfl⟩
  | cons dest dests ih =>
    obtain ⟨b, c₁, h₁, hb, hc₁, hcode₁⟩ := c.validJumpdest_spec hc dest
    obtain ⟨bs, c₂, h₂, hbs, hc₂, hcode₂⟩ := ih hc₁
    rw [hcode₁] at hbs
    refine ⟨b :: bs, c₂, ?_, .cons hb hbs, hc₂, hcode₂.trans hcode₁⟩
    simp only [Contract.validJumpdests, h₁, Option.bind_some, h₂, Option.map_some]

theorem jumpdest_analysis_decodes (code : List UInt8) :
    (∃ bits, codeBitmap code = some bits ∧
      ∀ p < code.length, ∃ b, codeSegment bits p = some b ∧ (b = true ↔ IsBoundary code p)) ∧
    ∀ c : Contract, c.code = code → c.Inv → ∀ dest, ∃ b c', c.validJumpdest dest = some (b, c') ∧
      (b = true ↔ dest.toNat < code.length ∧ code.getD dest.toNat 0 = JUMPDEST ∧
        IsBoundary code dest.toNat) ∧ c'.Inv ∧ c'.code = code := by
  refine ⟨?_, ?_⟩
  · obtain ⟨bits, h, -, hseg⟩ := codeBitmap_spec code
    refine ⟨bits, h, fun p hp => ⟨_, (hseg p hp).1, ?_⟩⟩
    rw [Bool.not_eq_true', (hseg p hp).2]
  · rintro c rfl hc dest
    exact c.validJumpdest_spec hc dest

/-- `PUSH1 0x5b; JUMPDEST` as initcode, before any analysis. -/
def pushJumpdest : Contract := ⟨[0x60, 0x5b, 0x5b], zeroHash, none, fun _ => none⟩

theorem pushJumpdest_inv : pushJumpdest.Inv :=
  ⟨fun _ h => (nomatch h), fun hne => absurd rfl hne, by decide⟩

theorem jumpdest_analysis_decodes_pushJumpdest :
    pushJumpdest.Inv ∧ ∃ b c', pushJumpdest.validJumpdest 1 = some (b, c') ∧
      (b = true ↔ (1 : BitVec 256).toNat < pushJumpdest.code.length ∧
        pushJumpdest.code.getD (1 : BitVec 256).toNat 0 = JUMPDEST ∧
        IsBoundary pushJumpdest.code (1 : BitVec 256).toNat) ∧ c'.Inv ∧ c'.code = pushJumpdest.code :=
  ⟨pushJumpdest_inv, (jumpdest_analysis_decodes pushJumpdest.code).2 pushJumpdest rfl pushJumpdest_inv 1⟩

-- the `JUMPDEST` byte inside the push is data, the one after it an instruction
example : (pushJumpdest.validJumpdest 1).map Prod.fst = some false := by decide
example : (pushJumpdest.validJumpdest 2).map Prod.fst = some true := by decide

end Go420coin.Vm
