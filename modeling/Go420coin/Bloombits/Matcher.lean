import Go420coin.Bloombits.Generator
import Go420coin.Common.Bitwise
import Go420coin.Lib.Interval

/-!
# The bloom bits matcher (`core/bloombits/matcher.go`)

A matcher looks for the blocks whose blooms have, for each of its filters, all three bits of one
of the filter's clauses.  It does not read the blooms: it reads the rotated bit vectors of a section
(one per bloom bit, see `Generator`) and, for each filter in turn, ANDs the three vectors of each
clause, ORs the clauses and ANDs the result into the vector of the section, dropping the section
as soon as no bit is left.  `Start` then sends the blocks of each section whose bit is set,
skipping a zero byte whole.

The goroutines, channels and schedulers of the pipeline carry each section through the sub-matchers
in order, so the model follows one section at a time: `fetch bit section` is the vector a retrieval
delivers for it (the scheduler's guarantee, see `Scheduler`).  When the vectors are the rotated
blooms of the chain, the blocks sent are exactly the blocks between `begin` and `end` whose bloom
the filters accept (`start_eq_filter`): the index loses no block and adds none.
-/

namespace Go420coin.Bloombits

open Go420coin.Types Go420coin.Bitutil

/-- `bloomIndexes`: the three bloom bits of a key. -/
abbrev BloomIndexes := Vector Nat 3

/-- `Matcher`, the fields matching reads: the section size and the filters, each a list of
clauses. -/
structure Matcher where
  sectionSize : Nat
  filters : List (List BloomIndexes)

section Keccak

variable (keccak : List UInt8 → List UInt8)

/-- `calcBloomIndexes`. -/
def calcBloomIndexes (b : List UInt8) : BloomIndexes :=
  let h := keccak b
  Vector.ofFn fun i : Fin 3 => (((h.getD (2 * i.val) 0).toNat <<< 8) &&& 2047) + (h.getD (2 * i.val + 1) 0).toNat

/-- `NewMatcher`: a filter without clauses is skipped, and so is a filter with a nil clause
(`none`). -/
def newMatcher (sectionSize : Nat) (filters : List (List (Option (List UInt8)))) : Matcher :=
  { sectionSize
    filters := filters.filterMap fun filter =>
      if filter.length = 0 then none else filter.mapM fun clause => clause.map (calcBloomIndexes keccak) }

end Keccak

/-- The vector of one clause in a section (`andVector`): the vector of its first bit copied into
`sectionSize / 8` zero bytes, then the other two ANDed in. -/
def andVector (sectionSize : Nat) (fetch : Nat → List UInt8) (bits : BloomIndexes) : List UInt8 :=
  inPlace (· &&& ·) (inPlace (· &&& ·) (copyBytes (List.replicate (sectionSize / 8) 0) (fetch bits[0]))
    (fetch bits[1])) (fetch bits[2])

/-- The OR of the clauses' vectors (`orVector`); `none`, Go's nil, for a filter without clauses. -/
def orVector (sectionSize : Nat) (fetch : Nat → List UInt8) (bloom : List BloomIndexes) : Option (List UInt8) :=
  bloom.foldl (fun orVec bits => some (match orVec with
    | none => andVector sectionSize fetch bits
    | some o => inPlace (· ||| ·) o (andVector sectionSize fetch bits))) none

/-- A sub-matcher on one section (the second goroutine of `subMatch`): the OR of its clauses, zeros
for none, ANDed with the incoming vector and passed on only if a bit is left (`TestBytes`).  The
incoming vector is never nil: `run` starts from `bytes.Repeat` and each sub-matcher passes on
its own vector. -/
def subMatch (sectionSize : Nat) (fetch : Nat → List UInt8) (bloom : List BloomIndexes) (bitset : List UInt8) :
    Option (List UInt8) :=
  let orVec := inPlace (· &&& ·) ((orVector sectionSize fetch bloom).getD (List.replicate (sectionSize / 8) 0)) bitset
  if testBytes orVec then some orVec else none

/-- `run`: the sections from `begin / sectionSize` to `end / sectionSize` in order, each from the
all-ones vector through one sub-matcher per filter; the results (`partialMatches`) of those that
reach the sink.  `fetch bit section` is the vector a retrieval delivers. -/
def Matcher.run (m : Matcher) (fetch : Nat → Nat → List UInt8) (begin end_ : Nat) : List (Nat × List UInt8) :=
  (List.range' (begin / m.sectionSize) (end_ / m.sectionSize + 1 - begin / m.sectionSize)).filterMap fun s =>
    (m.filters.foldlM (fun bitset bloom => subMatch m.sectionSize (fetch · s) bloom bitset)
      (List.replicate (m.sectionSize / 8) 0xff)).map (s, ·)

/-- The loop of `Start` over the blocks `i` from `first` to `last` of a section starting at
`sectionStart`: a block is sent where its bit is set (`next&(1<<bit)`), and a zero byte is skipped
whole when it is read at a block `i` with `i % 8 = 0`.  `none` where the byte read lies past the
vector, where Go panics. -/
def startLoop (sectionStart last : Nat) (bitset : List UInt8) (i : Nat) : Option (List Nat) :=
  if i ≤ last then
    match bitset[(i - sectionStart) / 8]? with
    | none => none
    | some next =>
      if next = 0 then startLoop sectionStart last bitset (if i % 8 = 0 then i + 7 + 1 else i + 1)
      else if next &&& mask i ≠ 0 then (startLoop sectionStart last bitset (i + 1)).map (i :: ·)
      else startLoop sectionStart last bitset (i + 1)
  else some []
termination_by last + 1 - i
decreasing_by
  all_goals first
    | omega
    | split <;> omega

/-- The blocks `Start` sends for one result of the sink: those of its section between `begin` and
`end`. -/
def sectionBlocks (sectionSize begin end_ : Nat) (res : Nat × List UInt8) : Option (List Nat) :=
  let sectionStart := res.1 * sectionSize
  startLoop sectionStart (min end_ (sectionStart + sectionSize - 1)) res.2 (max begin sectionStart)

/-- `Start`: the blocks the session sends, in order; `none` where the loop panics. -/
def Matcher.start (m : Matcher) (fetch : Nat → Nat → List UInt8) (begin end_ : Nat) : Option (List Nat) :=
  ((m.run fetch begin end_).mapM (sectionBlocks m.sectionSize begin end_)).map List.flatten

/-! ### What the matcher looks for -/

/-- A filter hits a bloom where all three bits of one of its clauses are set. -/
def hits (bloom : Bloom) (filter : List BloomIndexes) : Bool :=
  filter.any fun bits => bits.toList.all (bloom.bit ·)

/-- The blooms the matcher looks for: every filter hits them. -/
def Matcher.accepts (m : Matcher) (bloom : Bloom) : Bool := m.filters.all (hits bloom)

/-- `fetch` delivers the rotated bloom bits of the chain `bloomOf` for its first `sections` sections:
the vector of bit `b` in section `s` has `sectionSize / 8` bytes, and its bit `j` is bit `b` of the
bloom of block `s * sectionSize + j`. -/
def Rotated (sectionSize sections : Nat) (bloomOf : Nat → Bloom) (fetch : Nat → Nat → List UInt8) : Prop :=
  ∀ b < 2048, ∀ s < sections, (fetch b s).length = sectionSize / 8 ∧
    ∀ j < sectionSize, bitAt (fetch b s) j = (bloomOf (s * sectionSize + j)).bit b

/-- The indexes of `calcBloomIndexes` are the positions of the bits `Bloom.add` sets. -/
theorem calcBloomIndexes_eq (keccak : List UInt8 → List UInt8) (b : List UInt8) :
    (calcBloomIndexes keccak b).toList = bloomPositions keccak b := by
  have hpos : ∀ hi lo : UInt8, ((hi.toNat <<< 8) &&& 2047) + lo.toNat = bloomPos hi lo := by
    intro hi lo
    have hlo := lo.toNat_lt
    rw [Nat.shiftLeft_eq, show (2047 : Nat) = 2 ^ 11 - 1 from rfl, Nat.and_two_pow_sub_one_eq_mod, bloomPos]
    omega
  simp only [calcBloomIndexes, Vector.toList_ofFn, List.ofFn_succ, List.ofFn_zero, bloomPositions, hpos]
  rfl

theorem lt_of_mem_calcBloomIndexes (keccak : List UInt8 → List UInt8) (b : List UInt8) {k : Nat}
    (hk : k ∈ (calcBloomIndexes keccak b).toList) : k < 2048 := by
  rw [calcBloomIndexes_eq] at hk
  exact lt_of_mem_bloomPositions keccak hk

/-- The index of blocks whose blooms are empty is all zeros. -/
theorem rotated_empty (z n : Nat) : Rotated z n (fun _ => Bloom.empty) (fun _ _ => List.replicate (z / 8) 0) :=
  fun _ _ _ _ => ⟨List.length_replicate .., fun j _ => by rw [bitAt_replicate_zero, bit_empty]⟩

/-! ### One clause, one filter, one sub-matcher -/

theorem toList_bloomIndexes (bits : BloomIndexes) : bits.toList = [bits[0], bits[1], bits[2]] := by
  apply List.ext_getElem (by simp)
  intro n h _
  rw [Vector.length_toList] at h
  interval_cases n <;> simp

section Vectors

variable {sectionSize : Nat} {fetch : Nat → List UInt8}

/-- The vectors a clause reads have the section's length. -/
def ClauseLengths (sectionSize : Nat) (fetch : Nat → List UInt8) (bits : BloomIndexes) : Prop :=
  ∀ b ∈ bits.toList, (fetch b).length = sectionSize / 8

theorem andVector_eq {bits : BloomIndexes} (hlen : ClauseLengths sectionSize fetch bits) :
    andVector sectionSize fetch bits =
      List.zipWith (· &&& ·) (List.zipWith (· &&& ·) (fetch bits[0]) (fetch bits[1])) (fetch bits[2]) := by
  have h0 := hlen bits[0] (by simp [toList_bloomIndexes])
  have h1 := hlen bits[1] (by simp [toList_bloomIndexes])
  have h2 := hlen bits[2] (by simp [toList_bloomIndexes])
  unfold andVector
  rw [copyBytes_of_length (by rw [h0, List.length_replicate]), inPlace_of_length _ (h0.trans h1.symm),
    inPlace_of_length _ (by rw [length_zipWith_self _ (h0.trans h1.symm), h0, h2])]

theorem length_andVector {bits : BloomIndexes} (hlen : ClauseLengths sectionSize fetch bits) :
    (andVector sectionSize fetch bits).length = sectionSize / 8 := by
  have h0 := hlen bits[0] (by simp [toList_bloomIndexes])
  have h1 := hlen bits[1] (by simp [toList_bloomIndexes])
  have h2 := hlen bits[2] (by simp [toList_bloomIndexes])
  rw [andVector_eq hlen, length_zipWith_self _ (by rw [length_zipWith_self _ (h0.trans h1.symm), h0, h2]),
    length_zipWith_self _ (h0.trans h1.symm), h0]

/-- A clause's vector has a bit where all three of its vectors do. -/
theorem bitAt_andVector {bits : BloomIndexes} (hlen : ClauseLengths sectionSize fetch bits) (j : Nat) :
    bitAt (andVector sectionSize fetch bits) j = bits.toList.all fun b => bitAt (fetch b) j := by
  have h0 := hlen bits[0] (by simp [toList_bloomIndexes])
  have h1 := hlen bits[1] (by simp [toList_bloomIndexes])
  have h2 := hlen bits[2] (by simp [toList_bloomIndexes])
  rw [andVector_eq hlen, bitAt_zipWith_and (by rw [length_zipWith_self _ (h0.trans h1.symm), h0, h2]),
    bitAt_zipWith_and (h0.trans h1.symm), toList_bloomIndexes]
  simp only [List.all_cons, List.all_nil, Bool.and_true, Bool.and_assoc]

/-- The OR of a filter's clauses, zeros for none, has the section's length and a bit where one of
the clauses' vectors does. -/
theorem orVector_spec {bloom : List BloomIndexes} (hlen : ∀ bits ∈ bloom, ClauseLengths sectionSize fetch bits) :
    ((orVector sectionSize fetch bloom).getD (List.replicate (sectionSize / 8) 0)).length = sectionSize / 8 ∧
      ∀ j, bitAt ((orVector sectionSize fetch bloom).getD (List.replicate (sectionSize / 8) 0)) j =
        bloom.any fun bits => bitAt (andVector sectionSize fetch bits) j := by
  -- the accumulator, read with zeros for nil, has the section's length throughout
  let inv : Option (List UInt8) → Prop := fun o => (o.getD (List.replicate (sectionSize / 8) 0)).length = sectionSize / 8
  have hstep : ∀ o, ∀ bits ∈ bloom, inv o → inv (some (match o with
      | none => andVector sectionSize fetch bits
      | some o => inPlace (· ||| ·) o (andVector sectionSize fetch bits))) := by
    intro o bits hbits ho
    cases o with
    | none => exact length_andVector (hlen bits hbits)
    | some o =>
      have ho : o.length = sectionSize / 8 := ho
      show (inPlace (· ||| ·) o (andVector sectionSize fetch bits)).length = sectionSize / 8
      rw [inPlace_of_length _ (ho.trans (length_andVector (hlen bits hbits)).symm), length_zipWith_self _
        (ho.trans (length_andVector (hlen bits hbits)).symm)]
      exact ho
  refine ⟨Loop.foldl_preserves inv bloom hstep (by simp [inv]), fun j => ?_⟩
  have h := Loop.foldl_or_any inv (fun o => bitAt (o.getD (List.replicate (sectionSize / 8) 0)) j)
    (fun bits => bitAt (andVector sectionSize fetch bits) j) bloom hstep ?_ (b := none) (by simp [inv])
  · rw [Option.getD_none, bitAt_replicate_zero, Bool.false_or] at h
    exact h
  · intro o bits hbits ho
    cases o with
    | none => simp
    | some o =>
      have ho : o.length = sectionSize / 8 := ho
      show bitAt (inPlace (· ||| ·) o (andVector sectionSize fetch bits)) j = (bitAt o j || _)
      rw [inPlace_of_length _ (ho.trans (length_andVector (hlen bits hbits)).symm),
        bitAt_zipWith_or (ho.trans (length_andVector (hlen bits hbits)).symm)]

/-- A sub-matcher ANDs the OR of its clauses into the incoming vector and passes the result on if a
bit is left. -/
theorem subMatch_eq {bloom : List BloomIndexes} (hlen : ∀ bits ∈ bloom, ClauseLengths sectionSize fetch bits)
    {bitset : List UInt8} (hb : bitset.length = sectionSize / 8) :
    ∃ w, w.length = sectionSize / 8 ∧
      (∀ j, bitAt w j = ((bloom.any fun bits => bitAt (andVector sectionSize fetch bits) j) && bitAt bitset j)) ∧
      subMatch sectionSize fetch bloom bitset = if testBytes w then some w else none := by
  obtain ⟨hor, hbits⟩ := orVector_spec hlen
  have hl := hor.trans hb.symm
  refine ⟨List.zipWith (· &&& ·) ((orVector sectionSize fetch bloom).getD (List.replicate (sectionSize / 8) 0)) bitset,
    (length_zipWith_self _ hl).trans hor, fun j => ?_, ?_⟩
  · rw [bitAt_zipWith_and hl, hbits]
  · unfold subMatch
    rw [inPlace_of_length _ hl]

end Vectors

/-! ### Sending the blocks of a section -/

/-- The loop of `Start` sends the blocks from `i` to `last` whose bit is set, given that the section
starts on a byte boundary and its vector reaches `last`.  Skipping a zero byte skips only blocks
whose bit is unset. -/
theorem startLoop_eq {ss last : Nat} {v : List UInt8} (h8 : ss % 8 = 0) (hlast : last < ss + 8 * v.length)
    (i : Nat) (hi : ss ≤ i) :
    startLoop ss last v i = some ((List.range' i (last + 1 - i)).filter fun k => bitAt v (k - ss)) := by
  fun_induction startLoop ss last v i with
  | case1 i hle hnone =>
    -- the byte read lies within the vector
    rw [List.getElem?_eq_none_iff] at hnone
    omega
  | case2 i hle hzero ih =>
    -- a zero byte: the blocks it holds fail the test, up to the jump
    have hbyte : ∀ k, ss ≤ k → (k - ss) / 8 = (i - ss) / 8 → bitAt v (k - ss) = false := by
      intro k hk hk8
      rw [bitAt, hk8, List.getD_eq_getElem?_getD, hzero, Option.getD_some, UInt8.toNat_zero, Nat.zero_testBit]
    split_ifs at ih ⊢ with h0
    · rw [ih (by omega), Interval.filter_range'_skip (p := fun k => bitAt v (k - ss)) (i := i) (m := 8) (fun k hk hk' => hbyte k (by omega) (by omega)),
        show i + 7 + 1 = i + 8 by omega, show last + 1 - (i + 8) = last + 1 - i - 8 by omega]
    · rw [ih (by omega), Interval.filter_range'_skip (p := fun k => bitAt v (k - ss)) (i := i) (m := 1) (fun k hk hk' => hbyte k (by omega) (by omega)),
        show last + 1 - (i + 1) = last + 1 - i - 1 by omega]
  | case3 i hle next hnext hne hmask ih =>
    -- the bit of `i` is set: `mask i` reads bit `7 - i % 8`, and the section starts on a byte
    have hbit : bitAt v (i - ss) = true := by
      rw [bitAt_of_getElem? hnext, show (i - ss) % 8 = i % 8 by omega]
      exact (and_mask_ne_zero_iff next i).1 hmask
    rw [ih (by omega), Option.map_some, show last + 1 - i = last + 1 - (i + 1) + 1 by omega, List.range'_succ,
      List.filter_cons, if_pos hbit]
  | case4 i hle next hnext hne hmask ih =>
    have hbit : bitAt v (i - ss) = false := by
      rw [bitAt_of_getElem? hnext, show (i - ss) % 8 = i % 8 by omega]
      exact Bool.eq_false_iff.2 fun h => hmask ((and_mask_ne_zero_iff next i).2 h)
    rw [ih (by omega), show last + 1 - i = last + 1 - (i + 1) + 1 by omega, List.range'_succ, List.filter_cons,
      if_neg (by rw [hbit]; decide)]
  | case5 i hgt =>
    rw [show last + 1 - i = 0 by omega, List.range'_zero, List.filter_nil]

/-! ### A section through the sub-matchers -/

section Section

variable {z n : Nat} {bloomOf : Nat → Bloom} {fetch : Nat → Nat → List UInt8} {s : Nat}

private theorem any_congr_mem {α : Type} {l : List α} {p q : α → Bool} (h : ∀ a ∈ l, p a = q a) :
    l.any p = l.any q := by
  induction l with
  | nil => rfl
  | cons a l ih =>
    rw [List.any_cons, List.any_cons, h a List.mem_cons_self, ih fun b hb => h b (List.mem_cons_of_mem a hb)]

/-- The rotated vectors hold no bit past the section. -/
theorem bitAt_rotated (hrot : Rotated z n bloomOf fetch) (hs : s < n) (h8 : z % 8 = 0) {b : Nat} (hb : b < 2048)
    (j : Nat) : bitAt (fetch b s) j = (decide (j < z) && (bloomOf (s * z + j)).bit b) := by
  by_cases hj : j < z
  · rw [(hrot b hb s hs).2 j hj, decide_eq_true hj, Bool.true_and]
  · rw [bitAt_of_le (by rw [(hrot b hb s hs).1]; omega), decide_eq_false hj, Bool.false_and]

theorem clauseLengths_rotated (hrot : Rotated z n bloomOf fetch) (hs : s < n) {bits : BloomIndexes}
    (hbits : ∀ b ∈ bits.toList, b < 2048) : ClauseLengths z (fetch · s) bits :=
  fun b hb => (hrot b (hbits b hb) s hs).1

/-- On rotated vectors, a clause's vector holds the blocks whose bloom has its three bits. -/
theorem bitAt_andVector_rotated (hrot : Rotated z n bloomOf fetch) (hs : s < n) (h8 : z % 8 = 0)
    {bits : BloomIndexes} (hbits : ∀ b ∈ bits.toList, b < 2048) (j : Nat) :
    bitAt (andVector z (fetch · s) bits) j = (decide (j < z) && bits.toList.all ((bloomOf (s * z + j)).bit ·)) := by
  have h0 := hbits bits[0] (by simp [toList_bloomIndexes])
  have h1 := hbits bits[1] (by simp [toList_bloomIndexes])
  have h2 := hbits bits[2] (by simp [toList_bloomIndexes])
  rw [bitAt_andVector (clauseLengths_rotated hrot hs hbits), toList_bloomIndexes]
  simp only [List.all_cons, List.all_nil, Bool.and_true]
  rw [bitAt_rotated hrot hs h8 h0, bitAt_rotated hrot hs h8 h1, bitAt_rotated hrot hs h8 h2]
  cases decide (j < z) <;> simp

/-- On rotated vectors, the OR of a filter's clauses holds the blocks the filter hits. -/
theorem any_andVector_rotated (hrot : Rotated z n bloomOf fetch) (hs : s < n) (h8 : z % 8 = 0)
    {f : List BloomIndexes} (hf : ∀ bits ∈ f, ∀ b ∈ bits.toList, b < 2048) (j : Nat) :
    (f.any fun bits => bitAt (andVector z (fetch · s) bits) j) = (decide (j < z) && hits (bloomOf (s * z + j)) f) := by
  rw [any_congr_mem fun bits hb => bitAt_andVector_rotated hrot hs h8 (hf bits hb) j, hits]
  cases decide (j < z) <;> simp

/-- The sub-matchers, one per filter, on a section whose incoming vector holds the blocks where `Q`
holds: the section is dropped where no block passes them all, and otherwise comes out holding the
blocks that do.  The induction is on the filters, in the order of the chain. -/
theorem foldlM_subMatch (hrot : Rotated z n bloomOf fetch) (hs : s < n) (h8 : z % 8 = 0) :
    ∀ (fs : List (List BloomIndexes)), (∀ f ∈ fs, ∀ bits ∈ f, ∀ b ∈ bits.toList, b < 2048) →
    ∀ (v : List UInt8) (Q : Nat → Bool), v.length = z / 8 → (∀ j, bitAt v j = (decide (j < z) && Q j)) →
      (fs.foldlM (fun bitset bloom => subMatch z (fetch · s) bloom bitset) v = none ∧
          ∀ j < z, (Q j && fs.all (hits (bloomOf (s * z + j)))) = false) ∨
        ∃ w, fs.foldlM (fun bitset bloom => subMatch z (fetch · s) bloom bitset) v = some w ∧ w.length = z / 8 ∧
          ∀ j, bitAt w j = (decide (j < z) && (Q j && fs.all (hits (bloomOf (s * z + j)))))
  | [], _, v, Q, hv, hbits => .inr ⟨v, rfl, hv, fun j => by rw [hbits, List.all_nil, Bool.and_true]⟩
  | f :: fs, hfs, v, Q, hv, hbits => by
    have hf : ∀ bits ∈ f, ∀ b ∈ bits.toList, b < 2048 := hfs f List.mem_cons_self
    obtain ⟨w, hw, hwbits, hsub⟩ := subMatch_eq (fun bits hb => clauseLengths_rotated hrot hs (hf bits hb)) hv
    -- the sub-matcher keeps the blocks where `Q` holds and the filter hits
    have hw' : ∀ j, bitAt w j = (decide (j < z) && (Q j && hits (bloomOf (s * z + j)) f)) := by
      intro j
      rw [hwbits, hbits, any_andVector_rotated hrot hs h8 hf]
      cases decide (j < z) <;> simp [Bool.and_comm]
    rw [List.foldlM_cons, hsub]
    by_cases ht : testBytes w = true
    · rw [if_pos ht, Option.bind_eq_bind, Option.bind_some]
      rcases foldlM_subMatch hrot hs h8 fs (fun f' hf' => hfs f' (List.mem_cons_of_mem f hf')) w
          (fun j => Q j && hits (bloomOf (s * z + j)) f) hw hw' with ⟨hnone, hno⟩ | ⟨w', hrun, hlen', hbits'⟩
      · exact .inl ⟨hnone, fun j hj => by rw [List.all_cons, ← Bool.and_assoc, hno j hj]⟩
      · exact .inr ⟨w', hrun, hlen', fun j => by rw [hbits', List.all_cons, Bool.and_assoc]⟩
    · rw [if_neg ht, Option.bind_eq_bind, Option.bind_none]
      -- a dropped section has no block left
      refine .inl ⟨rfl, fun j hj => ?_⟩
      have hj0 : bitAt w j = false := Bool.eq_false_iff.2 fun h => ht ((testBytes_iff_bitAt w).2 ⟨j, h⟩)
      rw [hw', decide_eq_true hj, Bool.true_and] at hj0
      rw [List.all_cons, ← Bool.and_assoc, hj0, Bool.false_and]

/-- A section through the whole chain, from the all-ones vector of `run`: dropped where no block
of the section has a bloom the matcher accepts, and otherwise holding the blocks that do. -/
theorem run_section {m : Matcher} (hrot : Rotated m.sectionSize n bloomOf fetch) (hs : s < n)
    (h8 : m.sectionSize % 8 = 0) (hbits : ∀ f ∈ m.filters, ∀ bits ∈ f, ∀ b ∈ bits.toList, b < 2048) :
    (m.filters.foldlM (fun bitset bloom => subMatch m.sectionSize (fetch · s) bloom bitset)
          (List.replicate (m.sectionSize / 8) 0xff) = none ∧
        ∀ j < m.sectionSize, m.accepts (bloomOf (s * m.sectionSize + j)) = false) ∨
      ∃ w, m.filters.foldlM (fun bitset bloom => subMatch m.sectionSize (fetch · s) bloom bitset)
          (List.replicate (m.sectionSize / 8) 0xff) = some w ∧ w.length = m.sectionSize / 8 ∧
        ∀ j, bitAt w j = (decide (j < m.sectionSize) && m.accepts (bloomOf (s * m.sectionSize + j))) := by
  have hones : ∀ j, bitAt (List.replicate (m.sectionSize / 8) 0xff) j = (decide (j < m.sectionSize) && true) := by
    intro j
    rw [bitAt_replicate_ff, Bool.and_true, show 8 * (m.sectionSize / 8) = m.sectionSize by omega]
  rcases foldlM_subMatch hrot hs h8 m.filters hbits _ (fun _ => true) (List.length_replicate ..) hones with
    ⟨hnone, hno⟩ | ⟨w, hrun, hlen, hw⟩
  · exact .inl ⟨hnone, fun j hj => by rw [← hno j hj, Bool.true_and]; rfl⟩
  · exact .inr ⟨w, hrun, hlen, fun j => by rw [hw, Bool.true_and]; rfl⟩

/-- The blocks `Start` sends for a section that reached the sink are those between `begin` and `end`
that the vector holds. -/
theorem sectionBlocks_eq (hz : 0 < z) (h8 : z % 8 = 0) {acc : Bloom → Bool} {w : List UInt8}
    (hw : w.length = z / 8) (hbits : ∀ j, bitAt w j = (decide (j < z) && acc (bloomOf (s * z + j)))) (b e : Nat) :
    sectionBlocks z b e (s, w) =
      some ((List.range' (max b (s * z)) (min e (s * z + z - 1) + 1 - max b (s * z))).filter fun k => acc (bloomOf k)) := by
  have hss : s * z % 8 = 0 := Nat.mod_eq_zero_of_dvd (Dvd.dvd.mul_left (Nat.dvd_of_mod_eq_zero h8) s)
  unfold sectionBlocks
  dsimp only
  rw [startLoop_eq hss (by rw [hw]; omega) _ (Nat.le_max_right _ _)]
  congr 1
  apply List.filter_congr
  intro k hk
  rw [List.mem_range'_1] at hk
  rw [hbits, decide_eq_true (by omega), Bool.true_and, Nat.add_sub_cancel' (by omega)]

/-- A dropped section holds no block between `begin` and `end` that the matcher would send. -/
theorem filter_section_eq_nil (hz : 0 < z) {acc : Bloom → Bool}
    (hno : ∀ j < z, acc (bloomOf (s * z + j)) = false) (b e : Nat) :
    (List.range' (max b (s * z)) (min e (s * z + z - 1) + 1 - max b (s * z))).filter (fun k => acc (bloomOf k)) = [] := by
  apply List.filter_eq_nil_iff.2
  intro k hk
  rw [List.mem_range'_1] at hk
  have h := hno (k - s * z) (by omega)
  rw [Nat.add_sub_cancel' (by omega)] at h
  rw [h]
  decide

/-- The results of a stage that drops the items whose output would be empty flatten to the outputs
of all the items. -/
private theorem mapM_filterMap_flatten {α β γ : Type} (g : α → Option β) (h : β → Option (List γ)) (F : α → List γ) :
    ∀ (l : List α), (∀ a ∈ l, (g a = none ∧ F a = []) ∨ ∃ r, g a = some r ∧ h r = some (F a)) →
      ((l.filterMap g).mapM h).map List.flatten = some (l.flatMap F)
  | [], _ => rfl
  | a :: l, hl => by
    have ih := mapM_filterMap_flatten g h F l fun a' ha' => hl a' (List.mem_cons_of_mem a ha')
    rw [List.flatMap_cons]
    rcases hl a List.mem_cons_self with ⟨hg, hF⟩ | ⟨r, hg, hr⟩
    · rw [List.filterMap_cons_none hg, hF, List.nil_append, ih]
    · rw [List.filterMap_cons_some hg, List.mapM_cons, hr]
      obtain ⟨ys, hys, hflat⟩ := Option.map_eq_some_iff.1 ih
      rw [hys]
      simp [← hflat]

end Section

/-- The matcher's pipeline over rotated bloom bits is exact: given sections of a positive multiple of
8 blocks and the vectors of the chain's blooms up to the section of `end`, the session sends, in
order, exactly the blocks from `begin` to `end` whose bloom the filters accept. -/
theorem start_eq_filter {m : Matcher} (hz : 0 < m.sectionSize) (h8 : m.sectionSize % 8 = 0)
    (hbits : ∀ f ∈ m.filters, ∀ bits ∈ f, ∀ b ∈ bits.toList, b < 2048) {sections : Nat}
    {bloomOf : Nat → Bloom} {fetch : Nat → Nat → List UInt8} (hrot : Rotated m.sectionSize sections bloomOf fetch)
    (begin end_ : Nat) (hend : end_ / m.sectionSize < sections) :
    m.start fetch begin end_ = some ((List.range' begin (end_ + 1 - begin)).filter fun i => m.accepts (bloomOf i)) := by
  unfold Matcher.start Matcher.run
  -- each section contributes its blocks between `begin` and `end` that the matcher accepts
  rw [mapM_filterMap_flatten _ _ (fun s => (List.range' (max begin (s * m.sectionSize))
      (min end_ (s * m.sectionSize + m.sectionSize - 1) + 1 - max begin (s * m.sectionSize))).filter
        fun k => m.accepts (bloomOf k))]
  · rw [← List.filter_flatMap, Interval.flatMap_clamp hz]
  · intro s hs
    rw [List.mem_range'_1] at hs
    rcases run_section (s := s) hrot (by omega) h8 hbits with ⟨hnone, hno⟩ | ⟨w, hrun, hlen, hw⟩
    · exact .inl ⟨by rw [hnone]; rfl, filter_section_eq_nil hz hno begin end_⟩
    · exact .inr ⟨(s, w), by rw [hrun]; rfl, sectionBlocks_eq hz h8 hlen hw begin end_⟩

theorem start_eq_filter_empty :
    (0 < 8 ∧ 8 % 8 = 0 ∧ Rotated 8 1 (fun _ => Bloom.empty) (fun _ _ => List.replicate (8 / 8) 0) ∧ 7 / 8 < 1) ∧
      (⟨8, [[#v[0, 1, 2]]]⟩ : Matcher).start (fun _ _ => List.replicate (8 / 8) 0) 0 7 =
        some ((List.range' 0 (7 + 1 - 0)).filter fun _ => (⟨8, [[#v[0, 1, 2]]]⟩ : Matcher).accepts Bloom.empty) := by
  refine ⟨⟨by decide, by decide, rotated_empty 8 1, by decide⟩,
    start_eq_filter (by decide) (by decide) ?_ (rotated_empty 8 1) 0 7 (by decide)⟩
  intro f hf bits hbits b hb
  simp only [List.mem_cons, List.not_mem_nil, or_false] at hf
  subst hf
  simp only [List.mem_cons, List.not_mem_nil, or_false] at hbits
  subst hbits
  simp only [Vector.toList_mk, List.mem_cons, List.not_mem_nil, or_false] at hb
  omega

end Go420coin.Bloombits
