import Go420coin.Bloombits.Matcher
import Go420coin.Common.Bitutil
import Go420coin.Lib.Except

/-!
# The bloom bits index (`420/bloombits.go`, `core/chain_indexer.go`)

The chain indexer processes the chain section by section: it resets its backend, feeds it the
canonical headers of the section in order, each the child of the one before, and commits.  The bloom
indexer's backend feeds the header blooms to a `Generator` and, on commit, writes the vector of each
of the 2048 bloom bits, compressed (`CompressBytes`), under the bit, the section and the hash of the
section's last header.  The bloom handlers read a vector back and decompress it to `sectionSize / 8`
bytes.

A section processed over a well-linked chain is committed (`processSection_ok`), and what the
handlers read back is the section's blooms rotated (`retrieve_processSection`): the bloom index is
what the matcher needs (`Rotated`).  The database is the list of the writes, a key being the bit,
section and hash that `bloomBitsKey` packs into bytes.
-/

namespace Go420coin.Fourtwenty

open Go420coin.Types Go420coin.Bloombits Go420coin.Bitutil

/-- The header fields the indexer reads: the number, the bloom, the hash and the parent's hash. -/
structure IndexedHeader where
  number : Nat
  bloom : Bloom
  hash : Hash
  parentHash : Hash

/-- The errors of processing a section, and `panic` for a nil generator, which `Reset` rules out. -/
inductive IndexError where
  | reset (e : Bloombits.Error)
  | unknownBlock (number : Nat)
  | notFound (number : Nat)
  | reorged
  | commit (e : Bloombits.Error)
  | panic
  deriving DecidableEq, Repr

/-- The key of a bloom bits vector: the bit, the section and the hash of the section's last header. -/
abbrev BloomBitsKey := Nat × Nat × Hash

/-- `BloomIndexer`: the section size, the generator of the section being processed (nil before
`Reset`), the section and the hash of the last header processed. -/
structure BloomIndexer where
  size : Nat
  gen : Option Generator
  section_ : Nat
  head : Hash

/-- `Reset`: a new generator for the section. -/
def BloomIndexer.reset (b : BloomIndexer) (section_ : Nat) : Except IndexError BloomIndexer :=
  match newGenerator b.size with
  | .ok gen => .ok { b with gen := some gen, section_, head := emptyHash }
  | .error e => .error (.reset e)

/-- `Process`: the header's bloom added at its index in the section (a `uint64` difference), the
error of `AddBloom` ignored. -/
def BloomIndexer.process (b : BloomIndexer) (header : IndexedHeader) : Except IndexError BloomIndexer :=
  match b.gen with
  | none => .error .panic
  | some gen =>
    let index := (header.number + 2 ^ 64 - b.section_ * b.size) % 2 ^ 64
    .ok { b with
      gen := some (match gen.addBloom index header.bloom with
        | .ok g => g
        | .error _ => gen)
      head := header.hash }

/-- `Commit`: the vector of every bloom bit, compressed, under the bit, the section and the head; the
first error of `Bitset` aborts the batch before it is written. -/
def BloomIndexer.commit (b : BloomIndexer) : Except IndexError (List (BloomBitsKey × List UInt8)) :=
  match b.gen with
  | none => .error .panic
  | some gen =>
    (List.range 2048).mapM fun i =>
      match gen.bitset i with
      | .ok bits => .ok ((i, b.section_, b.head), compressBytes bits)
      | .error e => .error (.commit e)

/-- The loop of `processSection` at block `number`: its canonical header, which must exist and be the
child of the last one, processed. -/
def processStep (canonicalHash : Nat → Hash) (readHeader : Hash → Nat → Option IndexedHeader)
    (acc : BloomIndexer × Hash) (number : Nat) : Except IndexError (BloomIndexer × Hash) :=
  let hash := canonicalHash number
  if hash = emptyHash then .error (.unknownBlock number)
  else
    match readHeader hash number with
    | none => .error (.notFound number)
    | some header =>
      if header.parentHash ≠ acc.2 then .error .reorged
      else (acc.1.process header).map fun b => (b, header.hash)

/-- `ChainIndexer.processSection` with the bloom indexer as backend: `Reset`, the section's blocks in
order, `Commit`; the hash of the section's last header and the writes of the batch. -/
def processSection (canonicalHash : Nat → Hash) (readHeader : Hash → Nat → Option IndexedHeader)
    (b : BloomIndexer) (section_ : Nat) (lastHead : Hash) : Except IndexError (Hash × List (BloomBitsKey × List UInt8)) := do
  let b ← b.reset section_
  let acc ← (List.range' (section_ * b.size) b.size).foldlM (processStep canonicalHash readHeader) (b, lastHead)
  let writes ← acc.1.commit
  pure (acc.2, writes)

/-- A retrieval of the bloom handlers (`startBloomHandlers`) for one bit and section: the vector
stored under the hash of the section's last canonical block, decompressed to `sectionSize / 8`
bytes. -/
def retrieve (canonicalHash : Nat → Hash) (db : List (BloomBitsKey × List UInt8)) (sectionSize bit section_ : Nat) :
    Option (List UInt8) :=
  let head := canonicalHash ((section_ + 1) * sectionSize - 1)
  match db.lookup (bit, section_, head) with
  | none => none
  | some compVector =>
    match decompressBytes compVector (sectionSize / 8) with
    | .ok blob => some blob
    | .error _ => none

/-! ### One section -/

/-- The canonical chain up to block `count`: block `i` has the header `hdr i`, numbered `i` and with
a non-zero hash, each the child of the one before and the first the child of the zero hash. -/
structure CanonicalChain (canonicalHash : Nat → Hash) (readHeader : Hash → Nat → Option IndexedHeader)
    (hdr : Nat → IndexedHeader) (count : Nat) : Prop where
  canonical : ∀ i < count, canonicalHash i = (hdr i).hash
  nonzero : ∀ i < count, (hdr i).hash ≠ emptyHash
  read : ∀ i < count, readHeader (hdr i).hash i = some (hdr i)
  number : ∀ i < count, (hdr i).number = i
  genesis : 0 < count → (hdr 0).parentHash = emptyHash
  parent : ∀ i, 0 < i → i < count → (hdr i).parentHash = (hdr (i - 1)).hash

/-- The head the chain indexer passes to `processSection` for section `s`: the last header of the
section before (`SectionHead(section - 1)`), the zero hash for the first. -/
def sectionParent (hdr : Nat → IndexedHeader) (size s : Nat) : Hash :=
  if s = 0 then emptyHash else (hdr (s * size - 1)).hash

/-- The blooms of the first `k` blocks of section `s`. -/
def sectionBlooms (hdr : Nat → IndexedHeader) (size s k : Nat) : List Bloom :=
  (List.range k).map fun j => (hdr (s * size + j)).bloom

/-- After the first `k` blocks of section `s`: the indexer is at the section, its generator holds
their blooms, and the last hash is that of the `k`-th header, or the section's parent at the start. -/
structure Processed (hdr : Nat → IndexedHeader) (size s k : Nat) (acc : BloomIndexer × Hash) : Prop where
  size_eq : acc.1.size = size
  section_eq : acc.1.section_ = s
  holds : ∃ g, acc.1.gen = some g ∧ g.sections = size ∧ g.Holds (sectionBlooms hdr size s k)
  last : acc.2 = if k = 0 then sectionParent hdr size s else (hdr (s * size + k - 1)).hash
  head : 0 < k → acc.1.head = acc.2

section Index

variable {canonicalHash : Nat → Hash} {readHeader : Hash → Nat → Option IndexedHeader} {hdr : Nat → IndexedHeader}
  {size : Nat}

theorem processed_reset (h8 : size % 8 = 0) (b : BloomIndexer) (hb : b.size = size) (s : Nat) :
    ∃ b', b.reset s = .ok b' ∧ Processed hdr size s 0 (b', sectionParent hdr size s) := by
  have hgen : newGenerator size = .ok ⟨Vector.replicate 2048 (List.replicate (size / 8) 0), size, 0⟩ := by
    unfold newGenerator
    rw [if_neg (not_not.2 h8)]
  refine ⟨_, by unfold BloomIndexer.reset; rw [hb, hgen], ?_⟩
  exact ⟨rfl, rfl, ⟨_, rfl, rfl, holds_newGenerator hgen⟩, by rw [if_pos rfl], fun h => absurd h (Nat.lt_irrefl 0)⟩

/-- One block of the loop of `processSection`: the canonical header is there and is the child of
the last one, and its bloom goes in at its index in the section. -/
theorem processStep_ok {count s k : Nat} (hc : CanonicalChain canonicalHash readHeader hdr count)
    (hk : k < size) (hcount : s * size + size ≤ count) (h64 : count ≤ 2 ^ 64) {acc : BloomIndexer × Hash}
    (hp : Processed hdr size s k acc) :
    ∃ acc', processStep canonicalHash readHeader acc (s * size + k) = .ok acc' ∧ Processed hdr size s (k + 1) acc' := by
  have hi : s * size + k < count := by omega
  obtain ⟨g, hg, hsec, hholds⟩ := hp.holds
  -- the header is the child of the last one processed
  have hparent : (hdr (s * size + k)).parentHash = acc.2 := by
    rw [hp.last]
    split_ifs with hk0
    · subst hk0
      unfold sectionParent
      split_ifs with hs0
      · subst hs0
        rw [Nat.zero_mul, Nat.zero_add]
        exact hc.genesis (by omega)
      · have : 0 < s * size := Nat.mul_pos (Nat.pos_of_ne_zero hs0) hk
        rw [hc.parent _ (by omega) hi, show s * size + 0 - 1 = s * size - 1 by omega]
    · rw [hc.parent _ (by omega) hi, show s * size + k - 1 = s * size + k - 1 from rfl]
  -- its index in the section is `k`, the next one the generator expects
  have hindex : (s * size + k + 2 ^ 64 - acc.1.section_ * acc.1.size) % 2 ^ 64 = k := by
    rw [hp.section_eq, hp.size_eq, show s * size + k + 2 ^ 64 - s * size = k + 2 ^ 64 by omega, Nat.add_mod_right,
      Nat.mod_eq_of_lt (by omega)]
  have hlen : (sectionBlooms hdr size s k).length = k := by rw [sectionBlooms, List.length_map, List.length_range]
  obtain ⟨g', hadd, hsec', hholds'⟩ :=
    holds_addBloom hholds (by rw [hlen, hsec]; exact hk) (hdr (s * size + k)).bloom
  rw [hlen] at hadd
  refine ⟨({ acc.1 with gen := some g', head := (hdr (s * size + k)).hash }, (hdr (s * size + k)).hash), ?_, ?_⟩
  · unfold processStep
    rw [hc.canonical _ hi, if_neg (hc.nonzero _ hi)]
    simp only [hc.read _ hi, hparent, ne_eq, not_true_eq_false, if_false]
    unfold BloomIndexer.process
    rw [hg, hc.number _ hi]
    simp only [hindex, hadd]
    rfl
  · refine ⟨hp.size_eq, hp.section_eq, ⟨g', rfl, hsec'.trans hsec, ?_⟩, by rw [if_neg (by omega)]; rfl, fun _ => rfl⟩
    rw [sectionBlooms, List.range_succ, List.map_append, List.map_singleton]
    exact hholds'

/-- The loop of `processSection` over the first `k` blocks of the section. -/
theorem processed_foldlM {count s : Nat} (hc : CanonicalChain canonicalHash readHeader hdr count)
    (hcount : s * size + size ≤ count) (h64 : count ≤ 2 ^ 64) {acc₀ : BloomIndexer × Hash}
    (h₀ : Processed hdr size s 0 acc₀) : ∀ k ≤ size,
    ∃ acc, (List.range' (s * size) k).foldlM (processStep canonicalHash readHeader) acc₀ = .ok acc ∧
      Processed hdr size s k acc
  | 0, _ => ⟨acc₀, rfl, h₀⟩
  | k + 1, hk => by
    obtain ⟨acc, hrun, hp⟩ := processed_foldlM hc hcount h64 h₀ k (by omega)
    obtain ⟨acc', hstep, hp'⟩ := processStep_ok hc (by omega) hcount h64 hp
    refine ⟨acc', ?_, hp'⟩
    rw [List.range'_concat, Nat.one_mul, List.foldlM_append, hrun, Except.ok_bind, List.foldlM_cons, hstep,
      Except.ok_bind, List.foldlM_nil, Except.pure_eq_ok]

/-- `Commit` of a full section writes, for every bloom bit, the compressed vector of that bit over
the section's blooms. -/
theorem commit_ok {s : Nat} {acc : BloomIndexer × Hash} (hp : Processed hdr size s size acc) :
    ∃ vec : Nat → List UInt8,
      acc.1.commit = .ok ((List.range 2048).map fun i => ((i, s, acc.1.head), compressBytes (vec i))) ∧
      ∀ i < 2048, (vec i).length = size / 8 ∧ ∀ j < size, bitAt (vec i) j = (hdr (s * size + j)).bloom.bit i := by
  obtain ⟨g, hg, hsec, hholds⟩ := hp.holds
  have hfull : (sectionBlooms hdr size s size).length = g.sections := by
    rw [sectionBlooms, List.length_map, List.length_range, hsec]
  refine ⟨fun i => (g.bitset i).toOption.getD [], ?_, fun i hi => ?_⟩
  · unfold BloomIndexer.commit
    rw [hg, hp.section_eq]
    apply Except.mapM_eq_ok
    intro i hi
    obtain ⟨v, hv, -, -⟩ := bitset_of_holds hholds hfull (List.mem_range.1 hi)
    simp only [hv]
    rfl
  · obtain ⟨v, hv, hvlen, hbits⟩ := bitset_of_holds hholds hfull hi
    simp only [hv, Except.toOption, Option.getD_some]
    refine ⟨by rw [hvlen, hsec], fun j hj => ?_⟩
    rw [hbits, sectionBlooms, List.getD_eq_getElem?_getD, List.getElem?_map, List.getElem?_range hj]
    rfl

/-- A section of a canonical chain is processed and committed: the new head is the hash of the
section's last header, and the batch holds the vector of every bloom bit over the section. -/
theorem processSection_ok {count s : Nat} (hc : CanonicalChain canonicalHash readHeader hdr count)
    (hz : 0 < size) (h8 : size % 8 = 0) (hcount : s * size + size ≤ count) (h64 : count ≤ 2 ^ 64)
    (b : BloomIndexer) (hb : b.size = size) :
    ∃ vec : Nat → List UInt8,
      processSection canonicalHash readHeader b s (sectionParent hdr size s) =
        .ok ((hdr (s * size + size - 1)).hash,
          (List.range 2048).map fun i => ((i, s, (hdr (s * size + size - 1)).hash), compressBytes (vec i))) ∧
      ∀ i < 2048, (vec i).length = size / 8 ∧ ∀ j < size, bitAt (vec i) j = (hdr (s * size + j)).bloom.bit i := by
  obtain ⟨b₀, hreset, h₀⟩ : ∃ b₀, b.reset s = .ok b₀ ∧ Processed hdr size s 0 (b₀, sectionParent hdr size s) :=
    processed_reset h8 b hb s
  have hsize : b₀.size = size := h₀.size_eq
  obtain ⟨acc, hrun, hp⟩ := processed_foldlM hc hcount h64 h₀ size (Nat.le_refl size)
  obtain ⟨vec, hcommit, hvec⟩ := commit_ok hp
  have hlast : acc.2 = (hdr (s * size + size - 1)).hash := by rw [hp.last, if_neg (by omega)]
  refine ⟨vec, ?_, hvec⟩
  unfold processSection
  rw [hreset, Except.ok_bind, hsize, hrun, Except.ok_bind, hcommit, Except.ok_bind, hp.head hz, hlast]
  rfl

end Index

/-! ### The database of the written batches -/

section Lookup

variable {ι κ β : Type} [BEq κ]

/-- In entries made from distinct keys, a key's value is the one made with it. -/
theorem lookup_map_of_injective [LawfulBEq κ] (key : ι → κ) (hkey : Function.Injective key) (val : ι → β) {a : ι} :
    ∀ {l : List ι}, a ∈ l → (l.map fun x => (key x, val x)).lookup (key a) = some (val a)
  | x :: l, ha => by
    rw [List.map_cons, List.lookup_cons]
    by_cases hx : a = x
    · subst hx
      rw [beq_self_eq_true]
    · rw [beq_false_of_ne (fun h => hx (hkey h))]
      exact lookup_map_of_injective key hkey val (List.mem_of_ne_of_mem hx ha)

/-- Batches written one after another: a key found in one batch, and in no other, is found. -/
theorem lookup_flatMap {F : ι → List (κ × β)} {k : κ} {a : ι} {v : β} (ha : (F a).lookup k = some v) :
    ∀ {l : List ι}, (∀ x ∈ l, x ≠ a → (F x).lookup k = none) → a ∈ l → (l.flatMap F).lookup k = some v
  | x :: l, hother, hmem => by
    rw [List.flatMap_cons, List.lookup_append]
    by_cases hx : x = a
    · rw [hx, ha, Option.some_or]
    · rw [hother x (List.mem_cons_self ..) hx, Option.none_or]
      exact lookup_flatMap ha (fun y hy => hother y (List.mem_cons_of_mem x hy)) (List.mem_of_ne_of_mem (Ne.symm hx) hmem)

end Lookup

/-- The batch of a section holds no key of another section. -/
theorem lookup_commit_ne {t s bit : Nat} (hts : t ≠ s) (head head' : Hash) (c : Nat → List UInt8) :
    ((List.range 2048).map fun i => ((i, t, head), c i)).lookup (bit, s, head') = none := by
  rw [List.lookup_eq_none_iff]
  intro p hp
  obtain ⟨i, -, rfl⟩ := List.mem_map.1 hp
  simp [Ne.symm hts]

/-- The batch of a section holds the vector of every bit under the section's head. -/
theorem lookup_commit {s bit : Nat} (hbit : bit < 2048) (head : Hash) (c : Nat → List UInt8) :
    ((List.range 2048).map fun i => ((i, s, head), c i)).lookup (bit, s, head) = some (c bit) :=
  lookup_map_of_injective (fun i => (i, s, head)) (fun _ _ h => (Prod.mk.inj h).1) c (List.mem_range.2 hbit)

section Index

variable {canonicalHash : Nat → Hash} {readHeader : Hash → Nat → Option IndexedHeader} {hdr : Nat → IndexedHeader}
  {size : Nat}

/-- **The bloom bits index.**  The chain indexer runs over the sections of a canonical chain with
the bloom indexer as its backend: every section is committed, and from the written batches the bloom
handlers read back, for every bit and section, the section's blooms rotated, which is what the
matcher needs. -/
theorem retrieve_processSection {count n : Nat} (hc : CanonicalChain canonicalHash readHeader hdr count)
    (hz : 0 < size) (h8 : size % 8 = 0) (hn : n * size ≤ count) (h64 : count ≤ 2 ^ 64)
    (b : BloomIndexer) (hb : b.size = size) :
    ∃ writes : Nat → List (BloomBitsKey × List UInt8),
      (∀ s < n, processSection canonicalHash readHeader b s (sectionParent hdr size s) =
        .ok ((hdr (s * size + size - 1)).hash, writes s)) ∧
      Rotated size n (fun i => (hdr i).bloom)
        (fun bit s => (retrieve canonicalHash ((List.range n).flatMap writes) size bit s).getD []) := by
  have hsec : ∀ s < n, s * size + size ≤ count := fun s hs => by
    have := Nat.mul_le_mul_right size (Nat.succ_le_of_lt hs)
    rw [Nat.succ_mul] at this
    omega
  let writes := fun s => ((processSection canonicalHash readHeader b s (sectionParent hdr size s)).toOption.map
    Prod.snd).getD []
  -- the batch of each section, with the vectors it compresses
  have hbatch : ∀ s < n, ∃ vec : Nat → List UInt8,
      processSection canonicalHash readHeader b s (sectionParent hdr size s) =
        .ok ((hdr (s * size + size - 1)).hash, writes s) ∧
      writes s = (List.range 2048).map (fun i => ((i, s, (hdr (s * size + size - 1)).hash), compressBytes (vec i))) ∧
      ∀ i < 2048, (vec i).length = size / 8 ∧ ∀ j < size, bitAt (vec i) j = (hdr (s * size + j)).bloom.bit i := by
    intro s hs
    obtain ⟨vec, hok, hvec⟩ := processSection_ok hc hz h8 (hsec s hs) h64 b hb
    have hw : writes s = (List.range 2048).map
        (fun i => ((i, s, (hdr (s * size + size - 1)).hash), compressBytes (vec i))) := by
      simp only [writes, hok, Except.toOption, Option.map_some, Option.getD_some]
    exact ⟨vec, hok.trans (by rw [hw]), hw, hvec⟩
  refine ⟨writes, fun s hs => (Classical.choose_spec (hbatch s hs)).1, fun bit hbit s hs => ?_⟩
  obtain ⟨vec, -, hw, hvec⟩ := hbatch s hs
  have hlookup : ((List.range n).flatMap writes).lookup (bit, s, (hdr (s * size + size - 1)).hash) =
      some (compressBytes (vec bit)) := by
    refine lookup_flatMap (by rw [hw]; exact lookup_commit hbit _ _) (fun t ht hts => ?_) (List.mem_range.2 hs)
    obtain ⟨vec', -, hw', -⟩ := hbatch t (List.mem_range.1 ht)
    rw [hw']
    exact lookup_commit_ne hts _ _ _
  have hhead : canonicalHash ((s + 1) * size - 1) = (hdr (s * size + size - 1)).hash := by
    rw [Nat.succ_mul]
    exact hc.canonical _ (by have := hsec s hs; omega)
  obtain ⟨hlen, hbits⟩ := hvec bit hbit
  have htarget : ((size : Int) / 8) = ((vec bit).length : Int) := by
    rw [hlen]
    omega
  have hread : retrieve canonicalHash ((List.range n).flatMap writes) size bit s = some (vec bit) := by
    unfold retrieve
    simp only [hhead, hlookup]
    rw [htarget, decompressBytes_compressBytes]
  dsimp only
  rw [hread, Option.getD_some]
  exact ⟨hlen, hbits⟩

end Index

/-- Eight empty blocks, block `i` hashed to `i + 1` in every byte. -/
def quietHeader (i : Nat) : IndexedHeader :=
  ⟨i, Bloom.empty, Vector.replicate 32 (i + 1).toUInt8, Vector.replicate 32 i.toUInt8⟩

theorem quietHeader_canonical :
    CanonicalChain (fun i => (quietHeader i).hash) (fun _ i => some (quietHeader i)) quietHeader 8 where
  canonical _ _ := rfl
  nonzero := by decide
  read _ _ := rfl
  number _ _ := rfl
  genesis _ := by decide
  parent i hi _ := by
    simp only [quietHeader]
    rw [Nat.sub_add_cancel hi]

theorem retrieve_processSection_quiet :
    (CanonicalChain (fun i => (quietHeader i).hash) (fun _ i => some (quietHeader i)) quietHeader 8 ∧
        0 < 8 ∧ 8 % 8 = 0 ∧ 1 * 8 ≤ 8 ∧ 8 ≤ 2 ^ 64 ∧ (⟨8, none, 0, emptyHash⟩ : BloomIndexer).size = 8) ∧
      ∃ writes : Nat → List (BloomBitsKey × List UInt8),
        (∀ s < 1, processSection (fun i => (quietHeader i).hash) (fun _ i => some (quietHeader i))
            ⟨8, none, 0, emptyHash⟩ s (sectionParent quietHeader 8 s) =
          .ok ((quietHeader (s * 8 + 8 - 1)).hash, writes s)) ∧
        Rotated 8 1 (fun i => (quietHeader i).bloom)
          (fun bit s => (retrieve (fun i => (quietHeader i).hash) ((List.range 1).flatMap writes) 8 bit s).getD []) :=
  ⟨⟨quietHeader_canonical, by decide, by decide, by decide, by decide, rfl⟩,
    retrieve_processSection quietHeader_canonical (by decide) (by decide) (by decide) (by decide) _ rfl⟩

end Go420coin.Fourtwenty
