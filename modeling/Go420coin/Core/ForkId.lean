import Go420coin.Core.Types
import Go420coin.Lib.ExchangeSort

/-!
# Fork identifiers (`core/forkid/forkid.go`, EIP-2124)

A fork ID is the CRC32 checksum of the genesis hash followed by the block numbers of the forks a
node has passed, and the block of the next fork it knows of (`newID`).  A node filters the IDs of
its peers (`newFilter`) by comparing them with the checksums of its own fork list.

The fork list is gathered from the chain configuration (`gatherForks`): its `*big.Int` fields named
`…Block`, read as `uint64`s, sorted by the exchange sort of `Lib.ExchangeSort`, without repeats and
without block 0.  The configuration enters as the list of those fields, `none` for a nil one, and
CRC32 as `update` (`crc32.Update` with the IEEE table, of which `crc32.ChecksumIEEE` is the update
of `0`).  `uint64` values are natural numbers below `2^64`.

`newID` counts a fork as passed when `fork ≤ head`; the filter skips the forks with `head > fork`
and so, at a head exactly on a fork block, compares the remote checksum with the one before that
fork.  A peer on the same chain whose head is in the era before that fork announces that checksum
with the fork as its next one, and the filter rejects it (`newFilter_rejects_fork_block`).
Everywhere else two nodes on the same chain accept each other (`newFilter_newID_eq_ok_iff`).
-/

namespace Go420coin.ForkId

open ExchangeSort

/-- `math.MaxUint64`, the sentinel fork that is never passed. -/
def maxUint64 : Nat := 2 ^ 64 - 1

/-- `forkid.ID`. -/
structure ID where
  hash : Vector UInt8 4
  next : Nat
  deriving DecidableEq

/-- The errors of the filter. -/
inductive ForkIdError where
  | remoteStale
  | localIncompatibleOrStale
  deriving DecidableEq, Repr

/-- `gatherForks`: the fork blocks of the configuration, sorted, without repeats and without the
genesis block. -/
def gatherForks (rules : List (Option Nat)) : List Nat :=
  -- `rule.Uint64()` keeps the low 64 bits
  let forks := rules.filterMap fun rule => rule.map (· % 2 ^ 64)
  match (exchangeSort forks).destutter (· ≠ ·) with
  | 0 :: forks => forks
  | forks => forks

/-- `binary.BigEndian.PutUint64`. -/
def putUint64 (n : Nat) : List UInt8 := (List.range 8).reverse.map fun i => (n / 256 ^ i).toUInt8

/-- `checksumToBytes`: `binary.BigEndian.PutUint32`. -/
def checksumToBytes (hash : UInt32) : Vector UInt8 4 :=
  #v[(hash >>> 24).toUInt8, (hash >>> 16).toUInt8, (hash >>> 8).toUInt8, hash.toUInt8]

variable (update : UInt32 → List UInt8 → UInt32)

/-- `checksumUpdate`: the checksum extended by a fork block. -/
def checksumUpdate (hash : UInt32) (fork : Nat) : UInt32 := update hash (putUint64 fork)

/-- `crc32.ChecksumIEEE(genesis[:])`. -/
def genesisChecksum (genesis : Hash) : UInt32 := update 0 genesis.toList

/-- The loop of `NewID`: the checksum over the forks passed at `head`, and the first fork not
passed, `0` if there is none. -/
def newIDLoop (head : Nat) : UInt32 → List Nat → UInt32 × Nat
  | hash, [] => (hash, 0)
  | hash, fork :: forks => if fork ≤ head then newIDLoop head (checksumUpdate update hash fork) forks else (hash, fork)

/-- `NewID`. -/
def newID (rules : List (Option Nat)) (genesis : Hash) (head : Nat) : ID :=
  let r := newIDLoop update head (genesisChecksum update genesis) (gatherForks rules)
  ⟨checksumToBytes r.1, r.2⟩

/-- The checksums `newFilter` computes: `sums[0]` of the genesis, `sums[i + 1]` after fork `i`. -/
def sums (rules : List (Option Nat)) (genesis : Hash) : List (Vector UInt8 4) :=
  ((gatherForks rules).scanl (checksumUpdate update) (genesisChecksum update genesis)).map checksumToBytes

/-- The rules of the filter at the first fork `i` that the local head has not passed; `forks` ends
with the sentinel. -/
def validateAt (sums : List (Vector UInt8 4)) (forks : List Nat) (head : Nat) (id : ID) (i : Nat) :
    Except ForkIdError Unit :=
  if sums[i]? = some id.hash then
    -- rule 1: the same fork state; 1a rejects a remote next fork the local head has passed
    if 0 < id.next ∧ id.next ≤ head then .error .localIncompatibleOrStale else .ok ()
  else
    match (List.range i).find? fun j => sums[j]? = some id.hash with
    -- rule 2: the remote checksum is one of the local past ones
    | some j => if forks[j]? ≠ some id.next then .error .remoteStale else .ok ()
    | none =>
      -- rule 3: the remote checksum is one of the local future ones
      if (List.range' (i + 1) (sums.length - (i + 1))).any fun j => sums[j]? = some id.hash then .ok ()
      else .error .localIncompatibleOrStale

/-- The loop of the filter over the forks: skip those with `head > fork`. -/
def validateLoop (sums : List (Vector UInt8 4)) (forks : List Nat) (head : Nat) (id : ID) :
    Nat → List Nat → Except ForkIdError Unit
  | _, [] => .ok ()
  | i, fork :: rest => if head > fork then validateLoop sums forks head id (i + 1) rest else validateAt sums forks head id i

/-- The filter `newFilter(config, genesis, headfn)` applied to `id` when `headfn()` returns
`head`. -/
def newFilter (rules : List (Option Nat)) (genesis : Hash) (head : Nat) (id : ID) : Except ForkIdError Unit :=
  let forks := gatherForks rules ++ [maxUint64]
  validateLoop (sums update rules genesis) forks head id 0 forks

/-! ### The fork list -/

/-- Dropping a leading block 0 from the sorted list without repeats. -/
theorem gatherForks_eq (rules : List (Option Nat)) :
    gatherForks rules = match (exchangeSort (rules.filterMap fun rule => rule.map (· % 2 ^ 64))).destutter (· ≠ ·) with
      | 0 :: forks => forks
      | forks => forks := rfl

/-- The fork list is strictly increasing and has no block 0. -/
theorem gatherForks_spec (rules : List (Option Nat)) :
    (gatherForks rules).Pairwise (· < ·) ∧ ∀ f ∈ gatherForks rules, 0 < f := by
  have h := pairwise_lt_destutter (pairwise_exchangeSort (rules.filterMap fun rule => rule.map (· % 2 ^ 64)))
  rw [gatherForks_eq]
  generalize (exchangeSort (rules.filterMap fun rule => rule.map (· % 2 ^ 64))).destutter (· ≠ ·) = forks at h ⊢
  cases forks with
  | nil => simp
  | cons first forks =>
    cases first with
    | zero =>
      rw [List.pairwise_cons] at h
      exact ⟨h.2, h.1⟩
    | succ g =>
      -- every fork is at least the first, which is not block 0
      refine ⟨h, fun f hf => ?_⟩
      rw [List.pairwise_cons] at h
      rcases List.mem_cons.mp hf with rfl | hf
      · omega
      · have := h.1 f hf
        omega

/-- The forks are the non-zero blocks of the configuration, read as `uint64`s. -/
theorem mem_gatherForks {rules : List (Option Nat)} {f : Nat} :
    f ∈ gatherForks rules ↔ 0 < f ∧ ∃ n, some n ∈ rules ∧ n % 2 ^ 64 = f := by
  have hmem : f ∈ (exchangeSort (rules.filterMap fun rule => rule.map (· % 2 ^ 64))).destutter (· ≠ ·) ↔
      ∃ n, some n ∈ rules ∧ n % 2 ^ 64 = f := by
    rw [mem_destutter_ne, (perm_exchangeSort _).mem_iff, List.mem_filterMap]
    constructor
    · rintro ⟨rule, hr, hf⟩
      cases rule with
      | none => cases hf
      | some n => exact ⟨n, hr, by simpa using hf⟩
    · rintro ⟨n, hn, rfl⟩
      exact ⟨some n, hn, rfl⟩
  rw [← hmem]
  constructor
  · intro hf
    refine ⟨(gatherForks_spec rules).2 f hf, ?_⟩
    rw [gatherForks_eq] at hf
    generalize (exchangeSort (rules.filterMap fun rule => rule.map (· % 2 ^ 64))).destutter (· ≠ ·) = forks at hf ⊢
    match forks, hf with
    | [], hf => exact hf
    | 0 :: forks, hf => exact List.mem_cons_of_mem 0 hf
    | (g + 1) :: forks, hf => exact hf
  · rintro ⟨hpos, hf⟩
    rw [gatherForks_eq]
    generalize (exchangeSort (rules.filterMap fun rule => rule.map (· % 2 ^ 64))).destutter (· ≠ ·) = forks at hf ⊢
    -- a non-zero block is not the dropped block 0
    match forks, hf with
    | [], hf => exact hf
    | 0 :: forks, hf => exact (List.mem_cons.mp hf).resolve_left (Nat.pos_iff_ne_zero.mp hpos)
    | (g + 1) :: forks, hf => exact hf

/-! ### The two loops -/

/-- `NewID`'s loop passes every fork up to the head. -/
theorem newIDLoop_append {head : Nat} {passed : List Nat} (h : ∀ f ∈ passed, f ≤ head) (hash : UInt32)
    (forks : List Nat) :
    newIDLoop update head hash (passed ++ forks) =
      newIDLoop update head (passed.foldl (checksumUpdate update) hash) forks := by
  induction passed generalizing hash with
  | nil => rfl
  | cons f passed ih =>
    rw [List.cons_append, newIDLoop, if_pos (h f (by simp)), ih (fun g hg => h g (by simp [hg]))]
    rfl

/-- The filter's loop skips every fork below the head. -/
theorem validateLoop_append {sums : List (Vector UInt8 4)} {forks : List Nat} {head : Nat} {id : ID}
    {passed : List Nat} (h : ∀ f ∈ passed, f < head) (i : Nat) (rest : List Nat) :
    validateLoop sums forks head id i (passed ++ rest) = validateLoop sums forks head id (i + passed.length) rest := by
  induction passed generalizing i with
  | nil => rfl
  | cons f passed ih =>
    rw [List.cons_append, validateLoop, if_pos (h f (by simp)), ih (fun g hg => h g (by simp [hg]))]
    simp only [List.length_cons]
    ring_nf

/-- The checksum after the first `passed` forks is the one `newFilter` stores at `passed.length`. -/
theorem getElem?_sums {rules : List (Option Nat)} {genesis : Hash} {passed rest : List Nat}
    (h : gatherForks rules = passed ++ rest) :
    (sums update rules genesis)[passed.length]? =
      some (checksumToBytes (passed.foldl (checksumUpdate update) (genesisChecksum update genesis))) := by
  simp [sums, h]

/-- `NewID` at a head that splits the forks into those at or below it and those above it. -/
theorem newID_of_split {rules : List (Option Nat)} {genesis : Hash} {head : Nat} {passed rest : List Nat}
    (hsplit : gatherForks rules = passed ++ rest) (hp : ∀ f ∈ passed, f ≤ head) (hr : ∀ f ∈ rest, ¬ f ≤ head) :
    newID update rules genesis head =
      ⟨checksumToBytes (passed.foldl (checksumUpdate update) (genesisChecksum update genesis)), rest.headD 0⟩ := by
  unfold newID
  rw [hsplit, newIDLoop_append update hp]
  cases rest with
  | nil => rfl
  | cons f rest =>
    rw [newIDLoop, if_neg (hr f (by simp))]
    rfl

/-- The filter at a head below the sentinel that splits the forks into those below it and the
others: the rules at the first fork not below it. -/
theorem newFilter_of_split {rules : List (Option Nat)} {genesis : Hash} {head : Nat} {id : ID}
    {passed rest : List Nat} (hhead : head < maxUint64) (hsplit : gatherForks rules = passed ++ rest)
    (hp : ∀ f ∈ passed, f < head) (hr : ∀ f ∈ rest, ¬ f < head) :
    newFilter update rules genesis head id =
      validateAt (sums update rules genesis) (gatherForks rules ++ [maxUint64]) head id passed.length := by
  unfold newFilter
  have hL : gatherForks rules ++ [maxUint64] = passed ++ (rest ++ [maxUint64]) := by rw [hsplit, List.append_assoc]
  dsimp only
  nth_rewrite 2 [hL]
  rw [validateLoop_append hp, Nat.zero_add]
  -- the loop stops at the first fork of `rest`, or at the sentinel
  cases rest with
  | nil => rw [List.nil_append, validateLoop, if_neg (by omega)]
  | cons f rest => rw [List.cons_append, validateLoop, if_neg (hr f (by simp))]

/-- With distinct checksums, a remote checksum stored at a position `m` other than `i` passes
rule 2 or rule 3, provided that a remote node behind announces the local fork at `m` as its next. -/
theorem validateAt_of_ne {sums : List (Vector UInt8 4)} {forks : List Nat} {head : Nat} {id : ID} {i m : Nat}
    (hnodup : sums.Nodup) (hm : sums[m]? = some id.hash) (hi : i < sums.length) (hne : m ≠ i)
    (hnext : m < i → forks[m]? = some id.next) :
    validateAt sums forks head id i = .ok () := by
  -- `m` is the only position of the remote checksum
  have huniq : ∀ j, sums[j]? = some id.hash → j = m := by
    intro j hj
    have hjl : j < sums.length := by
      by_contra hge
      rw [List.getElem?_eq_none (by omega)] at hj
      cases hj
    exact (List.getElem?_inj hjl hnodup).mp (hj.trans hm.symm)
  unfold validateAt
  rw [if_neg fun h => hne (huniq i h).symm]
  split
  · -- rule 2 finds `m` among the past positions
    rename_i j hj
    have hjm := huniq j (by simpa using List.find?_some hj)
    subst hjm
    have hlt : j < i := List.mem_range.mp (List.mem_of_find?_eq_some hj)
    rw [if_neg (by simpa using hnext hlt)]
  · -- rule 3 finds `m` among the future positions
    rename_i hnone
    have hge : ¬ m < i := fun hlt => List.find?_eq_none.mp hnone m (List.mem_range.mpr hlt) (by simpa using hm)
    have hml : m < sums.length := by
      by_contra hge'
      rw [List.getElem?_eq_none (by omega)] at hm
      cases hm
    rw [if_pos (List.any_eq_true.mpr ⟨m, List.mem_range'.mpr ⟨m - (i + 1), by omega, by omega⟩, by simpa using hm⟩)]

/-! ### Two nodes of one chain -/

/-- **The filter rejects a peer one block behind a fork block.**  A node whose head is a fork block
`f` rejects the ID of a node of the same chain at block `f - 1`: that ID carries the checksum before
`f` and `f` as its next fork, the filter compares it with the checksum before `f` as well (it does
not count `f` as passed), and rule 1a finds the announced fork `f` passed locally. -/
theorem newFilter_rejects_fork_block (rules : List (Option Nat)) (genesis : Hash) {f : Nat}
    (hf : f ∈ gatherForks rules) :
    newFilter update rules genesis f (newID update rules genesis (f - 1)) = .error .localIncompatibleOrStale := by
  obtain ⟨hsorted, hpos⟩ := gatherForks_spec rules
  obtain ⟨before, after, hsplit⟩ := List.append_of_mem hf
  -- the forks before `f` are below it
  have hbefore : ∀ g ∈ before, g < f := by
    rw [hsplit, List.pairwise_append] at hsorted
    exact fun g hg => hsorted.2.2 g hg f (by simp)
  have hf0 : 0 < f := hpos f hf
  have hid : newID update rules genesis (f - 1) =
      ⟨checksumToBytes (before.foldl (checksumUpdate update) (genesisChecksum update genesis)), f⟩ := by
    unfold newID
    rw [hsplit, newIDLoop_append update (fun g hg => by have := hbefore g hg; omega), newIDLoop,
      if_neg (by omega)]
  unfold newFilter
  rw [hid, hsplit, List.append_assoc, validateLoop_append hbefore, List.cons_append, validateLoop,
    if_neg (lt_irrefl f), Nat.zero_add, validateAt, getElem?_sums update hsplit]
  simp [hf0]

/-- A chain with a fork at block 5. -/
theorem newFilter_rejects_fork_block_five :
    (5 ∈ gatherForks [some 5, none, some 0]) ∧
      newFilter (fun h _ => h) [some 5, none, some 0] (Vector.replicate 32 0) 5
        (newID (fun h _ => h) [some 5, none, some 0] (Vector.replicate 32 0) (5 - 1)) =
        .error .localIncompatibleOrStale :=
  ⟨by decide, newFilter_rejects_fork_block _ _ _ (by decide)⟩

/-- **Two nodes of one chain accept each other, except next to a fork block.**  With distinct
checksums and a local head below `2^64 - 1`, the filter at the local head accepts the ID of a node of
the same chain at a remote head unless the local head is a fork block that the remote node has not
passed while it has passed every fork below it. -/
theorem newFilter_newID_eq_ok_iff (rules : List (Option Nat)) (genesis : Hash) {hl hr : Nat}
    (hnodup : (sums update rules genesis).Nodup) (hhl : hl < maxUint64) :
    newFilter update rules genesis hl (newID update rules genesis hr) = .ok () ↔
      ¬ (hl ∈ gatherForks rules ∧ hr < hl ∧ ∀ f ∈ gatherForks rules, f < hl → f ≤ hr) := by
  obtain ⟨hsorted, hpos⟩ := gatherForks_spec rules
  -- the forks below the local head, and those the remote node has passed
  obtain ⟨passed, rest, hsplit, hp, hq⟩ := exists_split hsorted (· < hl) fun x y hxy hy => lt_of_le_of_lt hxy hy
  obtain ⟨below, above, hsplit', hb, ha⟩ := exists_split hsorted (· ≤ hr) fun x y hxy hy => hxy.trans hy
  rw [newFilter_of_split update hhl hsplit hp hq, newID_of_split update hsplit' hb ha]
  have hlen : (sums update rules genesis).length = (gatherForks rules).length + 1 := by simp [sums]
  have hsum : (sums update rules genesis)[below.length]? =
      some (checksumToBytes (below.foldl (checksumUpdate update) (genesisChecksum update genesis))) :=
    getElem?_sums update hsplit'
  have hpl : passed.length ≤ (gatherForks rules).length := by rw [hsplit, List.length_append]; omega
  have hbl : below.length ≤ (gatherForks rules).length := by rw [hsplit', List.length_append]; omega
  by_cases heq : below.length = passed.length
  · -- the same position: rule 1 compares the remote next fork with the local head
    obtain ⟨rfl, rfl⟩ := List.append_inj (hsplit'.symm.trans hsplit) heq
    unfold validateAt
    rw [if_pos hsum]
    cases above with
    | nil =>
      -- no fork is left, and none is at the local head
      simp only [List.headD_nil, Nat.lt_irrefl, false_and, if_false, true_iff, not_and]
      intro hmem
      rw [hsplit, List.append_nil] at hmem
      exact absurd (hp hl hmem) (lt_irrefl hl)
    | cons q rest =>
      dsimp only [List.headD_cons]
      have hq0 : 0 < q := hpos q (by simp [hsplit])
      have hqhl : hl ≤ q := not_lt.mp (hq q (by simp))
      constructor
      · intro hok ⟨hmem, hlt, hall⟩
        -- the local head is a fork block, not below itself, so the first fork not below it
        have hqeq : q = hl := by
          rw [hsplit, List.mem_append] at hmem
          rcases hmem with hmem | hmem
          · exact absurd (hp hl hmem) (lt_irrefl hl)
          rw [hsplit, List.pairwise_append, List.pairwise_cons] at hsorted
          rcases List.mem_cons.mp hmem with h | hmem
          · exact h.symm
          · exact absurd (hsorted.2.1.1 hl hmem) (not_lt.mpr hqhl)
        have hc : 0 < q ∧ q ≤ hl := ⟨hq0, hqeq.le⟩
        simp [hc] at hok
      · intro hnot
        have hc : ¬ (0 < q ∧ q ≤ hl) := by
          rintro ⟨-, hqle⟩
          have hqeq : q = hl := le_antisymm hqle hqhl
          subst hqeq
          exact absurd ⟨by simp [hsplit], not_le.mp (ha q (by simp)), fun f hf hfl => by
          rw [hsplit, List.mem_append] at hf
          rcases hf with hf | hf
          · exact hb f hf
          · exact absurd hfl (hq f hf)⟩ hnot
        simp [hc]
  · -- different positions: rule 2 or 3 accepts, and the remote node has not passed exactly the
    -- forks below the local head
    rw [validateAt_of_ne hnodup hsum (by omega) heq fun hlt => ?_]
    · simp only [true_iff]
      rintro ⟨-, hlt, hall⟩
      refine heq (congrArg List.length (split_unique (hsplit'.symm.trans hsplit) hb ha hp hq fun x hx => ?_))
      rw [← hsplit'] at hx
      exact ⟨fun hx' => lt_of_le_of_lt hx' hlt, hall x hx⟩
    · -- behind the local head, the remote node announces the local fork at its position
      have hne : above ≠ [] := by
        rintro rfl
        rw [hsplit', List.append_nil] at hpl
        omega
      obtain ⟨a, above, rfl⟩ := List.exists_cons_of_ne_nil hne
      rw [List.getElem?_append_left (by omega), hsplit', List.getElem?_append_right le_rfl]
      simp

/-- A chain with a fork at block 5, with checksums that count the forks: a node at block 7 and a node
at block 3 on it. -/
theorem newFilter_newID_eq_ok_iff_seven :
    (sums (fun h _ => h + 1) [some 5] (Vector.replicate 32 0)).Nodup ∧ 7 < maxUint64 ∧
      (newFilter (fun h _ => h + 1) [some 5] (Vector.replicate 32 0) 7
          (newID (fun h _ => h + 1) [some 5] (Vector.replicate 32 0) 3) = .ok () ↔
        ¬ (7 ∈ gatherForks [some 5] ∧ 3 < 7 ∧ ∀ f ∈ gatherForks [some 5], f < 7 → f ≤ 3)) :=
  ⟨by decide, by decide, newFilter_newID_eq_ok_iff _ _ _ (by decide) (by decide)⟩

end Go420coin.ForkId
