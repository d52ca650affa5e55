import Go420coin.Clique.Snapshot

/-!
# Seal checks of the clique engine (`consensus/clique/clique.go`)

A signer may seal at most one block in every `len(Signers)/2 + 1` (`Snapshot.limit`).  The rule is
written three times, on `uint64` block numbers:

* `Snapshot.apply` first deletes `Recents[number - limit]` when `number ≥ limit`, and then rejects
  any signer still recent;
* `verifySeal` rejects a recent signer whose block is above `number - limit`;
* `Seal` waits when `number < limit` or the signer's block is above `number - limit`.

Below block `limit`, `number - limit` wraps around, no block is above it, and `verifySeal` lets a
recent signer through that `apply` rejects (`verifySeal_accepts_recent_signer`).

`inturn` divides the block number by the number of signers, and a lone signer can vote itself out
(`apply_removes_last_signer`): the snapshot after that block has no signers, and `inturn` and
`calcDifficulty` divide by zero.  That is the only way the signers run out: a chain that `apply`
accepts leaves none only if its last header is a lone signer's vote to drop itself, and `apply`
accepts no header after it (`apply_signers_eq_empty`).
-/

namespace Go420coin.Clique

/-- `diffInTurn`: the difficulty of a block sealed in turn. -/
def diffInTurn : Nat := 2

/-- `diffNoTurn`: the difficulty of a block sealed out of turn. -/
def diffNoTurn : Nat := 1

namespace Snapshot

/-- The index of `signer` in `signers()`, the signers in ascending byte order, as the loop of
`inturn` finds it: the number of signers below it, or `len(signers)` for an address that is not a
signer. -/
def offset (s : Snapshot) (signer : Address) : Nat :=
  if signer ∈ s.signers then (s.signers.filter fun a => a.toList < signer.toList).card else s.signers.card

/-- `Snapshot.inturn`.  `number % uint64(len(signers))` panics when there are no signers. -/
def inturn (s : Snapshot) (number : UInt64) (signer : Address) : Except CliqueError Bool :=
  let n := s.signers.card.toUInt64
  if n = 0 then .error .divideByZero else .ok (number % n = (s.offset signer).toUInt64)

/-- The recent-signer loop of `verifySeal`: a recent signer fails if its block is above
`number - limit`, a difference of `uint64`s. -/
def recentlySignedSeal (s : Snapshot) (number : UInt64) (signer : Address) : Bool :=
  s.recents.any fun r => r.2 = signer && number - s.limit.toUInt64 < r.1

/-- The recent-signer loop of `Seal`, which also waits on any recent block below block `limit`. -/
def recentlySignedWait (s : Snapshot) (number : UInt64) (signer : Address) : Bool :=
  s.recents.any fun r => r.2 = signer && (number < s.limit.toUInt64 || number - s.limit.toUInt64 < r.1)

end Snapshot

/-- `calcDifficulty`: the difficulty `signer` gives the block after `snap`. -/
def calcDifficulty (snap : Snapshot) (signer : Address) : Except CliqueError Nat := do
  if ← snap.inturn (snap.number + 1) signer then pure diffInTurn else pure diffNoTurn

/-- `Clique.verifySeal`, for the snapshot `snap` of the parent block that `c.snapshot` retrieves;
`fakeDiff` skips the difficulty check. -/
def verifySeal (fakeDiff : Bool) (ecrecover : Header → Except CliqueError Address) (snap : Snapshot)
    (header : Header) : Except CliqueError Unit :=
  let number := header.number.toUInt64
  if number = 0 then .error .unknownBlock
  else do
    let signer ← ecrecover header
    if signer ∉ snap.signers then .error .unauthorizedSigner
    else if snap.recentlySignedSeal number signer then .error .recentlySigned
    else if fakeDiff then pure ()
    else do
      let inturn ← snap.inturn number signer
      if inturn && decide (header.difficulty ≠ diffInTurn) then .error .wrongDifficulty
      else if !inturn && decide (header.difficulty ≠ diffNoTurn) then .error .wrongDifficulty
      else pure ()

namespace Snapshot

variable {s : Snapshot}

/-! ### The recent signers around block `number` -/

@[simp] theorem checkpoint_expireRecent_recents (e u : UInt64) :
    ((s.checkpoint e u).expireRecent u).recents = (s.expireRecent u).recents := by
  unfold checkpoint
  split
  · unfold expireRecent limit
    dsimp only
    split_ifs <;> rfl
  · rfl

theorem toNat_limit (hlim : s.limit < 2 ^ 64) : s.limit.toUInt64.toNat = s.limit := by
  simp only [Nat.toUInt64, UInt64.toNat_ofNat']
  exact Nat.mod_eq_of_lt hlim

/-- From block `limit` on, `expireRecent` drops exactly the signer of block `number - limit`. -/
theorem mem_expireRecent_iff {u : UInt64} {r : UInt64 × Address} (hl : s.limit ≤ u.toNat) :
    r ∈ (s.expireRecent u).recents ↔ r ∈ s.recents ∧ r.1.toNat ≠ u.toNat - s.limit := by
  have hlim : s.limit.toUInt64.toNat = s.limit := toNat_limit (by have := u.toNat_lt; omega)
  have hge : u ≥ s.limit.toUInt64 := by rw [ge_iff_le, UInt64.le_iff_toNat_le, hlim]; exact hl
  have hsub : (u - s.limit.toUInt64).toNat = u.toNat - s.limit := by
    rw [UInt64.toNat_sub_of_le _ _ hge, hlim]
  unfold expireRecent
  simp only [hge, if_true, List.mem_filter, ne_eq, decide_eq_true_eq]
  rw [← hsub, UInt64.toNat_inj]

/-- Below block `limit`, `expireRecent` keeps every recent signer. -/
theorem expireRecent_of_lt {u : UInt64} (hl : u.toNat < s.limit) (hlim : s.limit < 2 ^ 64) :
    s.expireRecent u = s := by
  have hlt : ¬ u ≥ s.limit.toUInt64 := by
    rw [ge_iff_le, UInt64.le_iff_toNat_le, toNat_limit hlim]
    omega
  unfold expireRecent
  simp only [hlt, if_false]

/-! ### `verifySeal` against `apply` -/

/-- Below block `limit`, `number - limit` wraps around above every recent block, and
`verifySeal`'s loop finds no recent signer. -/
theorem recentlySignedSeal_eq_false {u : UInt64} {sg : Address} (h : RecentsWithin (u.toNat - 1) s)
    (hu : 0 < u.toNat) (hl : u.toNat < s.limit) (hlim : s.limit < 2 ^ 64) :
    s.recentlySignedSeal u sg = false := by
  unfold recentlySignedSeal
  rw [List.any_eq_false]
  intro r hr hlt
  have hwin := (h.window r hr).1
  simp only [Bool.and_eq_true, decide_eq_true_eq, UInt64.lt_iff_toNat_lt, UInt64.toNat_sub,
    toNat_limit hlim] at hlt
  rw [Nat.mod_eq_of_lt (by omega)] at hlt
  omega

/-! ### `inturn` -/

/-- `inturn` fails only on a snapshot whose signers count to zero as a `uint64`. -/
theorem inturn_eq_error {n : UInt64} {sg : Address} {e : CliqueError} (h : s.inturn n sg = .error e) :
    e = .divideByZero := by
  unfold inturn at h
  dsimp only at h
  split at h
  · cases h
    rfl
  · cases h

/-- Without signers, `inturn` divides by zero at every block, for every signer. -/
theorem inturn_of_signers_eq_empty (h : s.signers = ∅) (n : UInt64) (sg : Address) :
    s.inturn n sg = .error .divideByZero := by
  simp [inturn, h]

/-! ### What a passed vote does to the signers -/

/-- The signers after `tallyUp`: a passed proposal adds or removes the address. -/
theorem tallyUp_signers (u : UInt64) (a : Address) :
    (s.tallyUp u a).signers =
      if s.signers.card / 2 < ((s.tally a).getD ⟨false, 0⟩).votes then
        (if ((s.tally a).getD ⟨false, 0⟩).authorize then insert a s.signers else s.signers.erase a)
      else s.signers := by
  unfold tallyUp
  dsimp only
  split_ifs <;> simp

/-- A valid vote leaves a tally of at least one vote in its own direction. -/
theorem tally_castVote (h : Voting s) {sg a : Address} {u : UInt64} {au : Bool}
    (hv : s.validVote a au = true) :
    ∃ t, (s.castVote sg u a au).tally a = some t ∧ 0 < t.votes ∧ t.authorize = au := by
  have hc : (s.castVote sg u a au).tally = (s.cast a au).2.tally := by
    unfold castVote
    dsimp only
    split <;> rfl
  rw [hc]
  unfold cast
  rw [if_neg (by simp [hv])]
  split
  · rename_i old hold
    exact ⟨{ old with votes := old.votes + 1 }, by simp, by simp, tally_dir_of_valid h hv old hold⟩
  · exact ⟨⟨au, 1⟩, by simp, Nat.one_pos, rfl⟩

/-- With `a` the only signer, every vote is `a`'s, so once `a`'s own vote on `a` is discarded, `a`
has no tally. -/
theorem discardVote_tally_lone (h : Voting s) {a : Address} (hs : s.signers = {a}) :
    (s.discardVote a a).tally a = none := by
  have hv := voting_discardVote h a a
  have hnone : votesOn (s.discardVote a a).votes a = 0 := by
    unfold votesOn
    rw [List.countP_eq_zero]
    intro w hw hwa
    have hsg := hv.signer_mem w hw
    rw [discardVote_signers, hs, Finset.mem_singleton] at hsg
    exact discardVote_no_pair h a a w hw ⟨hsg, by simpa using hwa⟩
  have hc := hv.counted.count a
  rw [hnone] at hc
  cases ht : (s.discardVote a a).tally a with
  | none => rfl
  | some t =>
    have hpos := hv.counted.pos a t ht
    rw [ht] at hc
    simp only [Option.map_some, Option.getD_some] at hc
    omega

end Snapshot

section Apply

variable {epoch : UInt64} {ecrecover : Header → Except CliqueError Address} {hashOf : Header → Hash}

/-- A nonce that is no vote is the only way `voteOf` fails. -/
theorem voteOf_eq_error {nonce : BlockNonce} {e : CliqueError} (h : voteOf nonce = .error e) :
    e = .invalidVote := by
  unfold voteOf at h
  split_ifs at h
  cases h
  rfl

/-- `applyHeader` on a header whose signer is authorized: the recent check, then the vote. -/
theorem applyHeader_of_signer {snap : Snapshot} {header : Header} {sg : Address} (hepoch : epoch ≠ 0)
    (hrec : ecrecover header = .ok sg) (hsg : sg ∈ snap.signers) :
    applyHeader epoch ecrecover snap header =
      if (snap.expireRecent header.number.toUInt64).recents.any (·.2 = sg) then .error .recentlySigned
      else (voteOf header.nonce).map fun au =>
        (((((snap.checkpoint epoch header.number.toUInt64).expireRecent header.number.toUInt64).setRecent
          header.number.toUInt64 sg).discardVote sg header.coinbase).castVote sg header.number.toUInt64
            header.coinbase au).tallyUp header.number.toUInt64 header.coinbase := by
  unfold applyHeader
  dsimp only
  -- the block number stays one opaque `uint64` through the stages
  generalize header.number.toUInt64 = u
  simp only [hepoch, if_false, hrec, Except.ok_bind, Snapshot.checkpoint_signers, Snapshot.expireRecent_signers,
    hsg, not_true_eq_false, Snapshot.checkpoint_expireRecent_recents]
  split <;> cases voteOf header.nonce <;> rfl

/-- `applyHeader` on a header whose signer is authorized and not recent after the expiry: the
stages of the loop body in order. -/
theorem applyHeader_eq {snap : Snapshot} {header : Header} {sg : Address} {au : Bool} (hepoch : epoch ≠ 0)
    (hrec : ecrecover header = .ok sg) (hsg : sg ∈ snap.signers)
    (hfresh : ∀ r ∈ (snap.expireRecent header.number.toUInt64).recents, r.2 ≠ sg)
    (hvote : voteOf header.nonce = .ok au) :
    applyHeader epoch ecrecover snap header =
      .ok (((((snap.checkpoint epoch header.number.toUInt64).expireRecent header.number.toUInt64).setRecent
        header.number.toUInt64 sg).discardVote sg header.coinbase).castVote sg header.number.toUInt64
          header.coinbase au |>.tallyUp header.number.toUInt64 header.coinbase) := by
  have hany : ((snap.expireRecent header.number.toUInt64).recents.any fun r => r.2 = sg) = false :=
    List.any_eq_false.mpr fun r hr hre => hfresh r hr (by simpa using hre)
  rw [applyHeader_of_signer hepoch hrec hsg, hany, hvote]
  rfl

/-- `apply` on one header numbered after the snapshot: `applyHeader`, then the number and hash. -/
theorem apply_singleton {s : Snapshot} {header : Header} (hnum : header.number.toUInt64 = s.number + 1) :
    s.apply epoch ecrecover hashOf [header] =
      (applyHeader epoch ecrecover s header).map fun snap =>
        { snap with number := snap.number + 1, hash := hashOf header } := by
  simp only [Snapshot.apply, chained, hnum, ne_eq, not_true_eq_false, decide_false, Bool.not_true,
    Bool.or_false, Bool.false_eq_true, if_false, List.foldlM_cons, List.foldlM_nil, List.length_singleton,
    List.getLast_singleton]
  cases applyHeader epoch ecrecover s header <;> rfl

/-- `apply` rejects an authorized signer of the next block as recent exactly when the signer is
still recent after the expiry. -/
theorem apply_recentlySigned_iff {s : Snapshot} {header : Header} {sg : Address} (hepoch : epoch ≠ 0)
    (hnum : header.number.toUInt64 = s.number + 1) (hrec : ecrecover header = .ok sg) (hsg : sg ∈ s.signers) :
    s.apply epoch ecrecover hashOf [header] = .error .recentlySigned ↔
      ∃ r ∈ (s.expireRecent header.number.toUInt64).recents, r.2 = sg := by
  rw [apply_singleton hnum, applyHeader_of_signer hepoch hrec hsg]
  have hany : ((s.expireRecent header.number.toUInt64).recents.any fun r => r.2 = sg) = true ↔
      ∃ r ∈ (s.expireRecent header.number.toUInt64).recents, r.2 = sg := by
    simp [List.any_eq_true]
  rw [← hany]
  cases (s.expireRecent header.number.toUInt64).recents.any fun r => r.2 = sg with
  | true => simp [Except.map]
  | false =>
    -- past the recent check, `apply` succeeds or fails on the vote nonce
    cases hvote : voteOf header.nonce with
    | ok au => simp [Except.map]
    | error e => simp [Except.map, voteOf_eq_error hvote]

/-- Past its recent-signer check, `verifySeal` can fail only on the block number, the signer, the
turn or the difficulty. -/
theorem verifySeal_ne_recentlySigned (fakeDiff : Bool) {s : Snapshot} {header : Header} {sg : Address}
    (hrec : ecrecover header = .ok sg) (hseal : s.recentlySignedSeal header.number.toUInt64 sg = false) :
    verifySeal fakeDiff ecrecover s header ≠ .error .recentlySigned := by
  intro hv
  unfold verifySeal at hv
  dsimp only at hv
  generalize header.number.toUInt64 = u at hv hseal
  simp only [hrec, Except.ok_bind, hseal, Bool.false_eq_true, if_false] at hv
  -- every branch that is left fails with another error, or succeeds
  cases hi : s.inturn u sg with
  | error e =>
    obtain rfl := Snapshot.inturn_eq_error hi
    simp only [hi, Except.error_bind] at hv
    split_ifs at hv <;> cases hv
  | ok b =>
    simp only [hi, Except.ok_bind] at hv
    split_ifs at hv <;> cases hv

/-- The block after a snapshot of block `n`, below `2^64`, is block `n + 1`. -/
theorem toNat_succ_number {s : Snapshot} {header : Header} (hnum : header.number.toUInt64 = s.number + 1)
    (hwrap : s.number.toNat + 1 < 2 ^ 64) : header.number.toUInt64.toNat = s.number.toNat + 1 := by
  rw [hnum, UInt64.toNat_add, UInt64.toNat_one]
  exact Nat.mod_eq_of_lt hwrap

/-- **`verifySeal` misses a recent signer below block `limit`.**  At the snapshot of a block
`n` with `n + 1 < limit`, a signer that sealed one of the blocks up to `n` passes `verifySeal`'s
recent-signer check, while `apply` rejects the same header with `errRecentlySigned`. -/
theorem verifySeal_accepts_recent_signer (fakeDiff : Bool) {s : Snapshot} {header : Header} {sg : Address}
    (hs : RecentsWithin s.number.toNat s) (hepoch : epoch ≠ 0) (hnum : header.number.toUInt64 = s.number + 1)
    (hwrap : s.number.toNat + 1 < 2 ^ 64) (hlow : s.number.toNat + 1 < s.limit) (hlim : s.limit < 2 ^ 64)
    (hrec : ecrecover header = .ok sg) (hsg : sg ∈ s.signers) (hrecent : ∃ r ∈ s.recents, r.2 = sg) :
    verifySeal fakeDiff ecrecover s header ≠ .error .recentlySigned ∧
      s.apply epoch ecrecover hashOf [header] = .error .recentlySigned := by
  have hu := toNat_succ_number hnum hwrap
  have hw : RecentsWithin (header.number.toUInt64.toNat - 1) s := by rw [hu]; exact hs
  have hne : header.number.toUInt64 ≠ 0 := fun h0 => by simp [h0] at hu
  have hseal : s.recentlySignedSeal header.number.toUInt64 sg = false :=
    Snapshot.recentlySignedSeal_eq_false hw (by omega) (by omega) hlim
  refine ⟨verifySeal_ne_recentlySigned fakeDiff hrec hseal, ?_⟩
  rw [apply_recentlySigned_iff hepoch hnum hrec hsg, Snapshot.expireRecent_of_lt (by omega) hlim]
  exact hrecent

/-- Four signers after block 1, sealed by the first of them: block 2 is below `limit = 3`. -/
theorem verifySeal_accepts_recent_signer_block2 :
    verifySeal false (fun _ => .ok (Vector.replicate 20 1))
        ⟨1, Vector.replicate 32 0, (exampleCandidate :: exampleSigners).toFinset, [(1, Vector.replicate 20 1)], [],
          fun _ => none⟩ (voteHeader 2 exampleCandidate nonceAuthVote) ≠ .error .recentlySigned ∧
      Snapshot.apply 30000 (fun _ => .ok (Vector.replicate 20 1)) (fun _ => Vector.replicate 32 0)
        ⟨1, Vector.replicate 32 0, (exampleCandidate :: exampleSigners).toFinset, [(1, Vector.replicate 20 1)], [],
          fun _ => none⟩ [voteHeader 2 exampleCandidate nonceAuthVote] = .error .recentlySigned :=
  verifySeal_accepts_recent_signer false
    ⟨fun r hr => by simp only [List.mem_singleton] at hr; subst hr; decide, by decide⟩
    (by decide) rfl (by decide) (by decide) (by decide) rfl (by decide) ⟨_, List.mem_singleton_self _, rfl⟩

/-- At a snapshot that keeps the invariant, with one signer `a`, the next header sealed by `a` with
coinbase `a` and the drop nonce passes `apply` and leaves no signers. -/
theorem apply_lone_drop {s : Snapshot} {header : Header} {a : Address}
    (hs : Inv s.number.toNat s) (hsg : s.signers = {a}) (hepoch : epoch ≠ 0)
    (hnum : header.number.toUInt64 = s.number + 1) (hwrap : s.number.toNat + 1 < 2 ^ 64)
    (hrec : ecrecover header = .ok a) (hcb : header.coinbase = a) (hnonce : header.nonce = nonceDropVote) :
    ∃ r, s.apply epoch ecrecover hashOf [header] = .ok r ∧ r.signers = ∅ := by
  have hu := toNat_succ_number hnum hwrap
  have hlim : s.limit = 1 := by simp [Snapshot.limit, hsg]
  set u := header.number.toUInt64 with hu_def
  -- the only recent signer can have sealed block `n` alone, and the expiry at `n + 1` drops it
  have hfresh : ∀ r ∈ (s.expireRecent u).recents, r.2 ≠ a := by
    intro r hr
    rw [Snapshot.mem_expireRecent_iff (by omega)] at hr
    have := hs.window r hr.1
    omega
  have hvote : voteOf header.nonce = .ok false := by
    rw [hnonce]
    decide
  -- the signer's vote to drop itself joins a tally in its own direction
  set D := (((s.checkpoint epoch u).expireRecent u).setRecent u a).discardVote a a with hD
  have hDv : Voting D :=
    Snapshot.voting_discardVote ((Snapshot.voting_checkpoint hs.toVoting epoch u).congr (by simp) (by simp)
      (by simp)) a a
  have hDs : D.signers = {a} := by simp [hD, hsg]
  have hvalid : D.validVote a false = true := by simp [Snapshot.validVote, hDs]
  have htally : ∃ t, (D.castVote a u a false).tally a = some t ∧ 0 < t.votes ∧ t.authorize = false :=
    Snapshot.tally_castVote hDv hvalid
  obtain ⟨t, ht, hpos, hdir⟩ := htally
  set T := (D.castVote a u a false).tallyUp u a with hT
  have hsig : T.signers = ∅ := by
    rw [hT, Snapshot.tallyUp_signers, ht]
    simp [hDs, hpos, hdir]
  refine ⟨{ T with number := T.number + 1, hash := hashOf header }, ?_, hsig⟩
  rw [apply_singleton hnum, applyHeader_eq hepoch hrec (by simp [hsg]) hfresh hvote, hcb]
  rfl

/-- **A lone signer can vote itself out.**  At a snapshot that keeps the invariant, with one signer
`a`, the next header sealed by `a` with coinbase `a` and the drop nonce passes `apply`: the
snapshot after it has no signers, and `inturn` and `calcDifficulty` divide by zero there. -/
theorem apply_removes_last_signer {s : Snapshot} {header : Header} {a : Address}
    (hs : Inv s.number.toNat s) (hsg : s.signers = {a}) (hepoch : epoch ≠ 0)
    (hnum : header.number.toUInt64 = s.number + 1) (hwrap : s.number.toNat + 1 < 2 ^ 64)
    (hrec : ecrecover header = .ok a) (hcb : header.coinbase = a) (hnonce : header.nonce = nonceDropVote) :
    ∃ r, s.apply epoch ecrecover hashOf [header] = .ok r ∧ r.signers = ∅ ∧
      (∀ number signer, r.inturn number signer = .error .divideByZero) ∧
      ∀ signer, calcDifficulty r signer = .error .divideByZero := by
  obtain ⟨r, happly, hrs⟩ := apply_lone_drop hs hsg hepoch hnum hwrap hrec hcb hnonce
  refine ⟨r, happly, hrs, Snapshot.inturn_of_signers_eq_empty hrs, fun signer => ?_⟩
  simp [calcDifficulty, Snapshot.inturn_of_signers_eq_empty hrs]

/-- The genesis snapshot of one signer, whose block 1 votes the signer out. -/
theorem apply_removes_last_signer_alone :
    ∃ r, (newSnapshot 0 (Vector.replicate 32 0) [Vector.replicate 20 1]).apply 30000
        (fun _ => .ok (Vector.replicate 20 1)) (fun _ => Vector.replicate 32 0)
        [voteHeader 1 (Vector.replicate 20 1) nonceDropVote] = .ok r ∧ r.signers = ∅ ∧
      (∀ number signer, r.inturn number signer = .error .divideByZero) ∧
      ∀ signer, calcDifficulty r signer = .error .divideByZero :=
  apply_removes_last_signer (newSnapshot_inv 0 _ _) (by simp [newSnapshot]) (by decide) rfl (by decide) rfl rfl rfl

theorem voteOf_eq_false {nonce : BlockNonce} (h : voteOf nonce = .ok false) : nonce = nonceDropVote := by
  unfold voteOf at h
  split_ifs at h with hauth hdrop
  · cases h
  · exact hdrop

/-- A header that leaves no signers was the vote of a lone signer `a`, sealed by `a`, to drop `a`:
a vote to add `a` is invalid for a signer, and `a`'s earlier vote on itself, the only vote on `a`,
is discarded before the new one is cast. -/
theorem applyHeader_signers_eq_empty {snap snap' : Snapshot} {header : Header} (hv : Voting snap)
    (hne : snap.signers.Nonempty) (h : applyHeader epoch ecrecover snap header = .ok snap')
    (hempty : snap'.signers = ∅) :
    ∃ a, snap.signers = {a} ∧ ecrecover header = .ok a ∧ header.coinbase = a ∧ header.nonce = nonceDropVote := by
  obtain ⟨sg, au, hrec, hvote, hsg, -, rfl⟩ := applyHeader_eq_ok h
  set u := header.number.toUInt64
  have hPv : Voting (((snap.checkpoint epoch u).expireRecent u).setRecent u sg) :=
    (Snapshot.voting_checkpoint hv epoch u).congr (by simp) (by simp) (by simp)
  set P := ((snap.checkpoint epoch u).expireRecent u).setRecent u sg with hP
  have hPs : P.signers = snap.signers := by rw [hP]; simp
  set T := (P.discardVote sg header.coinbase).castVote sg u header.coinbase au with hT
  have hTs : T.signers = snap.signers := by simp [hT, hPs]
  rw [Snapshot.tallyUp_signers, hTs] at hempty
  split_ifs at hempty with hpass hauth
  · exact absurd hempty (Finset.insert_ne_empty _ _)
  · -- the passed vote dropped the coinbase, the one signer, who also sealed the header
    have hone : snap.signers = {header.coinbase} :=
      (Finset.erase_eq_empty_iff _ _).1 hempty |>.resolve_left hne.ne_empty
    have hsg' : sg = header.coinbase := by rw [hone, Finset.mem_singleton] at hsg; exact hsg
    refine ⟨header.coinbase, hone, hsg' ▸ hrec, rfl, voteOf_eq_false ?_⟩
    rw [hvote]
    -- a vote to add the signer would not count, and the coinbase would have no tally to pass
    cases au with
    | false => rfl
    | true =>
      have hinvalid : (P.discardVote sg header.coinbase).validVote header.coinbase true = false := by
        simp [Snapshot.validVote, hPs, hone]
      have hcast : T = P.discardVote sg header.coinbase := by
        rw [hT]
        unfold Snapshot.castVote
        rw [Snapshot.cast_of_valid_eq_false hinvalid]
        rfl
      have hnone : T.tally header.coinbase = none := by
        rw [hcast, hsg']
        exact Snapshot.discardVote_tally_lone hPv (by rw [hPs, hone])
      rw [hnone] at hpass
      simp at hpass
  · exact absurd hempty hne.ne_empty

/-- Without signers, no header is accepted. -/
theorem applyHeader_of_signers_eq_empty {snap : Snapshot} (h : snap.signers = ∅) (header : Header) :
    ∃ e, applyHeader epoch ecrecover snap header = .error e := by
  cases happ : applyHeader epoch ecrecover snap header with
  | error e => exact ⟨e, rfl⟩
  | ok snap' =>
    obtain ⟨sg, -, -, -, hsg, -⟩ := applyHeader_eq_ok happ
    rw [h] at hsg
    exact absurd hsg (Finset.notMem_empty sg)

/-- The run of `apply`'s loop empties a non-empty signer set only with its last header, a lone
signer's vote to drop itself. -/
theorem foldlM_signers_eq_empty : ∀ {n : Nat} {headers : List Header} {snap r : Snapshot}, Inv n snap →
    Follows n headers → snap.signers.Nonempty → headers.foldlM (applyHeader epoch ecrecover) snap = .ok r →
    r.signers = ∅ → ∃ init last a, headers = init ++ [last] ∧ ecrecover last = .ok a ∧ last.coinbase = a ∧
      last.nonce = nonceDropVote ∧ ∃ m, init.foldlM (applyHeader epoch ecrecover) snap = .ok m ∧ m.signers = {a}
  | _, [], _, _, _, _, hne, h, hempty => by
    cases h
    exact absurd hempty hne.ne_empty
  | n, first :: rest, snap, r, hi, ⟨hnum, hf⟩, hne, h, hempty => by
    rw [List.foldlM_cons] at h
    obtain ⟨s₁, h₁, hrest⟩ := Except.bind_eq_ok.mp h
    by_cases hs₁ : s₁.signers = ∅
    · -- the first header emptied the set, so no header can follow it
      cases rest with
      | nil =>
        cases hrest
        obtain ⟨a, hone, hrec, hcb, hnonce⟩ := applyHeader_signers_eq_empty hi.toVoting hne h₁ hs₁
        exact ⟨[], first, a, rfl, hrec, hcb, hnonce, snap, rfl, hone⟩
      | cons second rest =>
        obtain ⟨e, he⟩ := @applyHeader_of_signers_eq_empty epoch ecrecover _ hs₁ second
        rw [List.foldlM_cons, he] at hrest
        cases hrest
    · obtain ⟨init, last, a, hsplit, hrec, hcb, hnonce, m, hm, hone⟩ :=
        foldlM_signers_eq_empty (applyHeader_inv hi hnum h₁) hf (Finset.nonempty_iff_ne_empty.2 hs₁) hrest hempty
      refine ⟨first :: init, last, a, by rw [hsplit, List.cons_append], hrec, hcb, hnonce, m, ?_, hone⟩
      rw [List.foldlM_cons, h₁, Except.ok_bind, hm]

theorem chained_of_append : ∀ {l₁ l₂ : List Header}, chained (l₁ ++ l₂) = true → chained l₁ = true
  | [], _, _ => rfl
  | [_], _, _ => rfl
  | _ :: _ :: l₁, l₂, h => by
    simp only [List.cons_append, chained, Bool.and_eq_true] at h ⊢
    exact ⟨h.1, @chained_of_append _ l₂ (by simpa using h.2)⟩

/-- **The signers empty only by a lone signer's vote on itself.**  For a snapshot that keeps the
invariant with some signers, and a chain that `apply` accepts with its block numbers below `2^64`:
if no signer is left, the chain's last header was sealed by the one signer `a` of the snapshot
before it, with coinbase `a` and the drop nonce; and `apply` accepts no header after it. -/
theorem apply_signers_eq_empty {s r : Snapshot} {headers : List Header} (hs : Inv s.number.toNat s)
    (hne : s.signers.Nonempty) (hwrap : s.number.toNat + headers.length < 2 ^ 64)
    (h : s.apply epoch ecrecover hashOf headers = .ok r) (hempty : r.signers = ∅) :
    (∃ init last a, headers = init ++ [last] ∧ ecrecover last = .ok a ∧ last.coinbase = a ∧
      last.nonce = nonceDropVote ∧ ∃ m, s.apply epoch ecrecover hashOf init = .ok m ∧ m.signers = {a}) ∧
      ∀ more, more ≠ [] → ∃ e, r.apply epoch ecrecover hashOf more = .error e := by
  constructor
  · cases headers with
    | nil =>
      cases h
      exact absurd hempty hne.ne_empty
    | cons first rest =>
      simp only [Snapshot.apply] at h
      split at h
      · cases h
      rename_i hcheck
      simp only [Bool.or_eq_true, Bool.not_eq_true', decide_eq_true_eq, not_or, Bool.not_eq_false, ne_eq,
        not_not] at hcheck
      obtain ⟨snap, hfold, hr⟩ := Except.bind_eq_ok.mp h
      simp only [Except.pure_eq_ok, Except.ok.injEq] at hr
      subst hr
      simp only [List.length_cons] at hwrap
      have hfirst : first.number.toUInt64.toNat = s.number.toNat + 1 := by
        rw [hcheck.2, UInt64.toNat_add, UInt64.toNat_one]
        exact Nat.mod_eq_of_lt (by omega)
      obtain ⟨init, last, a, hsplit, hrec, hcb, hnonce, m, hm, hone⟩ :=
        foldlM_signers_eq_empty hs (follows_of_chained hcheck.1 hfirst (by omega)) hne hfold hempty
      refine ⟨init, last, a, hsplit, hrec, hcb, hnonce, ?_⟩
      -- the chain before the last header passes `apply`'s check too
      cases init with
      | nil => exact ⟨s, rfl, by cases hm; exact hone⟩
      | cons first' init =>
        have hfst : first' = first := (List.cons.inj hsplit).1.symm
        subst hfst
        have hch : chained (first' :: init) = true := @chained_of_append _ [last] (by rw [← hsplit]; exact hcheck.1)
        refine ⟨{ m with
            number := m.number + (first' :: init).length.toUInt64
            hash := hashOf ((first' :: init).getLast (List.cons_ne_nil _ _)) }, ?_, hone⟩
        simp only [Snapshot.apply, hch, hcheck.2, Bool.not_true, ne_eq, not_true_eq_false, decide_false,
          Bool.or_false, Bool.false_eq_true, if_false, hm]
        rfl
  · intro more hmore
    obtain ⟨first, rest, rfl⟩ := List.exists_cons_of_ne_nil hmore
    simp only [Snapshot.apply]
    split
    · exact ⟨_, rfl⟩
    · obtain ⟨e, he⟩ := @applyHeader_of_signers_eq_empty epoch ecrecover _ hempty first
      rw [List.foldlM_cons, he]
      exact ⟨e, rfl⟩

theorem apply_signers_eq_empty_alone :
    ∃ r, (newSnapshot 0 (Vector.replicate 32 0) [Vector.replicate 20 1]).apply 30000
        (fun _ => .ok (Vector.replicate 20 1)) (fun _ => Vector.replicate 32 0)
        [voteHeader 1 (Vector.replicate 20 1) nonceDropVote] = .ok r ∧ r.signers = ∅ ∧
      (Inv (newSnapshot 0 (Vector.replicate 32 0) [Vector.replicate 20 1]).number.toNat
          (newSnapshot 0 (Vector.replicate 32 0) [Vector.replicate 20 1]) ∧
        (newSnapshot 0 (Vector.replicate 32 0) [Vector.replicate 20 1]).signers.Nonempty ∧
        (newSnapshot 0 (Vector.replicate 32 0) [Vector.replicate 20 1]).number.toNat +
          [voteHeader 1 (Vector.replicate 20 1) nonceDropVote].length < 2 ^ 64) ∧
      (∃ init last a, [voteHeader 1 (Vector.replicate 20 1) nonceDropVote] = init ++ [last] ∧
          (fun _ => .ok (Vector.replicate 20 1) : Header → Except CliqueError Address) last = .ok a ∧
          last.coinbase = a ∧ last.nonce = nonceDropVote ∧
          ∃ m, (newSnapshot 0 (Vector.replicate 32 0) [Vector.replicate 20 1]).apply 30000
            (fun _ => .ok (Vector.replicate 20 1)) (fun _ => Vector.replicate 32 0) init = .ok m ∧ m.signers = {a}) ∧
        ∀ more, more ≠ [] → ∃ e, r.apply 30000 (fun _ => .ok (Vector.replicate 20 1)) (fun _ => Vector.replicate 32 0)
          more = .error e := by
  obtain ⟨r, happly, hempty⟩ :=
    @apply_lone_drop 30000 (fun _ => .ok (Vector.replicate 20 1)) (fun _ => Vector.replicate 32 0)
      (newSnapshot 0 (Vector.replicate 32 0) [Vector.replicate 20 1]) (voteHeader 1 (Vector.replicate 20 1) nonceDropVote)
      (Vector.replicate 20 1) (newSnapshot_inv 0 _ _) (by simp [newSnapshot]) (by decide) rfl (by decide) rfl rfl rfl
  have hhyp : Inv (newSnapshot 0 (Vector.replicate 32 0) [Vector.replicate 20 1]).number.toNat
        (newSnapshot 0 (Vector.replicate 32 0) [Vector.replicate 20 1]) ∧
      (newSnapshot 0 (Vector.replicate 32 0) [Vector.replicate 20 1]).signers.Nonempty ∧
      (newSnapshot 0 (Vector.replicate 32 0) [Vector.replicate 20 1]).number.toNat +
        [voteHeader 1 (Vector.replicate 20 1) nonceDropVote].length < 2 ^ 64 :=
    ⟨newSnapshot_inv 0 _ _, ⟨Vector.replicate 20 1, by simp [newSnapshot]⟩, by decide⟩
  exact ⟨r, happly, hempty, hhyp, apply_signers_eq_empty hhyp.1 hhyp.2.1 hhyp.2.2 happly hempty⟩

end Apply

end Go420coin.Clique
