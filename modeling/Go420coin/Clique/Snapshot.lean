import Go420coin.Core.Types
import Go420coin.Lib.Except
import Mathlib.Data.Finset.Card

/-!
# Clique voting snapshots (`consensus/clique/snapshot.go`)

A snapshot records the authorized signers at a block, the recent signers (a signer seals at most
one block in every `len(Signers)/2 + 1`), the open votes in the order they were cast, and their
tally.  `Snapshot.apply` runs a chain of headers over it: the signer of each header is recovered
and checked against the signers and the recent signers, and the header's vote on its coinbase is
cast; a proposal that more than half of the signers back passes and changes the signer set.

The engine configuration enters as `epoch` (`config.Epoch`) and signature recovery as a function
`ecrecover`; the signature cache only saves work and is left out.  `Signers` is a `Finset`,
`Recents` an association list from block numbers to signers and `Tally` a function into
`Option Tally`.
-/

namespace Go420coin.Clique

/-- The errors of the engine's checks.  `ecrecover`'s own errors are `missingSignature` and
`invalidSignature`, and `divideByZero` is the panic of a `%` by zero: `number % config.Epoch` for an
epoch of zero, and `number % len(signers)` in `inturn` for no signers. -/
inductive CliqueError where
  | invalidVotingChain
  | unauthorizedSigner
  | recentlySigned
  | invalidVote
  | missingSignature
  | invalidSignature
  | divideByZero
  | unknownBlock
  | wrongDifficulty
  deriving DecidableEq, Repr

/-- `clique.Vote`. -/
structure Vote where
  signer : Address
  block : UInt64
  address : Address
  authorize : Bool
  deriving DecidableEq

/-- `clique.Tally`. -/
structure Tally where
  authorize : Bool
  votes : Nat
  deriving DecidableEq

/-- `clique.Snapshot`, without the engine configuration and the signature cache. -/
structure Snapshot where
  number : UInt64
  hash : Hash
  signers : Finset Address
  recents : List (UInt64 × Address)
  votes : List Vote
  tally : Address → Option Tally

/-- `nonceAuthVote`: the nonce of a vote to add a signer. -/
def nonceAuthVote : BlockNonce := Vector.replicate 8 0xff

/-- `nonceDropVote`: the nonce of a vote to remove a signer. -/
def nonceDropVote : BlockNonce := Vector.replicate 8 0x00

/-- `newSnapshot`: the genesis snapshot, with no recent signers and no votes. -/
def newSnapshot (number : UInt64) (hash : Hash) (signers : List Address) : Snapshot :=
  ⟨number, hash, signers.toFinset, [], [], fun _ => none⟩

namespace Snapshot

/-- `Snapshot.validVote`. -/
def validVote (s : Snapshot) (address : Address) (authorize : Bool) : Bool :=
  let signer := decide (address ∈ s.signers)
  (signer && !authorize) || (!signer && authorize)

/-- `Snapshot.cast`. -/
def cast (s : Snapshot) (address : Address) (authorize : Bool) : Bool × Snapshot :=
  if !s.validVote address authorize then (false, s)
  else
    -- an existing tally is counted up without comparing its direction
    match s.tally address with
    | some old =>
      (true, { s with tally := Function.update s.tally address (some { old with votes := old.votes + 1 }) })
    | none => (true, { s with tally := Function.update s.tally address (some ⟨authorize, 1⟩) })

/-- `Snapshot.uncast`. -/
def uncast (s : Snapshot) (address : Address) (authorize : Bool) : Bool × Snapshot :=
  match s.tally address with
  | none => (false, s)
  | some tally =>
    if tally.authorize ≠ authorize then (false, s)
    else if 1 < tally.votes then
      (true, { s with tally := Function.update s.tally address (some { tally with votes := tally.votes - 1 }) })
    else (true, { s with tally := Function.update s.tally address none })

/-- The number of signers a recent signer has to wait for: `len(Signers)/2 + 1`. -/
def limit (s : Snapshot) : Nat := s.signers.card / 2 + 1

/-- Remove any votes on checkpoint blocks. -/
def checkpoint (s : Snapshot) (epoch number : UInt64) : Snapshot :=
  if number % epoch = 0 then { s with votes := [], tally := fun _ => none } else s

/-- Delete the oldest signer from the recent list to allow it signing again. -/
def expireRecent (s : Snapshot) (number : UInt64) : Snapshot :=
  let limit := s.limit.toUInt64
  if number ≥ limit then { s with recents := s.recents.filter (·.1 ≠ number - limit) } else s

/-- `snap.Recents[number] = signer`. -/
def setRecent (s : Snapshot) (number : UInt64) (signer : Address) : Snapshot :=
  { s with recents := (number, signer) :: s.recents.filter (·.1 ≠ number) }

/-- Discard the previous vote of `signer` on `address`, from the tally and from the list.  The
first vote that matches is the one the loop of `apply` removes at its index. -/
def discardVote (s : Snapshot) (signer address : Address) : Snapshot :=
  match s.votes.find? (fun v => v.signer = signer ∧ v.address = address) with
  | some vote => { (s.uncast vote.address vote.authorize).2 with votes := s.votes.erase vote }
  | none => s

/-- Tally up the new vote from `signer`, and append it to the list if it counted. -/
def castVote (s : Snapshot) (signer : Address) (number : UInt64) (address : Address)
    (authorize : Bool) : Snapshot :=
  let cast := s.cast address authorize
  if cast.1 then { cast.2 with votes := cast.2.votes ++ [⟨signer, number, address, authorize⟩] } else cast.2

/-- Discard any previous votes the deauthorized `signer` cast.  Go's loop removes each such vote
in place and uncasts it; `uncast` does not read the list, so the uncasts run over the votes in
order and the list is filtered once. -/
def discardVotesBy (s : Snapshot) (signer : Address) : Snapshot :=
  let s' := s.votes.foldl (fun s v => if v.signer = signer then (s.uncast v.address v.authorize).2 else s) s
  { s' with votes := s.votes.filter (·.signer ≠ signer) }

/-- If the vote on `address` passed, update the list of signers; then discard the votes on
`address` and its tally.  An address with no tally reads as Go's zero `Tally`. -/
def tallyUp (s : Snapshot) (number : UInt64) (address : Address) : Snapshot :=
  let tally := (s.tally address).getD ⟨false, 0⟩
  if s.signers.card / 2 < tally.votes then
    let s := if tally.authorize then { s with signers := insert address s.signers }
      else (({ s with signers := s.signers.erase address } : Snapshot).expireRecent number).discardVotesBy address
    { s with votes := s.votes.filter (·.address ≠ address), tally := Function.update s.tally address none }
  else s

end Snapshot

/-- The vote a header's nonce carries. -/
def voteOf (nonce : BlockNonce) : Except CliqueError Bool :=
  if nonce = nonceAuthVote then .ok true
  else if nonce = nonceDropVote then .ok false
  else .error .invalidVote

variable (epoch : UInt64) (ecrecover : Header → Except CliqueError Address)

/-- The body of `apply`'s loop for one header. -/
def applyHeader (snap : Snapshot) (header : Header) : Except CliqueError Snapshot :=
  let number := header.number.toUInt64
  -- `number % s.config.Epoch` panics on an epoch of zero
  if epoch = 0 then .error .divideByZero
  else do
    let snap := (snap.checkpoint epoch number).expireRecent number
    let signer ← ecrecover header
    if signer ∉ snap.signers then .error .unauthorizedSigner
    else if snap.recents.any (·.2 = signer) then .error .recentlySigned
    else do
      let snap := (snap.setRecent number signer).discardVote signer header.coinbase
      let authorize ← voteOf header.nonce
      pure ((snap.castVote signer number header.coinbase authorize).tallyUp number header.coinbase)

/-- The sanity check of `apply`: every header's number is one more than the one before it, as
`uint64`s. -/
def chained : List Header → Bool
  | h₁ :: h₂ :: hs => h₂.number.toUInt64 = h₁.number.toUInt64 + 1 && chained (h₂ :: hs)
  | _ => true

/-- `Snapshot.apply`, with `hashOf` for `Header.Hash`. -/
def Snapshot.apply (hashOf : Header → Hash) (s : Snapshot) : List Header → Except CliqueError Snapshot
  | [] => .ok s
  | first :: rest =>
    if !chained (first :: rest) || first.number.toUInt64 ≠ s.number + 1 then .error .invalidVotingChain
    else do
      let snap ← (first :: rest).foldlM (applyHeader epoch ecrecover) s
      pure { snap with number := snap.number + (first :: rest).length.toUInt64,
                       hash := hashOf ((first :: rest).getLast (List.cons_ne_nil _ _)) }

/-! ### What each stage of `applyHeader` leaves as it was -/

namespace Snapshot

variable {s : Snapshot}

/-- `cast` only touches the tally. -/
theorem cast_eq (a : Address) (au : Bool) : (s.cast a au).2 = { s with tally := (s.cast a au).2.tally } := by
  unfold cast
  split
  · rfl
  · split <;> rfl

/-- `uncast` only touches the tally. -/
theorem uncast_eq (a : Address) (au : Bool) :
    (s.uncast a au).2 = { s with tally := (s.uncast a au).2.tally } := by
  unfold uncast
  split
  · rfl
  · split
    · rfl
    · split <;> rfl

@[simp] theorem cast_signers (a : Address) (au : Bool) : (s.cast a au).2.signers = s.signers := by
  rw [cast_eq]

@[simp] theorem cast_votes (a : Address) (au : Bool) : (s.cast a au).2.votes = s.votes := by
  rw [cast_eq]

@[simp] theorem uncast_signers (a : Address) (au : Bool) : (s.uncast a au).2.signers = s.signers := by
  rw [uncast_eq]

/-- A vote counts exactly when it is valid, and an invalid one changes nothing. -/
theorem cast_of_valid_eq_false {a : Address} {au : Bool} (h : s.validVote a au = false) :
    s.cast a au = (false, s) := by
  unfold cast
  rw [if_pos (by simp [h])]

theorem cast_fst (a : Address) (au : Bool) : (s.cast a au).1 = s.validVote a au := by
  unfold cast
  split
  · rename_i h; simp_all
  · rename_i h
    simp only [Bool.not_eq_true', Bool.not_eq_false] at h
    split <;> simp [h]

@[simp] theorem checkpoint_signers (e u : UInt64) : (s.checkpoint e u).signers = s.signers := by
  unfold checkpoint; split <;> rfl

@[simp] theorem checkpoint_recents (e u : UInt64) : (s.checkpoint e u).recents = s.recents := by
  unfold checkpoint; split <;> rfl

@[simp] theorem checkpoint_number (e u : UInt64) : (s.checkpoint e u).number = s.number := by
  unfold checkpoint; split <;> rfl

@[simp] theorem expireRecent_signers (u : UInt64) : (s.expireRecent u).signers = s.signers := by
  unfold expireRecent; dsimp only; split <;> rfl

@[simp] theorem expireRecent_votes (u : UInt64) : (s.expireRecent u).votes = s.votes := by
  unfold expireRecent; dsimp only; split <;> rfl

@[simp] theorem expireRecent_tally (u : UInt64) : (s.expireRecent u).tally = s.tally := by
  unfold expireRecent; dsimp only; split <;> rfl

@[simp] theorem expireRecent_number (u : UInt64) : (s.expireRecent u).number = s.number := by
  unfold expireRecent; dsimp only; split <;> rfl

@[simp] theorem setRecent_signers (u : UInt64) (a : Address) : (s.setRecent u a).signers = s.signers := rfl

@[simp] theorem setRecent_votes (u : UInt64) (a : Address) : (s.setRecent u a).votes = s.votes := rfl

@[simp] theorem setRecent_tally (u : UInt64) (a : Address) : (s.setRecent u a).tally = s.tally := rfl

@[simp] theorem setRecent_number (u : UInt64) (a : Address) : (s.setRecent u a).number = s.number := rfl

@[simp] theorem discardVote_signers (sg a : Address) : (s.discardVote sg a).signers = s.signers := by
  unfold discardVote
  split
  · rw [uncast_eq]
  · rfl

@[simp] theorem discardVote_recents (sg a : Address) : (s.discardVote sg a).recents = s.recents := by
  unfold discardVote
  split
  · rw [uncast_eq]
  · rfl

@[simp] theorem discardVote_number (sg a : Address) : (s.discardVote sg a).number = s.number := by
  unfold discardVote
  split
  · rw [uncast_eq]
  · rfl

@[simp] theorem castVote_signers (sg : Address) (u : UInt64) (a : Address) (au : Bool) :
    (s.castVote sg u a au).signers = s.signers := by
  unfold castVote
  dsimp only
  split <;> rw [cast_eq]

@[simp] theorem castVote_recents (sg : Address) (u : UInt64) (a : Address) (au : Bool) :
    (s.castVote sg u a au).recents = s.recents := by
  unfold castVote
  dsimp only
  split <;> rw [cast_eq]

@[simp] theorem castVote_number (sg : Address) (u : UInt64) (a : Address) (au : Bool) :
    (s.castVote sg u a au).number = s.number := by
  unfold castVote
  dsimp only
  split <;> rw [cast_eq]

/-- The uncasts of `discardVotesBy` only touch the tally. -/
theorem foldl_uncast_eq (c : Address) : ∀ (vs : List Vote) (s : Snapshot),
    vs.foldl (fun s v => if v.signer = c then (s.uncast v.address v.authorize).2 else s) s =
      { s with tally := (vs.foldl (fun s v => if v.signer = c then (s.uncast v.address v.authorize).2 else s) s).tally }
  | [], _ => rfl
  | v :: vs, s => by
    rw [List.foldl_cons]
    split
    · rw [foldl_uncast_eq c vs, uncast_eq]
    · exact foldl_uncast_eq c vs s

theorem discardVotesBy_eq (c : Address) :
    s.discardVotesBy c = { s with votes := s.votes.filter (·.signer ≠ c), tally := (s.discardVotesBy c).tally } := by
  unfold discardVotesBy
  rw [foldl_uncast_eq]

@[simp] theorem discardVotesBy_signers (c : Address) : (s.discardVotesBy c).signers = s.signers := by
  rw [discardVotesBy_eq]

@[simp] theorem discardVotesBy_recents (c : Address) : (s.discardVotesBy c).recents = s.recents := by
  rw [discardVotesBy_eq]

@[simp] theorem discardVotesBy_number (c : Address) : (s.discardVotesBy c).number = s.number := by
  rw [discardVotesBy_eq]

@[simp] theorem discardVotesBy_votes (c : Address) :
    (s.discardVotesBy c).votes = s.votes.filter (·.signer ≠ c) := by
  rw [discardVotesBy_eq]

@[simp] theorem tallyUp_number (u : UInt64) (a : Address) : (s.tallyUp u a).number = s.number := by
  unfold tallyUp
  dsimp only
  split
  · split <;> simp
  · rfl

end Snapshot

/-! ### The tally counts the votes -/

/-- The number of votes in `votes` on `a`. -/
def votesOn (votes : List Vote) (a : Address) : Nat := votes.countP (·.address = a)

@[simp] theorem votesOn_nil (a : Address) : votesOn [] a = 0 := rfl

theorem votesOn_cons (v : Vote) (l : List Vote) (a : Address) :
    votesOn (v :: l) a = votesOn l a + if v.address = a then 1 else 0 := by
  simp [votesOn, List.countP_cons]

theorem votesOn_append_single (l : List Vote) (v : Vote) (a : Address) :
    votesOn (l ++ [v]) a = votesOn l a + if v.address = a then 1 else 0 := by
  simp [votesOn, List.countP_append]

theorem votesOn_perm {l l' : List Vote} (h : l.Perm l') (a : Address) : votesOn l a = votesOn l' a :=
  h.countP_eq _

theorem votesOn_filter_address (l : List Vote) (c a : Address) :
    votesOn (l.filter (·.address ≠ c)) a = if a = c then 0 else votesOn l a := by
  unfold votesOn
  rw [List.countP_filter]
  split
  · subst_vars
    simp
  · congr 1
    funext v
    by_cases hv : v.address = a <;> simp_all

/-- `tally` counts `votes`: an address has a tally exactly when some vote is on it, the tally
holds the number of those votes, and every one of them goes the tally's way. -/
structure Counted (votes : List Vote) (tally : Address → Option Tally) : Prop where
  pos : ∀ a t, tally a = some t → 0 < t.votes
  count : ∀ a, votesOn votes a = ((tally a).map Tally.votes).getD 0
  authorize : ∀ v ∈ votes, ∀ t, tally v.address = some t → v.authorize = t.authorize

namespace Counted

variable {l l' : List Vote} {T : Address → Option Tally}

theorem empty : Counted [] fun _ => none where
  pos _ _ h := by cases h
  count _ := rfl
  authorize _ h := by cases h

theorem perm (hc : Counted l T) (h : l.Perm l') : Counted l' T :=
  ⟨hc.pos, fun a => (votesOn_perm h a).symm.trans (hc.count a),
    fun v hv => hc.authorize v (h.mem_iff.mpr hv)⟩

/-- A vote is on an address that has a tally. -/
theorem exists_tally (hc : Counted l T) {v : Vote} (hv : v ∈ l) : ∃ t, T v.address = some t := by
  have hpos : 0 < votesOn l v.address := List.countP_pos_iff.mpr ⟨v, hv, by simp⟩
  rw [hc.count] at hpos
  cases h : T v.address with
  | none => simp [h] at hpos
  | some t => exact ⟨t, rfl⟩

/-- Replacing the tally of `a` keeps the count when the votes change only on `a` and the new
entry counts and agrees with the votes on `a`. -/
theorem update {a : Address} {x : Option Tally} (hc : Counted l T)
    (hcount : ∀ b, b ≠ a → votesOn l' b = votesOn l b)
    (hmem : ∀ w ∈ l', w.address ≠ a → w ∈ l)
    (hx : votesOn l' a = (x.map Tally.votes).getD 0)
    (hpos : ∀ t, x = some t → 0 < t.votes)
    (hauth : ∀ t, x = some t → ∀ w ∈ l', w.address = a → w.authorize = t.authorize) :
    Counted l' (Function.update T a x) where
  pos b t h := by
    by_cases hb : b = a
    · subst hb
      exact hpos t (by simpa using h)
    · rw [Function.update_of_ne hb] at h
      exact hc.pos b t h
  count b := by
    by_cases hb : b = a
    · subst hb
      simpa using hx
    · rw [Function.update_of_ne hb, hcount b hb, hc.count b]
  authorize w hw t ht := by
    by_cases hb : w.address = a
    · rw [hb, Function.update_self] at ht
      exact hauth t ht w hw hb
    · rw [Function.update_of_ne hb] at ht
      exact hc.authorize w (hmem w hw hb) t ht

/-- Dropping every vote on `c` and its tally. -/
theorem drop (hc : Counted l T) (c : Address) :
    Counted (l.filter (·.address ≠ c)) (Function.update T c none) :=
  hc.update (fun b hb => by rw [votesOn_filter_address, if_neg hb])
    (fun w hw _ => (List.mem_filter.mp hw).1) (by rw [votesOn_filter_address, if_pos rfl]; rfl)
    (fun _ h => by cases h) (fun _ h => by cases h)

end Counted

namespace Snapshot

variable {s : Snapshot}

/-- A vote taken off the list and uncast leaves a tally that counts the rest. -/
theorem counted_uncast {v : Vote} {l : List Vote} (hc : Counted (v :: l) s.tally) :
    Counted l (s.uncast v.address v.authorize).2.tally := by
  obtain ⟨t, ht⟩ := hc.exists_tally (List.mem_cons_self ..)
  have hdir : v.authorize = t.authorize := hc.authorize v (List.mem_cons_self ..) t ht
  have hcnt : votesOn l v.address + 1 = t.votes := by
    have := hc.count v.address
    rw [votesOn_cons, if_pos rfl, ht] at this
    simpa using this
  have hcount : ∀ b, b ≠ v.address → votesOn l b = votesOn (v :: l) b := fun b hb => by
    rw [votesOn_cons, if_neg (Ne.symm hb), Nat.add_zero]
  have hmem : ∀ w ∈ l, w.address ≠ v.address → w ∈ v :: l := fun w hw _ => List.mem_cons_of_mem _ hw
  unfold uncast
  rw [ht]
  dsimp only
  rw [if_neg (by simp [hdir])]
  split
  · -- one of several votes goes: the tally counts one fewer
    refine hc.update hcount hmem (by simp; omega) (fun t' h => ?_) (fun t' h w hw hwa => ?_)
    · cases h; simp only; omega
    · cases h
      exact hc.authorize w (List.mem_cons_of_mem _ hw) t (hwa ▸ ht)
  · -- the last vote goes: the tally is deleted
    have : t.votes = 1 := by have := hc.pos _ t ht; omega
    exact hc.update hcount hmem (by simp; omega) (fun _ h => by cases h) (fun _ h => by cases h)

/-- Where `uncast` leaves a tally, the address had one in the same direction. -/
theorem uncast_tally_some {a b : Address} {au : Bool} {t' : Tally}
    (h : (s.uncast a au).2.tally b = some t') : ∃ t, s.tally b = some t ∧ t'.authorize = t.authorize := by
  unfold uncast at h
  split at h
  · exact ⟨t', h, rfl⟩
  · rename_i t ht
    split at h
    · exact ⟨t', h, rfl⟩
    · by_cases hb : b = a
      · subst hb
        split at h <;> simp at h
        subst h
        exact ⟨t, ht, rfl⟩
      · split at h <;> (simp only [Function.update_of_ne hb] at h; exact ⟨t', h, rfl⟩)

theorem validVote_iff {a : Address} {au : Bool} : s.validVote a au = true ↔ (au = true ↔ a ∉ s.signers) := by
  unfold validVote
  by_cases ha : a ∈ s.signers <;> cases au <;> simp [ha]

/-- A vote that counts is added to the tally of its address. -/
theorem counted_cast {l : List Vote} {sg a : Address} {u : UInt64} {au : Bool}
    (hc : Counted l s.tally) (hv : s.validVote a au = true)
    (hdir : ∀ t, s.tally a = some t → t.authorize = au) :
    Counted (l ++ [⟨sg, u, a, au⟩]) (s.cast a au).2.tally := by
  have hcount : ∀ b, b ≠ a → votesOn (l ++ [⟨sg, u, a, au⟩]) b = votesOn l b := fun b hb => by
    rw [votesOn_append_single, if_neg (Ne.symm hb), Nat.add_zero]
  have hmem : ∀ w ∈ l ++ [⟨sg, u, a, au⟩], w.address ≠ a → w ∈ l := fun w hw hwa => by
    rcases List.mem_append.mp hw with hw | hw
    · exact hw
    · simp only [List.mem_singleton] at hw
      subst hw
      exact absurd rfl hwa
  have hcnt : votesOn (l ++ [⟨sg, u, a, au⟩]) a = votesOn l a + 1 := by
    rw [votesOn_append_single, if_pos rfl]
  unfold cast
  rw [if_neg (by simp [hv])]
  split
  · -- an existing tally: by `hdir` it already goes the vote's way
    rename_i old hold
    refine hc.update hcount hmem (by simp [hcnt, hc.count a, hold]) (fun t h => by cases h; simp)
      (fun t h w hw hwa => ?_)
    cases h
    rcases List.mem_append.mp hw with hw | hw
    · exact hc.authorize w hw old (hwa ▸ hold)
    · simp only [List.mem_singleton] at hw
      subst hw
      exact (hdir old hold).symm
  · rename_i hnone
    refine hc.update hcount hmem (by simp [hcnt, hc.count a, hnone]) (fun t h => by cases h; simp)
      (fun t h w hw hwa => ?_)
    cases h
    rcases List.mem_append.mp hw with hw | hw
    · obtain ⟨t, ht⟩ := hc.exists_tally hw
      rw [hwa, hnone] at ht
      cases ht
    · simp only [List.mem_singleton] at hw
      subst hw
      rfl

/-- The uncasts of `discardVotesBy`, run over `vs` with the votes `kept` before them staying, leave
a tally that counts the votes that are not `c`'s.  The induction is on the votes still to run. -/
theorem counted_foldl_uncast (c : Address) : ∀ (vs kept : List Vote) (s : Snapshot),
    Counted (kept ++ vs) s.tally →
    Counted (kept ++ vs.filter (·.signer ≠ c))
      (vs.foldl (fun s v => if v.signer = c then (s.uncast v.address v.authorize).2 else s) s).tally
  | [], _, _, hc => by simpa using hc
  | v :: vs, kept, s, hc => by
    rw [List.foldl_cons]
    by_cases hv : v.signer = c
    · -- `c`'s vote: uncast it, with the list permuted to put it in front
      rw [if_pos hv, List.filter_cons_of_neg (by simp [hv])]
      exact counted_foldl_uncast c vs kept _ (counted_uncast (hc.perm List.perm_middle))
    · rw [if_neg hv, List.filter_cons_of_pos (by simp [hv])]
      have := counted_foldl_uncast c vs (kept ++ [v]) s (by simpa using hc)
      simpa using this

theorem counted_discardVotesBy (hc : Counted s.votes s.tally) (c : Address) :
    Counted (s.discardVotesBy c).votes (s.discardVotesBy c).tally := by
  unfold discardVotesBy
  simpa using counted_foldl_uncast c s.votes [] s hc

/-- Where the uncasts of `discardVotesBy` leave a tally, the address had one in the same
direction. -/
theorem foldl_uncast_tally_some (c b : Address) : ∀ (vs : List Vote) (s : Snapshot) (t' : Tally),
    (vs.foldl (fun s v => if v.signer = c then (s.uncast v.address v.authorize).2 else s) s).tally b = some t' →
      ∃ t, s.tally b = some t ∧ t'.authorize = t.authorize
  | [], _, t', h => ⟨t', h, rfl⟩
  | v :: vs, s, t', h => by
    rw [List.foldl_cons] at h
    split at h
    · obtain ⟨t₁, h₁, e₁⟩ := foldl_uncast_tally_some c b vs _ t' h
      obtain ⟨t, ht, e⟩ := uncast_tally_some h₁
      exact ⟨t, ht, e₁.trans e⟩
    · exact foldl_uncast_tally_some c b vs s t' h

theorem discardVotesBy_tally_some {c b : Address} {t' : Tally} (h : (s.discardVotesBy c).tally b = some t') :
    ∃ t, s.tally b = some t ∧ t'.authorize = t.authorize :=
  foldl_uncast_tally_some c b s.votes s t' h

end Snapshot

/-! ### The invariant -/

/-- The votes and the tally agree, and no signer votes twice on one address. -/
structure Voting (s : Snapshot) : Prop where
  counted : Counted s.votes s.tally
  directed : ∀ a t, s.tally a = some t → (t.authorize = true ↔ a ∉ s.signers)
  signer_mem : ∀ v ∈ s.votes, v.signer ∈ s.signers
  pairs_nodup : (s.votes.map fun v => (v.signer, v.address)).Nodup

/-- Every recent signer sealed one of the last `limit` blocks up to `number`, and no signer is
recent twice. -/
structure RecentsWithin (number : Nat) (s : Snapshot) : Prop where
  window : ∀ r ∈ s.recents, r.1.toNat ≤ number ∧ number < r.1.toNat + s.limit
  nodup : (s.recents.map Prod.snd).Nodup

/-- The invariant `apply` keeps, at the snapshot of block `number`. -/
structure Inv (number : Nat) (s : Snapshot) : Prop extends Voting s, RecentsWithin number s

theorem RecentsWithin.congr {n : Nat} {s s' : Snapshot} (h : RecentsWithin n s)
    (hr : s'.recents = s.recents) (hs : s'.signers = s.signers) : RecentsWithin n s' := by
  have hl : s'.limit = s.limit := by unfold Snapshot.limit; rw [hs]
  exact ⟨fun r hr' => by rw [hl]; exact h.window r (hr ▸ hr'), hr ▸ h.nodup⟩

theorem Voting.congr {s s' : Snapshot} (h : Voting s) (hv : s'.votes = s.votes) (ht : s'.tally = s.tally)
    (hs : s'.signers = s.signers) : Voting s' := by
  obtain ⟨h₁, h₂, h₃, h₄⟩ := h
  rw [← hv, ← ht] at h₁
  rw [← ht, ← hs] at h₂
  rw [← hv, ← hs] at h₃
  rw [← hv] at h₄
  exact ⟨h₁, h₂, h₃, h₄⟩

theorem Inv.congr {n : Nat} {s s' : Snapshot} (h : Inv n s) (hv : s'.votes = s.votes)
    (ht : s'.tally = s.tally) (hs : s'.signers = s.signers) (hr : s'.recents = s.recents) : Inv n s' :=
  ⟨h.toVoting.congr hv ht hs, h.toRecentsWithin.congr hr hs⟩

namespace Snapshot

variable {s : Snapshot}

theorem voting_checkpoint (h : Voting s) (e u : UInt64) : Voting (s.checkpoint e u) := by
  unfold checkpoint
  split
  · exact ⟨Counted.empty, (fun _ _ h => by cases h), (fun _ h => by cases h), List.nodup_nil⟩
  · exact h

/-- The recent signers `expireRecent` keeps: those it had, except the one that sealed
`limit` blocks before `number`. -/
theorem mem_expireRecent {u : UInt64} {r : UInt64 × Address} (hr : r ∈ (s.expireRecent u).recents) :
    r ∈ s.recents ∧ (s.limit ≤ u.toNat → r.1.toNat ≠ u.toNat - s.limit) := by
  unfold expireRecent at hr
  dsimp only at hr
  split at hr
  · rename_i hle
    obtain ⟨hmem, hne⟩ := List.mem_filter.mp hr
    refine ⟨hmem, fun hl heq => ?_⟩
    have hlim : s.limit.toUInt64.toNat = s.limit := by
      have : s.limit < 2 ^ 64 := by have := u.toNat_lt; omega
      simp only [Nat.toUInt64, UInt64.toNat_ofNat']
      exact Nat.mod_eq_of_lt this
    have : r.1 = u - s.limit.toUInt64 := by
      rw [← UInt64.toNat_inj, UInt64.toNat_sub_of_le _ _ hle, hlim, heq]
    simp [this] at hne
  · rename_i hlt
    refine ⟨hr, fun hl _ => hlt ?_⟩
    rw [ge_iff_le, UInt64.le_iff_toNat_le]
    simp only [Nat.toUInt64, UInt64.toNat_ofNat']
    exact (Nat.mod_le _ _).trans hl

theorem expireRecent_sublist (u : UInt64) : (s.expireRecent u).recents.Sublist s.recents := by
  unfold expireRecent
  dsimp only
  split
  · exact List.filter_sublist
  · exact List.Sublist.refl _

/-- `expireRecent` at `number` closes the window: a signer that sealed `limit` blocks before it
may seal again. -/
theorem expireRecent_within {u : UInt64}
    (hw : ∀ r ∈ s.recents, r.1.toNat ≤ u.toNat ∧ u.toNat ≤ r.1.toNat + s.limit)
    (hn : (s.recents.map Prod.snd).Nodup) : RecentsWithin u.toNat (s.expireRecent u) where
  window r hr := by
    obtain ⟨hmem, hne⟩ := mem_expireRecent hr
    have := hw r hmem
    have hl : (s.expireRecent u).limit = s.limit := by unfold limit; simp
    rw [hl]
    refine ⟨this.1, ?_⟩
    by_contra hge
    exact hne (by omega) (by omega)
  nodup := hn.sublist ((expireRecent_sublist u).map _)

/-- Recording a signer that is not recent at `number` keeps the window. -/
theorem setRecent_within {u : UInt64} {sg : Address} (h : RecentsWithin u.toNat s)
    (hfresh : ∀ r ∈ s.recents, r.2 ≠ sg) : RecentsWithin u.toNat (s.setRecent u sg) where
  window r hr := by
    have hl : (s.setRecent u sg).limit = s.limit := rfl
    rw [hl]
    rcases List.mem_cons.mp hr with rfl | hr
    · exact ⟨le_refl _, by show u.toNat < u.toNat + s.limit; unfold limit; omega⟩
    · exact h.window r (List.mem_filter.mp hr).1
  nodup := by
    refine List.nodup_cons.mpr ⟨fun hm => ?_, h.nodup.sublist (List.filter_sublist.map _)⟩
    obtain ⟨r, hr, hr2⟩ := List.mem_map.mp hm
    exact hfresh r (List.mem_filter.mp hr).1 hr2

theorem voting_discardVote (h : Voting s) (sg a : Address) : Voting (s.discardVote sg a) := by
  unfold discardVote
  split
  · rename_i v hv
    have hmem : v ∈ s.votes := List.mem_of_find?_eq_some hv
    have hsub : (s.votes.erase v).Sublist s.votes := List.erase_sublist
    refine ⟨counted_uncast (h.counted.perm (List.perm_cons_erase hmem)), ?_, ?_, ?_⟩
    · intro b t hb
      obtain ⟨t₀, h₀, e⟩ := uncast_tally_some hb
      simpa [e] using h.directed b t₀ h₀
    · intro w hw
      simpa using h.signer_mem w (hsub.subset hw)
    · exact h.pairs_nodup.sublist (hsub.map _)
  · exact h

/-- After `discardVote`, `sg` has no vote on `a` left: the list held at most one. -/
theorem discardVote_no_pair (h : Voting s) (sg a : Address) :
    ∀ w ∈ (s.discardVote sg a).votes, ¬(w.signer = sg ∧ w.address = a) := by
  unfold discardVote
  split
  · rename_i v hv
    have hmem : v ∈ s.votes := List.mem_of_find?_eq_some hv
    have hp : v.signer = sg ∧ v.address = a := by simpa using List.find?_some hv
    intro w hw hwp
    have hw' := (h.pairs_nodup.of_map _).mem_erase_iff.mp hw
    -- `w` and `v` carry the same pair, so they are the same vote
    exact hw'.1 (List.inj_on_of_nodup_map h.pairs_nodup hw'.2 hmem (by rw [hwp.1, hwp.2, hp.1, hp.2]))
  · rename_i hnone
    intro w hw hwp
    exact List.find?_eq_none.mp hnone w hw (by simpa using hwp)

/-- A valid vote goes the way of the tally it joins: both say whether `a` is outside the
signers. -/
theorem tally_dir_of_valid (h : Voting s) {a : Address} {au : Bool} (hv : s.validVote a au = true) :
    ∀ t, s.tally a = some t → t.authorize = au := by
  intro t ht
  have h₁ := h.directed a t ht
  have h₂ := validVote_iff.mp hv
  cases ht' : t.authorize <;> cases au <;> simp_all

theorem directed_cast (h : Voting s) {a : Address} {au : Bool} (hv : s.validVote a au = true) :
    ∀ b t, (s.cast a au).2.tally b = some t → (t.authorize = true ↔ b ∉ s.signers) := by
  intro b t hb
  unfold cast at hb
  rw [if_neg (by simp [hv])] at hb
  by_cases hba : b = a
  · subst hba
    have hau : (t.authorize = true ↔ b ∉ s.signers) ↔ (au = true ↔ b ∉ s.signers) := by
      split at hb <;> simp at hb <;> subst hb
      · rename_i old hold
        simp [tally_dir_of_valid h hv old hold]
      · rfl
    exact hau.mpr (validVote_iff.mp hv)
  · split at hb <;> (simp only [Function.update_of_ne hba] at hb; exact h.directed b t hb)

theorem voting_castVote (h : Voting s) {sg a : Address} {u : UInt64} {au : Bool}
    (hsg : sg ∈ s.signers) (hnp : ∀ w ∈ s.votes, ¬(w.signer = sg ∧ w.address = a)) :
    Voting (s.castVote sg u a au) := by
  unfold castVote
  dsimp only
  split
  · rename_i hok
    have hv : s.validVote a au = true := by rwa [cast_fst] at hok
    refine ⟨?_, ?_, ?_, ?_⟩
    · simpa using counted_cast h.counted hv (tally_dir_of_valid h hv)
    · simpa using directed_cast h hv
    · intro w hw
      simp only [cast_votes, List.mem_append, List.mem_singleton] at hw
      rcases hw with hw | rfl
      · simpa using h.signer_mem w hw
      · simpa using hsg
    · rw [cast_votes, List.map_append, List.nodup_append]
      refine ⟨h.pairs_nodup, List.nodup_singleton _, ?_⟩
      intro x hx y hy hxy
      obtain ⟨w, hw, rfl⟩ := List.mem_map.mp hx
      simp only [List.map_cons, List.map_nil, List.mem_singleton] at hy
      subst hy
      simp only [Prod.mk.injEq] at hxy
      exact hnp w hw hxy
  · rename_i hok
    have hv : s.validVote a au = false := by simpa [cast_fst] using hok
    rw [cast_of_valid_eq_false hv]
    exact h

/-- The limit shrinks by at most one when a signer leaves. -/
theorem limit_le_erase (a : Address) : s.limit ≤ ({ s with signers := s.signers.erase a } : Snapshot).limit + 1 := by
  unfold limit
  have := Finset.pred_card_le_card_erase (s := s.signers) (a := a)
  dsimp only
  omega

theorem limit_le_insert (a : Address) : s.limit ≤ ({ s with signers := insert a s.signers } : Snapshot).limit := by
  unfold limit
  have := Finset.card_le_card (Finset.subset_insert a s.signers)
  dsimp only
  omega

/-- Counting the vote on `a` up: a proposal that passes changes the signers, and the votes on
`a` go. -/
theorem inv_tallyUp (hv : Voting s) {u : UInt64} (hr : RecentsWithin u.toNat s) (a : Address) :
    Inv u.toNat (s.tallyUp u a) := by
  unfold tallyUp
  dsimp only
  split
  · split
    · -- the proposal to add `a` passed
      refine ⟨⟨hv.counted.drop a, ?_, ?_, ?_⟩, ⟨?_, ?_⟩⟩
      · intro b t hb
        dsimp only at hb ⊢
        by_cases hba : b = a
        · subst hba; simp at hb
        · rw [Function.update_of_ne hba] at hb
          simpa [Finset.mem_insert, hba] using hv.directed b t hb
      · intro w hw
        exact Finset.mem_insert_of_mem (hv.signer_mem w (List.mem_filter.mp hw).1)
      · exact hv.pairs_nodup.sublist (List.filter_sublist.map _)
      · intro r hmem
        have hwin := hr.window r hmem
        have hle := limit_le_insert (s := s) a
        unfold limit at hwin hle ⊢
        exact ⟨hwin.1, by dsimp only at hle ⊢; omega⟩
      · exact hr.nodup
    · -- the proposal to drop `a` passed: its votes go and the window may shrink
      have hw : ∀ r ∈ ({ s with signers := s.signers.erase a } : Snapshot).recents,
          r.1.toNat ≤ u.toNat ∧ u.toNat ≤ r.1.toNat + ({ s with signers := s.signers.erase a } : Snapshot).limit := by
        intro r hmem
        have := hr.window r hmem
        have := limit_le_erase (s := s) a
        omega
      have hrec := expireRecent_within hw hr.nodup
      have hc := counted_discardVotesBy (s := ({ s with signers := s.signers.erase a } : Snapshot).expireRecent u)
          (by simpa using hv.counted) a
      refine ⟨⟨hc.drop a, ?_, ?_, ?_⟩, hrec.congr (by simp) (by simp)⟩
      · intro b t hb
        dsimp only at hb ⊢
        by_cases hba : b = a
        · subst hba; simp at hb
        · rw [Function.update_of_ne hba] at hb
          obtain ⟨t₀, h₀, e⟩ := discardVotesBy_tally_some hb
          simpa [e, Finset.mem_erase, hba] using hv.directed b t₀ (by simpa using h₀)
      · intro w hw
        simp only [discardVotesBy_votes, expireRecent_votes, List.mem_filter, decide_eq_true_eq] at hw
        dsimp only
        rw [discardVotesBy_signers, expireRecent_signers]
        exact Finset.mem_erase.mpr ⟨hw.1.2, hv.signer_mem w hw.1.1⟩
      · simp only [discardVotesBy_votes, expireRecent_votes]
        exact hv.pairs_nodup.sublist ((List.filter_sublist.trans List.filter_sublist).map _)
  · exact ⟨hv, hr⟩

end Snapshot

/-! ### One header, then a chain -/

section Apply

variable {epoch : UInt64} {ecrecover : Header → Except CliqueError Address}

/-- What a header that `applyHeader` accepts has passed: a recovered signer that is authorized and
not recent, a vote nonce, and the stages of the loop body in order. -/
theorem applyHeader_eq_ok {snap snap' : Snapshot} {header : Header}
    (h : applyHeader epoch ecrecover snap header = .ok snap') :
    ∃ signer authorize, ecrecover header = .ok signer ∧ voteOf header.nonce = .ok authorize ∧
      signer ∈ snap.signers ∧
      (∀ r ∈ ((snap.checkpoint epoch header.number.toUInt64).expireRecent header.number.toUInt64).recents,
        r.2 ≠ signer) ∧
      snap' = (((((snap.checkpoint epoch header.number.toUInt64).expireRecent header.number.toUInt64).setRecent
        header.number.toUInt64 signer).discardVote signer header.coinbase).castVote signer
          header.number.toUInt64 header.coinbase authorize).tallyUp header.number.toUInt64 header.coinbase := by
  unfold applyHeader at h
  split at h
  · cases h
  obtain ⟨signer, hs, h⟩ := Except.bind_eq_ok.mp h
  split at h
  · cases h
  rename_i hmem
  split at h
  · cases h
  rename_i hrec
  obtain ⟨authorize, hv, h⟩ := Except.bind_eq_ok.mp h
  cases h
  refine ⟨signer, authorize, hs, hv, by simpa using hmem, fun r hr hre => hrec ?_, rfl⟩
  exact List.any_eq_true.mpr ⟨r, hr, by simp [hre]⟩

open Snapshot in
/-- One header keeps the invariant, the block number going from `n` to `n + 1`. -/
theorem applyHeader_inv {n : Nat} {snap snap' : Snapshot} {header : Header} (hi : Inv n snap)
    (hnum : header.number.toUInt64.toNat = n + 1)
    (h : applyHeader epoch ecrecover snap header = .ok snap') : Inv (n + 1) snap' := by
  obtain ⟨signer, authorize, -, -, hsg, hfresh, rfl⟩ := applyHeader_eq_ok h
  set u := header.number.toUInt64 with hu
  rw [← hnum]
  -- checkpoint and expiry: the votes stay, the window moves on to `u`
  have hv₁ : Voting ((snap.checkpoint epoch u).expireRecent u) :=
    (voting_checkpoint hi.toVoting epoch u).congr (by simp) (by simp) (by simp)
  have hr₁ : RecentsWithin u.toNat ((snap.checkpoint epoch u).expireRecent u) := by
    refine expireRecent_within (fun r hr => ?_) (by simpa using hi.nodup)
    have hwin := hi.window r (by simpa using hr)
    have hl : (snap.checkpoint epoch u).limit = snap.limit := by unfold limit; simp
    rw [hl]
    omega
  -- the signer becomes recent, its old vote on the coinbase goes and the new one is cast
  have hr₂ := setRecent_within hr₁ hfresh
  have hv₂ : Voting (((snap.checkpoint epoch u).expireRecent u).setRecent u signer) := hv₁.congr rfl rfl rfl
  have hv₃ := voting_discardVote hv₂ signer header.coinbase
  have hr₃ := hr₂.congr (discardVote_recents signer header.coinbase) (discardVote_signers signer header.coinbase)
  have hv₄ : Voting (((((snap.checkpoint epoch u).expireRecent u).setRecent u signer).discardVote signer
      header.coinbase).castVote signer u header.coinbase authorize) :=
    voting_castVote hv₃ (by simpa using hsg) (discardVote_no_pair hv₂ signer header.coinbase)
  exact inv_tallyUp hv₄ (hr₃.congr (castVote_recents ..) (castVote_signers ..)) header.coinbase

theorem applyHeader_number {snap snap' : Snapshot} {header : Header}
    (h : applyHeader epoch ecrecover snap header = .ok snap') : snap'.number = snap.number := by
  obtain ⟨_, _, -, -, -, -, rfl⟩ := applyHeader_eq_ok h
  simp

/-- The headers carry the numbers `n + 1`, `n + 2`, … as `uint64`s. -/
def Follows : Nat → List Header → Prop
  | _, [] => True
  | n, h :: hs => h.number.toUInt64.toNat = n + 1 ∧ Follows (n + 1) hs

/-- A chain that passes `apply`'s check and starts right after block `n` numbers its headers
`n + 1`, `n + 2`, …, as long as these stay below `2^64`. -/
theorem follows_of_chained : ∀ {n : Nat} {first : Header} {rest : List Header},
    chained (first :: rest) = true → first.number.toUInt64.toNat = n + 1 →
    n + 1 + rest.length < 2 ^ 64 → Follows n (first :: rest)
  | _, _, [], _, h₁, _ => ⟨h₁, trivial⟩
  | n, _, second :: rest, hc, h₁, hlen => by
    simp only [chained, Bool.and_eq_true, decide_eq_true_eq] at hc
    refine ⟨h₁, follows_of_chained hc.2 ?_ (by simp only [List.length_cons] at hlen; omega)⟩
    rw [hc.1, UInt64.toNat_add, h₁]
    simp only [List.length_cons] at hlen
    simp only [UInt64.toNat_one]
    exact Nat.mod_eq_of_lt (by omega)

/-- The run of `apply`'s loop over a chain numbered from `n + 1` keeps the invariant. -/
theorem foldlM_applyHeader_inv {n : Nat} {snap r : Snapshot} {headers : List Header}
    (hi : Inv n snap) (hf : Follows n headers)
    (h : headers.foldlM (applyHeader epoch ecrecover) snap = .ok r) :
    Inv (n + headers.length) r ∧ r.number = snap.number := by
  have hrun := Except.foldlM_inv
    (fun l b => ∃ m, Inv m b ∧ Follows m l ∧ m + l.length = n + headers.length ∧ b.number = snap.number)
    (fun a l b b' ⟨m, hm, ⟨ha, hl⟩, hlen, hnum⟩ hb' =>
      ⟨m + 1, applyHeader_inv hm ha hb', hl, by simp only [List.length_cons] at hlen; omega,
        (applyHeader_number hb').trans hnum⟩)
    ⟨n, hi, hf, rfl, rfl⟩ h
  obtain ⟨m, hm, -, hlen, hnum⟩ := hrun
  simp only [List.length_nil, Nat.add_zero] at hlen
  exact ⟨hlen ▸ hm, hnum⟩

/-- **`Snapshot.apply` keeps the invariant** over every chain of headers it accepts whose block
numbers stay below `2^64`. -/
theorem apply_inv {hashOf : Header → Hash} {s r : Snapshot} {headers : List Header}
    (hs : Inv s.number.toNat s) (hwrap : s.number.toNat + headers.length < 2 ^ 64)
    (h : s.apply epoch ecrecover hashOf headers = .ok r) : Inv r.number.toNat r := by
  cases headers with
  | nil =>
    cases h
    exact hs
  | cons first rest =>
    simp only [Snapshot.apply] at h
    split at h
    · cases h
    rename_i hcheck
    simp only [Bool.or_eq_true, Bool.not_eq_true', decide_eq_true_eq, not_or, Bool.not_eq_false, ne_eq,
      not_not] at hcheck
    obtain ⟨snap, hfold, hr⟩ := Except.bind_eq_ok.mp h
    simp only [Except.pure_eq_ok, Except.ok.injEq] at hr
    subst hr
    simp only [List.length_cons] at hwrap
    have hfirst : first.number.toUInt64.toNat = s.number.toNat + 1 := by
      rw [hcheck.2, UInt64.toNat_add, UInt64.toNat_one]
      exact Nat.mod_eq_of_lt (by omega)
    obtain ⟨hinv, hnum⟩ := foldlM_applyHeader_inv hs (follows_of_chained hcheck.1 hfirst (by omega)) hfold
    have hlast : (snap.number + (first :: rest).length.toUInt64).toNat = s.number.toNat + (first :: rest).length := by
      rw [hnum, UInt64.toNat_add]
      simp only [Nat.toUInt64, UInt64.toNat_ofNat', List.length_cons]
      rw [Nat.mod_eq_of_lt (by omega : rest.length + 1 < 2 ^ 64)]
      exact Nat.mod_eq_of_lt (by omega)
    rw [hlast]
    exact hinv.congr rfl rfl rfl rfl

end Apply

/-! ### The invariant as the votes' bookkeeping states it -/

/-- The bookkeeping a snapshot of block `number` is expected to keep, stated over the tallied
addresses: each has as many votes as its tally counts, more than none, all in the tally's
direction, and the direction says whether the address is outside the signers; voters are signers
and vote once per address; the recent signers lie in the window and are distinct.  Votes on an
address without a tally are not mentioned. -/
structure Consistent (number : Nat) (s : Snapshot) : Prop where
  tally_votes : ∀ a t, s.tally a = some t → 0 < t.votes ∧ votesOn s.votes a = t.votes
  tally_authorize : ∀ a t, s.tally a = some t → ∀ v ∈ s.votes, v.address = a → v.authorize = t.authorize
  authorize_iff : ∀ a t, s.tally a = some t → (t.authorize = true ↔ a ∉ s.signers)
  signer_mem : ∀ v ∈ s.votes, v.signer ∈ s.signers
  pairs_nodup : (s.votes.map fun v => (v.signer, v.address)).Nodup
  recents : RecentsWithin number s

/-- `Inv` is that bookkeeping together with: every vote is on an address with a tally. -/
theorem inv_iff_consistent {n : Nat} {s : Snapshot} :
    Inv n s ↔ Consistent n s ∧ ∀ v ∈ s.votes, ∃ t, s.tally v.address = some t := by
  constructor
  · intro h
    refine ⟨⟨fun a t ht => ⟨h.counted.pos a t ht, by simpa [ht] using h.counted.count a⟩,
      fun a t ht v hv hva => h.counted.authorize v hv t (hva ▸ ht), h.directed, h.signer_mem,
      h.pairs_nodup, h.toRecentsWithin⟩, fun v hv => h.counted.exists_tally hv⟩
  · rintro ⟨h, hvote⟩
    refine ⟨⟨⟨fun a t ht => (h.tally_votes a t ht).1, fun a => ?_,
      fun v hv t ht => h.tally_authorize _ t ht v hv rfl⟩, h.authorize_iff, h.signer_mem, h.pairs_nodup⟩, h.recents⟩
    cases ht : s.tally a with
    | some t => simpa using (h.tally_votes a t ht).2
    | none =>
      -- an address without a tally has no votes, since every vote's address has one
      simp only [Option.map_none, Option.getD_none, votesOn, List.countP_eq_zero, decide_eq_true_eq]
      intro v hv hva
      obtain ⟨t, hvt⟩ := hvote v hv
      rw [hva, ht] at hvt
      cases hvt

/-- A snapshot without votes keeps the invariant as soon as its recent signers do. -/
theorem inv_of_no_votes {n : Nat} {s : Snapshot} (hv : s.votes = []) (ht : s.tally = fun _ => none)
    (hr : RecentsWithin n s) : Inv n s := by
  refine ⟨⟨?_, ?_, ?_, ?_⟩, hr⟩
  · rw [hv, ht]; exact Counted.empty
  · intro a t h; rw [ht] at h; cases h
  · intro v h; rw [hv] at h; cases h
  · rw [hv]; exact List.nodup_nil

/-- The genesis snapshot keeps the invariant. -/
theorem newSnapshot_inv (number : UInt64) (hash : Hash) (signers : List Address) :
    Inv number.toNat (newSnapshot number hash signers) :=
  inv_of_no_votes rfl rfl ⟨(fun _ h => by cases h), List.nodup_nil⟩

/-- Three signers, and an address outside them. -/
def exampleSigners : List Address := [Vector.replicate 20 1, Vector.replicate 20 2, Vector.replicate 20 3]

def exampleCandidate : Address := Vector.replicate 20 9

/-- A header of block `number` voting on `coinbase` with `nonce`. -/
def voteHeader (number : Nat) (coinbase : Address) (nonce : BlockNonce) : Header :=
  ⟨emptyUncleHash, coinbase, 1, number, 0, [], nonce⟩

/-- A single signer votes a candidate in at block 1. -/
theorem apply_inv_newSnapshot :
    ∃ r, (newSnapshot 0 (Vector.replicate 32 0) [Vector.replicate 20 1]).apply 30000
        (fun _ => .ok (Vector.replicate 20 1)) (fun _ => Vector.replicate 32 0)
        [voteHeader 1 exampleCandidate nonceAuthVote] = .ok r ∧
      exampleCandidate ∈ r.signers ∧ Inv r.number.toNat r :=
  ⟨_, rfl, by decide, @apply_inv 30000 (fun _ => .ok (Vector.replicate 20 1)) (fun _ => Vector.replicate 32 0)
    (newSnapshot 0 (Vector.replicate 32 0) [Vector.replicate 20 1]) _
    [voteHeader 1 exampleCandidate nonceAuthVote] (newSnapshot_inv _ _ _) (by decide) rfl⟩

/-- The bookkeeping alone is not kept by `apply`, and `Inv` is not kept across the wrap of the
block number:

* a vote on an address without a tally is allowed by `Consistent`; a second vote on it starts a
  tally of one while two votes are on it;
* at block `2^64 - 1` the next header is block `0` as a `uint64`, no recent signer expires, and
  the one of block `2^64 - 2` stays outside the window of block `0`. -/
theorem apply_breaks_consistent :
    (Consistent 0 ⟨0, Vector.replicate 32 0, exampleSigners.toFinset, [],
        [⟨Vector.replicate 20 1, 0, exampleCandidate, true⟩], fun _ => none⟩ ∧
      ∃ r, Snapshot.apply 30000 (fun _ => .ok (Vector.replicate 20 2)) (fun _ => Vector.replicate 32 0)
          ⟨0, Vector.replicate 32 0, exampleSigners.toFinset, [],
            [⟨Vector.replicate 20 1, 0, exampleCandidate, true⟩], fun _ => none⟩
          [voteHeader 1 exampleCandidate nonceAuthVote] = .ok r ∧ ¬ Consistent r.number.toNat r) ∧
    (Inv (2 ^ 64 - 1) ⟨(2 ^ 64 - 1 : Nat).toUInt64, Vector.replicate 32 0, exampleSigners.toFinset,
        [((2 ^ 64 - 2 : Nat).toUInt64, Vector.replicate 20 1)], [], fun _ => none⟩ ∧
      ∃ r, Snapshot.apply 30000 (fun _ => .ok (Vector.replicate 20 2)) (fun _ => Vector.replicate 32 0)
          ⟨(2 ^ 64 - 1 : Nat).toUInt64, Vector.replicate 32 0, exampleSigners.toFinset,
            [((2 ^ 64 - 2 : Nat).toUInt64, Vector.replicate 20 1)], [], fun _ => none⟩
          [voteHeader (2 ^ 64) exampleCandidate nonceDropVote] = .ok r ∧ ¬ Consistent r.number.toNat r) := by
  refine ⟨⟨⟨(fun _ _ h => by cases h), (fun _ _ h => by cases h), (fun _ _ h => by cases h), (by decide),
    (by decide), ⟨(fun _ h => by cases h), List.nodup_nil⟩⟩, _, rfl, fun hc => ?_⟩,
    ⟨inv_of_no_votes rfl rfl ⟨fun r hr => ?_, by decide⟩, _, rfl, fun hc => ?_⟩⟩
  · -- the candidate's tally counts one vote, but two are on it
    have h := (hc.tally_votes exampleCandidate ⟨true, 1⟩ (by decide)).2
    revert h
    decide
  · simp only [List.mem_singleton] at hr
    subst hr
    decide
  · -- the signer of block `2^64 - 2` is still recent at block `0`
    have h := (hc.recents.window ((2 ^ 64 - 2 : Nat).toUInt64, Vector.replicate 20 1) (by decide)).1
    revert h
    decide

end Go420coin.Clique
