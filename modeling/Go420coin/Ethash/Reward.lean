import Go420coin.Core.Types
import Go420coin.Rlp.Encode

/-!
# Block rewards (`consensus/ethash/consensus.go`, `AccumulateNewRewards`)

`AccumulateNewRewards` pays the block's miner, the miners of the included uncles and two funds whose
addresses a reward contract holds.  The contract is the first one the creator named in the genesis
header's extra data deploys (`CreateAddress`); its storage slot 0 holds the block after which the
addresses in slots 1 and 2 replace those in slots 3 and 4.  The function is modelled as the list of
`AddBalance` calls it makes, in order, with the state's storage as `getState` and Keccak-256 as
`keccak`; all amounts are `big.Int`s, and Go's `Div` is Euclidean, as `Int`'s `/` is.

The base reward of a block (`blockReward`) is `3e18` up to block 1000, `9e18` past block 1000000, and
`9e18 - (n / 100000) * 3e18` between: from block 400000 to block 1000000 it is negative, and so are the
amounts paid out of it (`accumulateNewRewards_negative`).  Where the base reward is not negative, no
amount is (`accumulateNewRewards_nonneg`).
-/

namespace Go420coin

/-- `crypto.CreateAddress`: the last twenty bytes of the hash of the encoding of the creator and its
nonce. -/
def createAddress (keccak : List UInt8 → List UInt8) (b : Address) (nonce : Nat) : Address :=
  bytesToAddress ((keccak (Rlp.encodeToBytes (.list [.bytes b.toList, .bytes (BigEndian.toBytes nonce)]))).drop 12)

namespace Ethash

/-- `SativaBlockReward`. -/
def sativaBlockReward : Int := 9000000000000000000

/-- `slowBlockReward`. -/
def slowBlockReward : Int := 3000000000000000000

/-- `SlowStart`. -/
def slowStart : Int := 1000

/-- `rewardBlockDivisor`. -/
def rewardBlockDivisor : Int := 100000

/-- `rewardBlockFlat`. -/
def rewardBlockFlat : Int := 1000000

/-- `rewardDistMinerRuderalis`. -/
def rewardDistMinerRuderalis : Int := 87

/-- `rewardDistMinerIndica`. -/
def rewardDistMinerIndica : Int := 80

/-- `rewardDistCannasseurBlock`. -/
def rewardDistCannasseurBlock : Int := 1111111

/-- `rewardDistFollower`. -/
def rewardDistFollower : Int := 7

/-- `rewardDistVet`. -/
def rewardDistVet : Int := 13

/-- `indicaForkBlock`. -/
def indicaForkBlock : Int := 1111111

/-- `sativaForkBlock`. -/
def sativaForkBlock : Int := 2102400

/-- `sativaRewardDistFollower`. -/
def sativaRewardDistFollower : Int := 15

/-- `sativaRewardDistVet`. -/
def sativaRewardDistVet : Int := 10

/-- `sativaRewardDistMiner`. -/
def sativaRewardDistMiner : Int := 75

/-- The base reward `AccumulateNewRewards` computes for block `number`. -/
def blockReward (number : Nat) : Int :=
  if (number : Int) ≤ slowStart then slowBlockReward
  else if rewardBlockFlat < number then sativaBlockReward
  else 9000000000000000000 - (number : Int) / rewardBlockDivisor * slowBlockReward

/-- The fund addresses: those in slots 1 and 2 of the reward contract past the block in its slot 0,
those in slots 3 and 4 before.  An address is the last twenty bytes of its slot. -/
def rewardAddresses (getState : Address → Hash → Hash) (contract : Address) (number : Nat) :
    Address × Address :=
  let slot (i : UInt8) : Address := bytesToAddress ((getState contract (bytesToHash [i])).toList.drop 12)
  if (getState contract (bytesToHash [0])).big < number then (slot 1, slot 2) else (slot 3, slot 4)

/-- The uncle loop of `AccumulateNewRewards`: uncle `u` earns `(u + 8 - n) * reward / 8`, paid out
as `split` gives it, and each uncle raises the reward by a 32nd.  Returns the raised reward and the
calls. -/
def uncleRewards (split : Address → Int → List (Address × Int)) (n : Int) :
    Int → List Header → Int × List (Address × Int)
  | reward, [] => (reward, [])
  | reward, u :: us =>
    let r := ((u.number : Int) + 8 - n) * reward / 8
    let (reward', calls) := uncleRewards split n (reward + reward / 32) us
    (reward', split u.coinbase r ++ calls)

/-- `AccumulateNewRewards`: the `AddBalance` calls it makes, in order. -/
def accumulateNewRewards (keccak : List UInt8 → List UInt8) (getState : Address → Hash → Hash)
    (header : Header) (uncles : List Header) (genesisHeader : Header) : List (Address × Int) :=
  let creatorAddress := bytesToAddress genesisHeader.extra
  let contractAddress := createAddress keccak creatorAddress 0
  let (vet, follower) := rewardAddresses getState contractAddress header.number
  let n : Int := header.number
  if rewardDistCannasseurBlock < n then
    if sativaForkBlock < n then
      let (reward, calls) := uncleRewards (fun c r =>
        [(c, r * sativaRewardDistMiner / 100), (vet, r * sativaRewardDistVet / 100),
          (follower, r * sativaRewardDistFollower / 100)]) n (blockReward header.number) uncles
      calls ++ [(vet, reward * sativaRewardDistVet / 100), (follower, reward * sativaRewardDistFollower / 100),
        (header.coinbase, reward * sativaRewardDistMiner / 100)]
    else
      -- the two funds share the contract's part equally
      let (reward, calls) := uncleRewards (fun c r =>
        let contractReward := r * (rewardDistFollower + rewardDistVet) / 100
        [(c, r * rewardDistMinerIndica / 100), (vet, contractReward / 2), (follower, contractReward / 2)])
        n (blockReward header.number) uncles
      let contractReward := reward * (rewardDistFollower + rewardDistVet) / 100
      calls ++ [(vet, contractReward / 2), (follower, contractReward / 2)] ++
        if indicaForkBlock < n then [(header.coinbase, reward * rewardDistMinerIndica / 100)] else []
  else
    let (reward, calls) := uncleRewards (fun c r =>
      [(c, r * rewardDistMinerRuderalis / 100), (vet, r * rewardDistVet / 100)]) n (blockReward header.number) uncles
    calls ++ [(vet, reward * rewardDistVet / 100), (header.coinbase, reward * rewardDistMinerRuderalis / 100)]

/-- The balances after a run of `AddBalance` calls. -/
def addBalances (balance : Address → Int) (calls : List (Address × Int)) : Address → Int :=
  calls.foldl (fun b c => Function.update b c.1 (b c.1 + c.2)) balance

/-! ### Signs of the rewards -/

/-- Uncles no more than seven blocks below the block earn a share of a reward that is not negative,
split into amounts that are not negative, and leave the reward not negative. -/
theorem uncleRewards_nonneg {split : Address → Int → List (Address × Int)}
    (hsplit : ∀ c r, 0 ≤ r → ∀ p ∈ split c r, 0 ≤ p.2) {n reward : Int} (hr : 0 ≤ reward) {uncles : List Header}
    (hu : ∀ u ∈ uncles, n ≤ (u.number : Int) + 7) :
    0 ≤ (uncleRewards split n reward uncles).1 ∧ ∀ p ∈ (uncleRewards split n reward uncles).2, 0 ≤ p.2 := by
  induction uncles generalizing reward with
  | nil => exact ⟨hr, by simp [uncleRewards]⟩
  | cons u us ih =>
    have hshare : 0 ≤ ((u.number : Int) + 8 - n) * reward / 8 :=
      Int.ediv_nonneg (mul_nonneg (by linarith [hu u (by simp)]) hr) (by norm_num)
    obtain ⟨ih₁, ih₂⟩ := ih (show 0 ≤ reward + reward / 32 by omega) fun v hv => hu v (by simp [hv])
    refine ⟨ih₁, fun p hp => ?_⟩
    simp only [uncleRewards, List.mem_append] at hp
    rcases hp with hp | hp
    · exact hsplit _ _ hshare p hp
    · exact ih₂ p hp

theorem share_nonneg {r k d : Int} (hr : 0 ≤ r) (hk : 0 ≤ k) (hd : 0 ≤ d) : 0 ≤ r * k / d :=
  Int.ediv_nonneg (mul_nonneg hr hk) hd

/-- Where the base reward is not negative, `AccumulateNewRewards` adds no negative amount, for uncles
no more than seven blocks below the block (as `VerifyUncles` accepts them) and any state. -/
theorem accumulateNewRewards_nonneg (keccak : List UInt8 → List UInt8) (getState : Address → Hash → Hash)
    (header : Header) (uncles : List Header) (genesisHeader : Header) (hr : 0 ≤ blockReward header.number)
    (hu : ∀ u ∈ uncles, (header.number : Int) ≤ (u.number : Int) + 7) :
    ∀ p ∈ accumulateNewRewards keccak getState header uncles genesisHeader, 0 ≤ p.2 := by
  intro p hp
  unfold accumulateNewRewards at hp
  simp only at hp
  generalize rewardAddresses getState (createAddress keccak (bytesToAddress genesisHeader.extra) 0) header.number = a
    at hp
  by_cases h₁ : rewardDistCannasseurBlock < (header.number : Int)
  on_goal 2 => rw [if_neg h₁] at hp
  rw [if_pos h₁] at hp
  by_cases h₂ : sativaForkBlock < (header.number : Int)
  on_goal 2 => rw [if_neg h₂] at hp
  rw [if_pos h₂] at hp
  · -- after the Sativa fork: three shares of each reward
    have hs : ∀ c r, 0 ≤ r → ∀ q ∈ [(c, r * sativaRewardDistMiner / 100), (a.1, r * sativaRewardDistVet / 100),
        (a.2, r * sativaRewardDistFollower / 100)], 0 ≤ q.2 := by
      intro c r hr q hq
      simp only [List.mem_cons, List.not_mem_nil, or_false] at hq
      rcases hq with rfl | rfl | rfl <;> exact share_nonneg hr (by decide) (by decide)
    obtain ⟨hR, hcalls⟩ := uncleRewards_nonneg hs hr hu
    simp only [List.mem_append, List.mem_cons, List.not_mem_nil, or_false] at hp
    rcases hp with hp | rfl | rfl | rfl
    · exact hcalls p hp
    all_goals exact share_nonneg hR (by decide) (by decide)
  · -- between the Cannasseur block and the Sativa fork: the funds halve the contract's share
    have hs : ∀ c r, 0 ≤ r → ∀ q ∈ [(c, r * rewardDistMinerIndica / 100),
        (a.1, r * (rewardDistFollower + rewardDistVet) / 100 / 2),
        (a.2, r * (rewardDistFollower + rewardDistVet) / 100 / 2)], 0 ≤ q.2 := by
      intro c r hr q hq
      simp only [List.mem_cons, List.not_mem_nil, or_false] at hq
      rcases hq with rfl | rfl | rfl
      · exact share_nonneg hr (by decide) (by decide)
      all_goals exact Int.ediv_nonneg (share_nonneg hr (by decide) (by decide)) (by decide)
    obtain ⟨hR, hcalls⟩ := uncleRewards_nonneg hs hr hu
    simp only [List.mem_append, List.mem_cons, List.not_mem_nil, or_false] at hp
    rcases hp with (hp | rfl | rfl) | hp
    · exact hcalls p hp
    · exact Int.ediv_nonneg (share_nonneg hR (by decide) (by decide)) (by decide)
    · exact Int.ediv_nonneg (share_nonneg hR (by decide) (by decide)) (by decide)
    · split_ifs at hp
      · simp only [List.mem_cons, List.not_mem_nil, or_false] at hp
        subst hp
        exact share_nonneg hR (by decide) (by decide)
      · simp at hp
  · -- up to the Cannasseur block: the miner's and the veterans' shares
    have hs : ∀ c r, 0 ≤ r → ∀ q ∈ [(c, r * rewardDistMinerRuderalis / 100), (a.1, r * rewardDistVet / 100)],
        0 ≤ q.2 := by
      intro c r hr q hq
      simp only [List.mem_cons, List.not_mem_nil, or_false] at hq
      rcases hq with rfl | rfl <;> exact share_nonneg hr (by decide) (by decide)
    obtain ⟨hR, hcalls⟩ := uncleRewards_nonneg hs hr hu
    simp only [List.mem_append, List.mem_cons, List.not_mem_nil, or_false] at hp
    rcases hp with hp | rfl | rfl
    · exact hcalls p hp
    all_goals exact share_nonneg hR (by decide) (by decide)

/-- A block past the Sativa fork with one uncle a block below it. -/
theorem accumulateNewRewards_nonneg_sativa :
    0 ≤ blockReward 3000000 ∧
      (∀ u ∈ [(⟨emptyUncleHash, Vector.replicate 20 2, 0, 2999999, 0, [], Vector.replicate 8 0⟩ : Header)],
        ((3000000 : Nat) : Int) ≤ (u.number : Int) + 7) ∧
      ∀ p ∈ accumulateNewRewards (fun _ => []) (fun _ _ => Vector.replicate 32 0)
        ⟨emptyUncleHash, Vector.replicate 20 1, 0, 3000000, 0, [], Vector.replicate 8 0⟩
        [⟨emptyUncleHash, Vector.replicate 20 2, 0, 2999999, 0, [], Vector.replicate 8 0⟩]
        ⟨emptyUncleHash, Vector.replicate 20 0, 0, 0, 0, [], Vector.replicate 8 0⟩, 0 ≤ p.2 :=
  ⟨by decide, by decide, accumulateNewRewards_nonneg _ _ _ _ _ (by decide) (by decide)⟩

/-- At block 400000 the base reward is `-3e18`: with no uncles, whatever the state, the veterans'
fund is paid `-3.9e17` and the miner `-2.61e18`, and a miner that held nothing ends with a negative
balance. -/
theorem accumulateNewRewards_negative (keccak : List UInt8 → List UInt8) (getState : Address → Hash → Hash)
    (header genesisHeader : Header) (hn : header.number = 400000) :
    (header.coinbase, -2610000000000000000) ∈ accumulateNewRewards keccak getState header [] genesisHeader ∧
      addBalances (fun _ => 0) (accumulateNewRewards keccak getState header [] genesisHeader) header.coinbase < 0 := by
  generalize hv : (rewardAddresses getState (createAddress keccak (bytesToAddress genesisHeader.extra) 0)
    header.number).1 = vet
  have hcalls : accumulateNewRewards keccak getState header [] genesisHeader =
      [(vet, -390000000000000000), (header.coinbase, -2610000000000000000)] := by
    rw [← hv]
    simp [accumulateNewRewards, hn, uncleRewards, blockReward, rewardDistCannasseurBlock, slowStart, rewardBlockFlat,
      rewardBlockDivisor, slowBlockReward, rewardDistVet, rewardDistMinerRuderalis]
  rw [hcalls]
  refine ⟨by simp, ?_⟩
  simp only [addBalances, List.foldl_cons, List.foldl_nil, Function.update_self]
  by_cases hc : header.coinbase = vet
  · rw [hc, Function.update_self]
    norm_num
  · rw [Function.update_of_ne hc]
    norm_num

/-- A miner at block 400000 under an empty state and an empty genesis `extra`. -/
theorem accumulateNewRewards_negative_at_400000 :
    (⟨emptyUncleHash, Vector.replicate 20 1, 0, 400000, 0, [], Vector.replicate 8 0⟩ : Header).number = 400000 ∧
      addBalances (fun _ => 0) (accumulateNewRewards (fun _ => []) (fun _ _ => Vector.replicate 32 0)
        ⟨emptyUncleHash, Vector.replicate 20 1, 0, 400000, 0, [], Vector.replicate 8 0⟩ []
        ⟨emptyUncleHash, Vector.replicate 20 0, 0, 0, 0, [], Vector.replicate 8 0⟩) (Vector.replicate 20 1) < 0 :=
  ⟨rfl, (accumulateNewRewards_negative (fun _ => []) (fun _ _ => Vector.replicate 32 0)
    ⟨emptyUncleHash, Vector.replicate 20 1, 0, 400000, 0, [], Vector.replicate 8 0⟩
    ⟨emptyUncleHash, Vector.replicate 20 0, 0, 0, 0, [], Vector.replicate 8 0⟩ rfl).2⟩

/-! ### The order of the uncles -/

/-- After a run of `AddBalance` calls, every address holds what it held and the sum of what was
paid to it. -/
theorem addBalances_apply (balance : Address → Int) (calls : List (Address × Int)) (x : Address) :
    addBalances balance calls x = balance x + ((calls.filter (·.1 = x)).map (·.2)).sum := by
  induction calls generalizing balance with
  | nil => simp [addBalances]
  | cons c calls ih =>
    simp only [addBalances, List.foldl_cons] at ih ⊢
    rw [ih]
    by_cases hc : c.1 = x
    · subst hc
      simp only [Function.update_self, decide_true, List.filter_cons_of_pos, List.map_cons, List.sum_cons]
      ring
    · simp [Function.update_of_ne (Ne.symm hc), hc]

/-- **The uncle rewards depend on the order of the uncles.**  Past the Sativa fork the base reward
is `9e18`; with an uncle one block below the block and one two blocks below, mined by different
miners outside the fund addresses and the block's miner, the miner of the first uncle is paid
`75%` of `7 * 9e18 / 8` when its uncle comes first, and `75%` of `7 * (9e18 + 9e18 / 32) / 8` when
it comes second: the loop prices the second uncle on the reward already raised by the first. -/
theorem accumulateNewRewards_uncle_order (keccak : List UInt8 → List UInt8) (getState : Address → Hash → Hash)
    (header genesisHeader u₁ u₂ : Header) (hn : sativaForkBlock < (header.number : Int))
    (h₁ : u₁.number + 1 = header.number) (h₂ : u₂.number + 2 = header.number) (hab : u₁.coinbase ≠ u₂.coinbase)
    (hfund : u₁.coinbase ∉ [(rewardAddresses getState (createAddress keccak (bytesToAddress genesisHeader.extra) 0)
      header.number).1, (rewardAddresses getState (createAddress keccak (bytesToAddress genesisHeader.extra) 0)
      header.number).2, header.coinbase]) :
    addBalances (fun _ => 0) (accumulateNewRewards keccak getState header [u₁, u₂] genesisHeader) u₁.coinbase =
        5906250000000000000 ∧
      addBalances (fun _ => 0) (accumulateNewRewards keccak getState header [u₂, u₁] genesisHeader) u₁.coinbase =
        6090820312500000000 := by
  generalize hv : rewardAddresses getState (createAddress keccak (bytesToAddress genesisHeader.extra) 0)
    header.number = funds at hfund
  obtain ⟨vet, follower⟩ := funds
  simp only [List.mem_cons, List.not_mem_nil, or_false, not_or] at hfund
  obtain ⟨hvet, hfollower, hcoinbase⟩ := hfund
  -- the block is past the Sativa fork, so past the Cannasseur block and the flat reward
  have hc : rewardDistCannasseurBlock < (header.number : Int) := by
    unfold rewardDistCannasseurBlock; unfold sativaForkBlock at hn; omega
  have hR : blockReward header.number = 9000000000000000000 := by
    unfold blockReward slowStart rewardBlockFlat sativaBlockReward
    unfold sativaForkBlock at hn
    rw [if_neg (by omega), if_pos (by omega)]
  have e₁ : (u₁.number : Int) + 8 - header.number = 7 := by omega
  have e₂ : (u₂.number : Int) + 8 - header.number = 6 := by omega
  simp only [accumulateNewRewards, hv, hc, hn, if_true, uncleRewards, e₁, e₂, hR, addBalances_apply]
  simp [sativaRewardDistMiner, sativaRewardDistVet, sativaRewardDistFollower, Ne.symm hvet,
    Ne.symm hfollower, Ne.symm hcoinbase, Ne.symm hab]

/-- A block at height 3000000 with uncles at 2999999 and 2999998, under an empty state. -/
theorem accumulateNewRewards_uncle_order_at_3000000 :
    addBalances (fun _ => 0) (accumulateNewRewards (fun _ => []) (fun _ _ => Vector.replicate 32 0)
        ⟨emptyUncleHash, Vector.replicate 20 1, 0, 3000000, 0, [], Vector.replicate 8 0⟩
        [⟨emptyUncleHash, Vector.replicate 20 2, 0, 2999999, 0, [], Vector.replicate 8 0⟩,
          ⟨emptyUncleHash, Vector.replicate 20 3, 0, 2999998, 0, [], Vector.replicate 8 0⟩]
        ⟨emptyUncleHash, Vector.replicate 20 0, 0, 0, 0, [], Vector.replicate 8 0⟩) (Vector.replicate 20 2) =
        5906250000000000000 ∧
      addBalances (fun _ => 0) (accumulateNewRewards (fun _ => []) (fun _ _ => Vector.replicate 32 0)
        ⟨emptyUncleHash, Vector.replicate 20 1, 0, 3000000, 0, [], Vector.replicate 8 0⟩
        [⟨emptyUncleHash, Vector.replicate 20 3, 0, 2999998, 0, [], Vector.replicate 8 0⟩,
          ⟨emptyUncleHash, Vector.replicate 20 2, 0, 2999999, 0, [], Vector.replicate 8 0⟩]
        ⟨emptyUncleHash, Vector.replicate 20 0, 0, 0, 0, [], Vector.replicate 8 0⟩) (Vector.replicate 20 2) =
        6090820312500000000 :=
  accumulateNewRewards_uncle_order _ _ _ _ _ _ (by decide) rfl rfl (by decide) (by decide)

end Ethash

end Go420coin
