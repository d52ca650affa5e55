import Go420coin.Core.StateTransition

/-!
# Packing transactions into a block (`miner/worker.go`)

`commitTransaction` applies one transaction to the block being mined and, if it fails, reverts the
StateDB to the snapshot taken before it.  The smoke pool and the header's `SmokeUsed` are not part
of the StateDB, so the revert leaves them as the failed transaction left them.  `buySmoke` takes the
message's smoke from the pool before the intrinsic-smoke and transfer checks, and those checks fail
without giving it back: a transaction rejected there lowers the pool by its smoke and charges
nothing to `SmokeUsed` (`commitTransaction_leaks_smoke`).
-/

namespace Go420coin.Miner

open Go420coin.Core

variable (evm : Evm) (homestead istanbul : Bool) (coinbase : Address)

/-- `commitTransaction`: a failed transaction reverts the StateDB to its snapshot. -/
def commitTransaction (msg : Message) : M UInt64 := fun env =>
  match applyTransaction evm homestead istanbul coinbase msg env with
  | .error (.error e) env' => .error (.error e) { env' with state := env.state }
  | r => r

/-- A transaction offered to the miner: its message, and whether it is replay protected. -/
structure Tx where
  msg : Message
  isProtected : Bool

/-- `types.TransactionsByPriceAndNonce` as the loop uses it: the best transaction (`Peek`), the
next one of the same account in its place (`Shift`), and the account dropped (`Pop`). -/
structure TxSet (σ : Type) where
  peek : σ → Option Tx
  shift : σ → σ
  pop : σ → σ

/-- The loop of `commitTransactions`, for at most `fuel` more rounds: it stops when the pool holds
less than `TxSmoke` or no transaction is left, skips replay-protected transactions before EIP-155,
and after each transaction shifts to the sender's next one or drops the sender, by the error.  The
interrupt and the logs are left out. -/
def commitLoop {σ : Type} (txs : TxSet σ) (eip155 : Bool) : Nat → σ → M Unit
  | 0, _ => pure ()
  | fuel + 1, pending => fun env =>
    if env.smokePool < txSmoke then .ok () env
    else match txs.peek pending with
      | none => .ok () env
      | some tx =>
        if tx.isProtected && !eip155 then commitLoop txs eip155 fuel (txs.pop pending) env
        else match commitTransaction evm homestead istanbul coinbase tx.msg env with
          | .ok _ env' => commitLoop txs eip155 fuel (txs.shift pending) env'
          | .error (.error .smokeLimitReached) env' => commitLoop txs eip155 fuel (txs.pop pending) env'
          | .error (.error .nonceTooLow) env' => commitLoop txs eip155 fuel (txs.shift pending) env'
          | .error (.error .nonceTooHigh) env' => commitLoop txs eip155 fuel (txs.pop pending) env'
          | .error (.error _) env' => commitLoop txs eip155 fuel (txs.shift pending) env'
          | .error .panic env' => .error .panic env'

/-- `commitTransactions` in a fresh environment: the pool starts with the header's smoke limit
and `SmokeUsed` at zero. -/
def commitTransactions {σ : Type} (txs : TxSet σ) (eip155 : Bool) (smokeLimit : UInt64) (state : World)
    (fuel : Nat) (pending : σ) : EStateM.Result Failure Env Unit :=
  commitLoop evm homestead istanbul coinbase txs eip155 fuel pending ⟨state, smokeLimit, 0⟩

variable {evm homestead istanbul coinbase}

/-- A message whose smoke is below its intrinsic smoke is rejected after its smoke left the pool:
the StateDB is reverted and `SmokeUsed` is unchanged, but the pool keeps the loss. -/
theorem commitTransaction_leaks_smoke {env : Env} {msg : Message} {smoke : UInt64}
    (hnonce : msg.checkNonce = true → env.state.nonce msg.sender = msg.nonce)
    (hfunds : (msg.smoke.toNat * msg.smokePrice : Int) ≤ env.state.balance msg.sender)
    (hpool : msg.smoke ≤ env.smokePool)
    (hintr : intrinsicSmoke msg.data msg.recipient.isNone homestead istanbul = .ok smoke)
    (hlow : msg.smoke < smoke) :
    commitTransaction evm homestead istanbul coinbase msg env =
      .error (.error .intrinsicSmoke) { env with smokePool := env.smokePool - msg.smoke } := by
  have hbuy := buySmoke_ok hfunds hpool
  simp [commitTransaction, applyTransaction, transitionDb, preCheck_eq hnonce, hbuy, hintr, hlow]

/-- An EVM that returns all the smoke it is given. -/
def idleEvm : Evm := ⟨fun w _ smoke => (w, smoke, false), fun _ _ _ => UInt64.le_refl _⟩

/-- Every account holds 10^18 and has nonce zero. -/
def fundedWorld : World := ⟨fun _ => 1000000000000000000, fun _ => 0, 0⟩

/-- A transfer of nothing with 10000 smoke, below the 20000 of `TxSmoke`. -/
def underpricedCall : Message :=
  ⟨Vector.replicate 20 1, some (Vector.replicate 20 2), 0, 0, 10000, 1, [], true⟩

theorem commitTransaction_leaks_smoke_first :
    commitTransaction idleEvm true true (Vector.replicate 20 3) underpricedCall ⟨fundedWorld, 8000000, 0⟩ =
      .error (.error .intrinsicSmoke) ⟨fundedWorld, 7990000, 0⟩ := by
  have hintr : intrinsicSmoke underpricedCall.data underpricedCall.recipient.isNone true true = .ok txSmoke := rfl
  exact commitTransaction_leaks_smoke (by decide) (by decide) (by decide) hintr (by decide)

end Go420coin.Miner
