import Go420coin.Core.Types
import Go420coin.Lib.EStateM

/-!
# The state transition of one message (`core/state_transition.go`, `core/state_processor.go`)

`TransitionDb` checks a message's nonce, buys its smoke from the block's smoke pool and the
sender's balance (`buySmoke`), charges the intrinsic smoke, checks that the sender can pay the
value, runs the EVM, refunds part of the used smoke, returns the smoke left to the pool and pays
the coinbase.  `applyTransaction` adds the used smoke to the header's `SmokeUsed`.

The StateDB, the smoke pool and `SmokeUsed` are written through pointers, and a returned error
keeps the writes made before it: the functions run in `EStateM` over `Env`.  The EVM's `Call` and
`Create` are a parameter `Evm`; the receipt, the logs and the access list are left out.
-/

namespace Go420coin.Core

/-- `params.TxSmoke`. -/
def txSmoke : UInt64 := 20000

/-- `params.TxSmokeContractCreation`. -/
def txSmokeContractCreation : UInt64 := 50000

/-- `params.TxDataZeroSmoke`. -/
def txDataZeroSmoke : UInt64 := 4

/-- `params.TxDataNonZeroSmokeFrontier`. -/
def txDataNonZeroSmokeFrontier : UInt64 := 68

/-- `params.TxDataNonZeroSmokeEIP2028`. -/
def txDataNonZeroSmokeEIP2028 : UInt64 := 16

/-- `math.MaxUint64`. -/
def maxUint64 : UInt64 := 18446744073709551615

/-- The consensus errors of a message. -/
inductive TxError where
  | nonceTooHigh
  | nonceTooLow
  | insufficientFunds
  | smokeLimitReached
  | smokeUintOverflow
  | intrinsicSmoke
  | insufficientFundsForTransfer
  deriving DecidableEq, Repr

/-- A returned error, or the panic of `AddSmoke` ("smoke pool pushed above uint64"). -/
inductive Failure where
  | error (e : TxError)
  | panic
  deriving DecidableEq, Repr

/-- `types.Message`, the fields the transition reads. -/
structure Message where
  sender : Address
  recipient : Option Address
  nonce : UInt64
  value : Nat
  smoke : UInt64
  smokePrice : Nat
  data : List UInt8
  checkNonce : Bool

/-- The StateDB as the transition reads and writes it. -/
structure World where
  balance : Address → Int
  nonce : Address → UInt64
  refund : UInt64

/-- `AddBalance`. -/
def World.addBalance (w : World) (a : Address) (amount : Int) : World :=
  { w with balance := Function.update w.balance a (w.balance a + amount) }

/-- `SubBalance`. -/
def World.subBalance (w : World) (a : Address) (amount : Int) : World :=
  { w with balance := Function.update w.balance a (w.balance a - amount) }

/-- `SetNonce`. -/
def World.setNonce (w : World) (a : Address) (n : UInt64) : World :=
  { w with nonce := Function.update w.nonce a n }

/-- `core.CanTransfer`. -/
def canTransfer (w : World) (a : Address) (amount : Nat) : Bool := decide ((amount : Int) ≤ w.balance a)

/-- The EVM's `Call` and `Create` as the transition uses them: the world after the run, the smoke
left and whether execution failed.  It never returns more smoke than it was given. -/
structure Evm where
  exec : World → Message → UInt64 → World × UInt64 × Bool
  exec_le : ∀ w msg smoke, (exec w msg smoke).2.1 ≤ smoke

/-- What a block's transactions write through pointers: the StateDB, the block's smoke pool and
the header's `SmokeUsed`. -/
structure Env where
  state : World
  smokePool : UInt64
  smokeUsed : UInt64

/-- `ExecutionResult`: the used smoke and whether execution failed. -/
structure ExecutionResult where
  usedSmoke : UInt64
  failed : Bool

abbrev M := EStateM Failure Env

/-- `SmokePool.AddSmoke`. -/
def addSmoke (amount : UInt64) : M Unit := do
  let env ← get
  if env.smokePool > maxUint64 - amount then throw .panic
  set { env with smokePool := env.smokePool + amount }

/-- `SmokePool.SubSmoke`. -/
def subSmoke (amount : UInt64) : M Unit := do
  let env ← get
  if env.smokePool < amount then throw (.error .smokeLimitReached)
  set { env with smokePool := env.smokePool - amount }

/-- `IntrinsicSmoke`. -/
def intrinsicSmoke (data : List UInt8) (contractCreation isHomestead isEIP2028 : Bool) :
    Except TxError UInt64 :=
  let smoke := if contractCreation && isHomestead then txSmokeContractCreation else txSmoke
  if data.length > 0 then
    -- zero and non-zero bytes are priced differently
    let nz : UInt64 := (data.filter (· ≠ 0)).length.toUInt64
    let nonZeroSmoke := if isEIP2028 then txDataNonZeroSmokeEIP2028 else txDataNonZeroSmokeFrontier
    if (maxUint64 - smoke) / nonZeroSmoke < nz then .error .smokeUintOverflow
    else
      let smoke := smoke + nz * nonZeroSmoke
      let z := data.length.toUInt64 - nz
      if (maxUint64 - smoke) / txDataZeroSmoke < z then .error .smokeUintOverflow
      else .ok (smoke + z * txDataZeroSmoke)
  else .ok smoke

/-- `buySmoke`: the sender pays `smoke * smokePrice`, and the smoke leaves the pool. -/
def buySmoke (msg : Message) : M Unit := do
  let mgval : Int := msg.smoke.toNat * msg.smokePrice
  if (← get).state.balance msg.sender < mgval then throw (.error .insufficientFunds)
  subSmoke msg.smoke
  modify fun env => { env with state := env.state.subBalance msg.sender mgval }

/-- `preCheck`. -/
def preCheck (msg : Message) : M Unit := do
  if msg.checkNonce then
    let stNonce := (← get).state.nonce msg.sender
    if stNonce < msg.nonce then throw (.error .nonceTooHigh)
    else if stNonce > msg.nonce then throw (.error .nonceTooLow)
  buySmoke msg

/-- `refundSmoke`: the refund counter, capped to half of the used smoke, is added to the smoke
left; the sender is paid for it, and it returns to the pool. -/
def refundSmoke (msg : Message) (initialSmoke smoke : UInt64) : M UInt64 := do
  let refund := (initialSmoke - smoke) / 2
  let counter := (← get).state.refund
  let refund := if refund > counter then counter else refund
  let smoke := smoke + refund
  modify fun env => { env with state := env.state.addBalance msg.sender (smoke.toNat * msg.smokePrice) }
  addSmoke smoke
  pure smoke

variable (evm : Evm) (homestead istanbul : Bool) (coinbase : Address)

/-- `TransitionDb`. -/
def transitionDb (msg : Message) : M ExecutionResult := do
  preCheck msg
  let contractCreation := msg.recipient.isNone
  let smoke ← match intrinsicSmoke msg.data contractCreation homestead istanbul with
    | .ok smoke => pure smoke
    | .error e => throw (.error e)
  if msg.smoke < smoke then throw (.error .intrinsicSmoke)
  let left := msg.smoke - smoke
  let env ← get
  if msg.value > 0 && !canTransfer env.state msg.sender msg.value then
    throw (.error .insufficientFundsForTransfer)
  -- a call increments the sender's nonce before it runs; `Create` does it itself
  let state := if contractCreation then env.state
    else env.state.setNonce msg.sender (env.state.nonce msg.sender + 1)
  let (state, left, failed) := evm.exec state msg left
  set { env with state := state }
  let left ← refundSmoke msg msg.smoke left
  let used := msg.smoke - left
  modify fun env => { env with state := env.state.addBalance coinbase (used.toNat * msg.smokePrice) }
  pure ⟨used, failed⟩

/-- `applyTransaction`: the used smoke is added to the header's `SmokeUsed`. -/
def applyTransaction (msg : Message) : M UInt64 := do
  let result ← transitionDb evm homestead istanbul coinbase msg
  modify fun env => { env with smokeUsed := env.smokeUsed + result.usedSmoke }
  pure result.usedSmoke

/-! ### The checks before the EVM runs -/

section Spec

variable {env : Env} {msg : Message} {amount : UInt64}

theorem subSmoke_ok (h : amount ≤ env.smokePool) :
    subSmoke amount env = .ok () { env with smokePool := env.smokePool - amount } := by
  have hc : ¬ env.smokePool < amount := UInt64.not_lt.mpr h
  simp [subSmoke, hc]

theorem subSmoke_error (h : env.smokePool < amount) :
    subSmoke amount env = .error (.error .smokeLimitReached) env := by
  simp [subSmoke, h]

/-- The smoke bought: the sender pays for it and the pool gives it up. -/
theorem buySmoke_ok (hfunds : (msg.smoke.toNat * msg.smokePrice : Int) ≤ env.state.balance msg.sender)
    (hpool : msg.smoke ≤ env.smokePool) :
    buySmoke msg env = .ok () { env with
      state := env.state.subBalance msg.sender (msg.smoke.toNat * msg.smokePrice)
      smokePool := env.smokePool - msg.smoke } := by
  have hc : ¬ env.state.balance msg.sender < msg.smoke.toNat * msg.smokePrice := not_lt.mpr hfunds
  simp [buySmoke, hc, subSmoke_ok hpool]

/-- With the right nonce the checks come down to buying the smoke. -/
theorem preCheck_eq (hnonce : msg.checkNonce = true → env.state.nonce msg.sender = msg.nonce) :
    preCheck msg env = buySmoke msg env := by
  cases hc : msg.checkNonce with
  | false => simp [preCheck, hc]
  | true =>
    have hn := hnonce hc
    simp [preCheck, hc, hn]

end Spec

end Go420coin.Core
