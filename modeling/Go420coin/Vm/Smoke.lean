import Go420coin.Core.StateTransition

/-!
# Smoke of memory expansion and of calls (`core/vm/smoke_table.go`, `core/vm/smoke.go`)

Memory grows in 32-byte words and is paid for by `memorySmokeCost`: the total `C(w) =
w * MemorySmoke + w * w / QuadCoeffDiv` for the new word count `w`, less what the memory has paid
already (`lastSmokeCost`).  Sizes above `0x1FFFFFFFE0` are refused, so that `w * w` never wraps
(`memorySmokeCost_spec`).  Every operation that names a memory size has a smoke function that
charges `memorySmokeCost` for it and then adds charges of its own, which can only raise the total
(`PricesMemory`, proved for each entry of the table in `Vm.Interpreter`).

`callSmoke` is the smoke a call forwards: after EIP-150, all but a 64th of what is left after the
base charge, or the requested amount if that is less (`callSmoke_eip150`).  It subtracts the base
from the available smoke without a check; the call variants' smoke functions add the base back
with `SafeAdd`, so a base above the available smoke gives a total above it (`addCallSmoke_ok`),
which the interpreter cannot charge.

The functions write through `mem`, `contract` and `evm`: they run in `EStateM` over `Frame`, which
holds the memory, the contract's smoke, `evm.callSmokeTemp` and the state.  The state is reached
through the methods of the `vm.StateDB` interface that the call variants use (`StateDB`), over any
type `σ`.  `uint256.Int` is `BitVec 256`; the stack is its `data` slice, bottom first.
-/

namespace Go420coin.Vm


/-- The errors of the smoke functions and of the interpreter's charges. -/
inductive VmError
  /-- `ErrOutOfSmoke`. -/
  | outOfSmoke
  /-- `ErrSmokeUintOverflow`. -/
  | smokeUintOverflow
  deriving DecidableEq, Repr

/-! ### `common/math`, `uint256` and the stack -/

/-- `math.SafeAdd`: the wrapped sum and whether it carried. -/
def safeAdd (x y : UInt64) : UInt64 × Bool := (x + y, decide (2 ^ 64 ≤ x.toNat + y.toNat))

/-- `math.SafeMul`: the low word of the product and whether the high word is not zero. -/
def safeMul (x y : UInt64) : UInt64 × Bool := (x * y, decide (2 ^ 64 ≤ x.toNat * y.toNat))

/-- `uint256.Int.IsUint64`. -/
def isUint64 (x : BitVec 256) : Bool := decide (x.toNat < 2 ^ 64)

/-- `uint256.Int.Uint64`: the low 64 bits. -/
def uint64 (x : BitVec 256) : UInt64 := x.toNat.toUInt64

/-- `uint256.Int.Uint64WithOverflow`. -/
def uint64WithOverflow (x : BitVec 256) : UInt64 × Bool := (uint64 x, !isUint64 x)

/-- `common.Address(x.Bytes20())`: the low 20 bytes, most significant first. -/
def bytes20 (x : BitVec 256) : Address := Vector.ofFn fun i => (x.toNat / 256 ^ (19 - i.val)).toUInt8

/-- `Stack`: its `data`, bottom first. -/
structure Stack where
  data : List (BitVec 256)

/-- `Stack.Back(n)`, the `n`th item from the top (the interpreter's `minStack` check keeps `n` in
range). -/
def Stack.back (st : Stack) (n : Nat) : BitVec 256 := st.data.getD (st.data.length - n - 1) 0

/-! ### Parameters -/

/-- `params.MemorySmoke`. -/
def memorySmoke : UInt64 := 3

/-- `params.QuadCoeffDiv`. -/
def quadCoeffDiv : UInt64 := 512

/-- `params.CopySmoke`. -/
def copySmoke : UInt64 := 3

/-- `params.Sha3WordSmoke`. -/
def sha3WordSmoke : UInt64 := 6

/-- `params.LogSmoke`. -/
def logSmoke : UInt64 := 375

/-- `params.LogTopicSmoke`. -/
def logTopicSmoke : UInt64 := 375

/-- `params.LogDataSmoke`. -/
def logDataSmoke : UInt64 := 8

/-- `params.CallValueTransferSmoke`. -/
def callValueTransferSmoke : UInt64 := 9000

/-- `params.CallNewAccountSmoke`. -/
def callNewAccountSmoke : UInt64 := 25000

/-- `ColdAccountAccessCostEIP2929`. -/
def coldAccountAccessCostEIP2929 : UInt64 := 2600

/-- `WarmStorageReadCostEIP2929`. -/
def warmStorageReadCostEIP2929 : UInt64 := 100

/-! ### Memory -/

/-- `Memory`. -/
structure Memory where
  store : List UInt8
  lastSmokeCost : UInt64

/-- `NewMemory`. -/
def newMemory : Memory := ⟨[], 0⟩

/-- `Memory.Len`. -/
def Memory.len (m : Memory) : Nat := m.store.length

/-- `Memory.Resize`: grows the store with zeros to `size`, never shrinks it. -/
def Memory.resize (m : Memory) (size : UInt64) : Memory :=
  if m.len.toUInt64 < size then { m with store := m.store ++ List.replicate (size - m.len.toUInt64).toNat 0 }
  else m

/-- `toWordSize`: the size in words, rounded up. -/
def toWordSize (size : UInt64) : UInt64 :=
  if size > Core.maxUint64 - 31 then Core.maxUint64 / 32 + 1 else (size + 31) / 32

/-- `memorySmokeCost`: the smoke for growing the memory to `newMemSize`, which it records as
`lastSmokeCost`. -/
def memorySmokeCost (newMemSize : UInt64) : EStateM VmError Memory UInt64 := fun mem =>
  if newMemSize = 0 then .ok 0 mem
  else if newMemSize > 0x1FFFFFFFE0 then .error .smokeUintOverflow mem
  else
    let newMemSizeWords := toWordSize newMemSize
    let newMemSize := newMemSizeWords * 32
    if newMemSize > mem.len.toUInt64 then
      let square := newMemSizeWords * newMemSizeWords
      let linCoef := newMemSizeWords * memorySmoke
      let quadCoef := square / quadCoeffDiv
      let newTotalFee := linCoef + quadCoef
      let fee := newTotalFee - mem.lastSmokeCost
      .ok fee { mem with lastSmokeCost := newTotalFee }
    else .ok 0 mem

/-! ### Memory sizes (`core/vm/memory_table.go`, `core/vm/common.go`) -/

/-- `calcMemSize64WithUint`: `off + length64`, and whether it overflowed. -/
def calcMemSize64WithUint (off : BitVec 256) (length64 : UInt64) : UInt64 × Bool :=
  if length64 = 0 then (0, false)
  else
    let (offset64, overflow) := uint64WithOverflow off
    if overflow then (0, true)
    else
      let val := offset64 + length64
      (val, decide (val < offset64))

/-- `calcMemSize64`. -/
def calcMemSize64 (off l : BitVec 256) : UInt64 × Bool :=
  if !isUint64 l then (0, true) else calcMemSize64WithUint off (uint64 l)

/-- The memory size of an operation that reads or writes the region at stack positions `off` and
`len`. -/
def memoryOfRegion (off len : Nat) (stack : Stack) : UInt64 × Bool :=
  calcMemSize64 (stack.back off) (stack.back len)

/-- The memory size of an operation that reads or writes `n` bytes at stack position `off`. -/
def memoryOfWidth (off : Nat) (n : UInt64) (stack : Stack) : UInt64 × Bool :=
  calcMemSize64WithUint (stack.back off) n

/-- The memory size of a call: the larger of its two regions, return data and arguments. -/
def memoryOfCall (retOff retLen inOff inLen : Nat) (stack : Stack) : UInt64 × Bool :=
  let (x, overflow) := calcMemSize64 (stack.back retOff) (stack.back retLen)
  if overflow then (0, true)
  else
    let (y, overflow) := calcMemSize64 (stack.back inOff) (stack.back inLen)
    if overflow then (0, true)
    else if x > y then (x, false) else (y, false)

/-- `memorySha3`. -/
def memorySha3 : Stack → UInt64 × Bool := memoryOfRegion 0 1

/-- `memoryCallDataCopy`. -/
def memoryCallDataCopy : Stack → UInt64 × Bool := memoryOfRegion 0 2

/-- `memoryReturnDataCopy`. -/
def memoryReturnDataCopy : Stack → UInt64 × Bool := memoryOfRegion 0 2

/-- `memoryCodeCopy`. -/
def memoryCodeCopy : Stack → UInt64 × Bool := memoryOfRegion 0 2

/-- `memoryExtCodeCopy`. -/
def memoryExtCodeCopy : Stack → UInt64 × Bool := memoryOfRegion 1 3

/-- `memoryMLoad`. -/
def memoryMLoad : Stack → UInt64 × Bool := memoryOfWidth 0 32

/-- `memoryMStore8`. -/
def memoryMStore8 : Stack → UInt64 × Bool := memoryOfWidth 0 1

/-- `memoryMStore`. -/
def memoryMStore : Stack → UInt64 × Bool := memoryOfWidth 0 32

/-- `memoryCreate`. -/
def memoryCreate : Stack → UInt64 × Bool := memoryOfRegion 1 2

/-- `memoryCreate2`. -/
def memoryCreate2 : Stack → UInt64 × Bool := memoryOfRegion 1 2

/-- `memoryCall`, also `CALLCODE`'s. -/
def memoryCall : Stack → UInt64 × Bool := memoryOfCall 5 6 3 4

/-- `memoryDelegateCall`. -/
def memoryDelegateCall : Stack → UInt64 × Bool := memoryOfCall 4 5 2 3

/-- `memoryStaticCall`. -/
def memoryStaticCall : Stack → UInt64 × Bool := memoryOfCall 4 5 2 3

/-- `memoryReturn`. -/
def memoryReturn : Stack → UInt64 × Bool := memoryOfRegion 0 1

/-- `memoryRevert`. -/
def memoryRevert : Stack → UInt64 × Bool := memoryOfRegion 0 1

/-- `memoryLog`. -/
def memoryLog : Stack → UInt64 × Bool := memoryOfRegion 0 1

/-! ### What the smoke functions read and write -/

/-- The methods of `vm.StateDB` that the smoke functions here call, over a state `σ`. -/
structure StateDB (σ : Type) where
  exist : σ → Address → Bool
  empty : σ → Address → Bool
  addressInAccessList : σ → Address → Bool
  addAddressToAccessList : σ → Address → σ

/-- What the smoke functions read of `*EVM`: the chain rules and the state's methods. -/
structure Evm (σ : Type) where
  isEIP150 : Bool
  isEIP158 : Bool
  stateDB : StateDB σ

/-- What the smoke functions and the interpreter's charges write: the memory, `contract.Smoke`,
`evm.callSmokeTemp` and the state. -/
structure Frame (σ : Type) where
  mem : Memory
  smoke : UInt64
  callSmokeTemp : UInt64
  state : σ

/-- `smokeFunc`. -/
abbrev SmokeFunc (σ : Type) := Evm σ → Stack → UInt64 → EStateM VmError (Frame σ) UInt64

variable {σ α : Type}

/-- A call on the memory, made through `mem`. -/
def onMemory (x : EStateM VmError Memory α) : EStateM VmError (Frame σ) α := fun s =>
  match x s.mem with
  | .ok a m => .ok a { s with mem := m }
  | .error e m => .error e { s with mem := m }

/-- The guard after each checked operation: `if overflow { return 0, ErrSmokeUintOverflow }`. -/
def checked (r : UInt64 × Bool) : EStateM VmError (Frame σ) UInt64 :=
  if r.2 then throw .smokeUintOverflow else pure r.1

/-- `Contract.UseSmoke`. -/
def useSmoke (smoke : UInt64) : EStateM VmError (Frame σ) Bool := fun s =>
  if s.smoke < smoke then .ok false s else .ok true { s with smoke := s.smoke - smoke }

/-! ### The smoke functions that charge memory -/

/-- The smoke functions that charge the memory expansion and then `perWord` for each word of the
size at stack position `stackpos`. -/
def memoryWordSmoke (perWord : UInt64) (stackpos : Nat) : SmokeFunc σ := fun _ stack memorySize => do
  let smoke ← onMemory (memorySmokeCost memorySize)
  let words ← checked (uint64WithOverflow (stack.back stackpos))
  let words ← checked (safeMul (toWordSize words) perWord)
  checked (safeAdd smoke words)

/-- `memoryCopierSmoke`. -/
def memoryCopierSmoke (stackpos : Nat) : SmokeFunc σ := memoryWordSmoke copySmoke stackpos

/-- `smokeCallDataCopy`. -/
def smokeCallDataCopy : SmokeFunc σ := memoryCopierSmoke 2

/-- `smokeCodeCopy`. -/
def smokeCodeCopy : SmokeFunc σ := memoryCopierSmoke 2

/-- `smokeExtCodeCopy`. -/
def smokeExtCodeCopy : SmokeFunc σ := memoryCopierSmoke 3

/-- `smokeReturnDataCopy`. -/
def smokeReturnDataCopy : SmokeFunc σ := memoryCopierSmoke 2

/-- `smokeSha3`. -/
def smokeSha3 : SmokeFunc σ := memoryWordSmoke sha3WordSmoke 1

/-- `smokeCreate2`. -/
def smokeCreate2 : SmokeFunc σ := memoryWordSmoke sha3WordSmoke 2

/-- `pureMemorySmokecost`, the smoke of `RETURN`, `REVERT`, `MLOAD`, `MSTORE8`, `MSTORE` and
`CREATE`. -/
def pureMemorySmokecost : SmokeFunc σ := fun _ _ memorySize => onMemory (memorySmokeCost memorySize)

/-- `makeSmokeLog`: the requested size is read before the memory is charged. -/
def makeSmokeLog (n : UInt64) : SmokeFunc σ := fun _ stack memorySize => do
  let requestedSize ← checked (uint64WithOverflow (stack.back 1))
  let smoke ← onMemory (memorySmokeCost memorySize)
  let smoke ← checked (safeAdd smoke logSmoke)
  let smoke ← checked (safeAdd smoke (n * logTopicSmoke))
  let memorySizeSmoke ← checked (safeMul requestedSize logDataSmoke)
  checked (safeAdd smoke memorySizeSmoke)

/-! ### Calls -/

/-- `callSmoke`: after EIP-150 the smoke left after `base`, less a 64th, unless the requested
`callCost` is less. -/
def callSmoke (isEip150 : Bool) (availableSmoke base : UInt64) (callCost : BitVec 256) :
    Except VmError UInt64 :=
  let requested : Except VmError UInt64 :=
    if !isUint64 callCost then .error .smokeUintOverflow else .ok (uint64 callCost)
  if isEip150 then
    let availableSmoke := availableSmoke - base
    let smoke := availableSmoke - availableSmoke / 64
    if !isUint64 callCost || smoke < uint64 callCost then .ok smoke else requested
  else requested

/-- The end of every call variant's smoke function: `callSmoke` of the contract's smoke after
`smoke`, stored in `evm.callSmokeTemp` (zero on an error) and added to `smoke`. -/
def addCallSmoke (evm : Evm σ) (stack : Stack) (smoke : UInt64) : EStateM VmError (Frame σ) UInt64 :=
  fun s =>
    match callSmoke evm.isEIP150 s.smoke smoke (stack.back 0) with
    | .ok t => checked (safeAdd smoke t) { s with callSmokeTemp := t }
    | .error e => .error e { s with callSmokeTemp := 0 }

/-- `smokeCall`: a new account and a value transfer are charged before the memory. -/
def smokeCall : SmokeFunc σ := fun evm stack memorySize => do
  let s ← get
  let transfersValue := stack.back 2 != 0
  let address := bytes20 (stack.back 1)
  let newAccount : UInt64 :=
    if evm.isEIP158 then
      if transfersValue && evm.stateDB.empty s.state address then callNewAccountSmoke else 0
    else if !evm.stateDB.exist s.state address then callNewAccountSmoke else 0
  let smoke := newAccount + if transfersValue then callValueTransferSmoke else 0
  let memorySmoke ← onMemory (memorySmokeCost memorySize)
  let smoke ← checked (safeAdd smoke memorySmoke)
  addCallSmoke evm stack smoke

/-- `smokeCallCode`: the memory is charged before the value transfer. -/
def smokeCallCode : SmokeFunc σ := fun evm stack memorySize => do
  let memorySmoke ← onMemory (memorySmokeCost memorySize)
  let smoke : UInt64 := if stack.back 2 != 0 then callValueTransferSmoke else 0
  let smoke ← checked (safeAdd smoke memorySmoke)
  addCallSmoke evm stack smoke

/-- The smoke of the calls without a value: the memory, then `callSmoke`. -/
def memoryThenCallSmoke : SmokeFunc σ := fun evm stack memorySize => do
  let smoke ← onMemory (memorySmokeCost memorySize)
  addCallSmoke evm stack smoke

/-- `smokeDelegateCall`. -/
def smokeDelegateCall : SmokeFunc σ := memoryThenCallSmoke

/-- `smokeStaticCall`. -/
def smokeStaticCall : SmokeFunc σ := memoryThenCallSmoke

/-- `makeCallVariantSmokeCallEIP2929`: a cold address is added to the access list and charged
before the old calculator runs, so that `callSmoke` sees the smoke left after it. -/
def makeCallVariantSmokeCallEIP2929 (oldCalculator : SmokeFunc σ) : SmokeFunc σ :=
  fun evm stack memorySize => do
    let addr := bytes20 (stack.back 1)
    let s ← get
    if !evm.stateDB.addressInAccessList s.state addr then
      set { s with state := evm.stateDB.addAddressToAccessList s.state addr }
      if !(← useSmoke (coldAccountAccessCostEIP2929 - warmStorageReadCostEIP2929)) then
        throw .outOfSmoke
    oldCalculator evm stack memorySize

/-- `smokeCallEIP2929`. -/
def smokeCallEIP2929 : SmokeFunc σ := makeCallVariantSmokeCallEIP2929 smokeCall

/-- `smokeDelegateCallEIP2929`. -/
def smokeDelegateCallEIP2929 : SmokeFunc σ := makeCallVariantSmokeCallEIP2929 smokeDelegateCall

/-- `smokeStaticCallEIP2929`. -/
def smokeStaticCallEIP2929 : SmokeFunc σ := makeCallVariantSmokeCallEIP2929 smokeStaticCall

/-- `smokeCallCodeEIP2929`. -/
def smokeCallCodeEIP2929 : SmokeFunc σ := makeCallVariantSmokeCallEIP2929 smokeCallCode

/-- `smokeExtCodeCopyEIP2929`: the copy's smoke, then a cold address. -/
def smokeExtCodeCopyEIP2929 : SmokeFunc σ := fun evm stack memorySize => do
  let smoke ← smokeExtCodeCopy evm stack memorySize
  let addr := bytes20 (stack.back 0)
  let s ← get
  if !evm.stateDB.addressInAccessList s.state addr then
    set { s with state := evm.stateDB.addAddressToAccessList s.state addr }
    checked (safeAdd smoke (coldAccountAccessCostEIP2929 - warmStorageReadCostEIP2929))
  else pure smoke

/-! ### Checked arithmetic -/

@[simp] theorem checked_apply (r : UInt64 × Bool) (s : Frame σ) :
    checked r s = if r.2 then .error .smokeUintOverflow s else .ok r.1 s := by
  unfold checked
  split <;> rfl

theorem safeAdd_of_not_overflow {x y : UInt64} (h : (safeAdd x y).2 = false) :
    (safeAdd x y).1.toNat = x.toNat + y.toNat := by
  simp only [safeAdd, decide_eq_false_iff_not, Nat.not_le] at h ⊢
  rw [UInt64.toNat_add, Nat.mod_eq_of_lt h]

theorem le_safeAdd_left {x y : UInt64} (h : (safeAdd x y).2 = false) : x ≤ (safeAdd x y).1 := by
  rw [UInt64.le_iff_toNat_le, safeAdd_of_not_overflow h]
  omega

theorem le_safeAdd_right {x y : UInt64} (h : (safeAdd x y).2 = false) : y ≤ (safeAdd x y).1 := by
  rw [UInt64.le_iff_toNat_le, safeAdd_of_not_overflow h]
  omega

/-! ### The price of memory -/

/-- `C(w)`: what memory of `w` words costs in all. -/
def memoryFee (words : Nat) : Nat := words * memorySmoke.toNat + words * words / quadCoeffDiv.toNat

theorem memoryFee_mono {v w : Nat} (h : v ≤ w) : memoryFee v ≤ memoryFee w := by
  unfold memoryFee
  have hsq : v * v ≤ w * w := Nat.mul_le_mul h h
  have hdiv : v * v / quadCoeffDiv.toNat ≤ w * w / quadCoeffDiv.toNat := Nat.div_le_div_right hsq
  have hlin : v * memorySmoke.toNat ≤ w * memorySmoke.toNat := Nat.mul_le_mul_right _ h
  omega

/-- The largest size `memorySmokeCost` accepts, in words. -/
theorem toWordSize_le {size : UInt64} (hs : size ≤ 0x1FFFFFFFE0) :
    (toWordSize size).toNat = (size.toNat + 31) / 32 ∧ (toWordSize size).toNat ≤ 0xFFFFFFFF := by
  have hs' : size.toNat ≤ 0x1FFFFFFFE0 := UInt64.le_iff_toNat_le.mp hs
  have hle : ¬ Core.maxUint64 - 31 < size := by
    rw [UInt64.lt_iff_toNat_lt, UInt64.toNat_sub_of_le _ _ (by decide)]
    simp only [Core.maxUint64, UInt64.reduceToNat]
    omega
  have hadd : (size + 31).toNat = size.toNat + 31 := by
    rw [UInt64.toNat_add]
    simp only [UInt64.reduceToNat]
    omega
  simp only [toWordSize, gt_iff_lt, hle, if_false, UInt64.toNat_div, hadd, UInt64.reduceToNat, true_and]
  omega

/-- Below the limit, the total fee does not wrap. -/
theorem toNat_totalFee {w : UInt64} (hw : w.toNat ≤ 0xFFFFFFFF) :
    (w * memorySmoke + w * w / quadCoeffDiv).toNat = memoryFee w.toNat := by
  have hsq : w.toNat * w.toNat ≤ 0xFFFFFFFF * 0xFFFFFFFF := Nat.mul_le_mul hw hw
  generalize hq : w.toNat * w.toNat = q at hsq
  have hmul : (w * w).toNat = q := by
    rw [UInt64.toNat_mul, hq]
    omega
  have hlin : (w * memorySmoke).toNat = w.toNat * 3 := by
    rw [UInt64.toNat_mul]
    simp only [memorySmoke, UInt64.reduceToNat]
    omega
  rw [UInt64.toNat_add, UInt64.toNat_div, hmul, hlin]
  simp only [memoryFee, memorySmoke, quadCoeffDiv, UInt64.reduceToNat, hq]
  omega

/-- What the loop keeps of the memory: its length is whole words, within the limit, and
`lastSmokeCost` is the price of that many words. -/
structure MemoryPriced (m : Memory) : Prop where
  aligned : m.len % 32 = 0
  bounded : m.len ≤ 0x1FFFFFFFE0
  cost : m.lastSmokeCost.toNat = memoryFee (m.len / 32)

theorem newMemory_priced : MemoryPriced newMemory := ⟨rfl, by decide, rfl⟩

theorem toNat_len {m : Memory} (hm : m.len < 2 ^ 64) : m.len.toUInt64.toNat = m.len := by
  simp only [Nat.toUInt64_eq, UInt64.toNat_ofNat']
  omega

/-- `memorySmokeCost` on priced memory: sizes above the limit are refused; below it, the memory
pays for the larger of its words and the new size's, and the fee is the difference of the two
prices, with no wrap on the way. -/
theorem memorySmokeCost_spec {m : Memory} (hm : MemoryPriced m) {size : UInt64}
    (hs : size ≤ 0x1FFFFFFFE0) :
    ∃ fee m', memorySmokeCost size m = .ok fee m' ∧ m'.store = m.store ∧
      m'.lastSmokeCost.toNat = memoryFee (max (m.len / 32) (toWordSize size).toNat) ∧
      fee.toNat + memoryFee (m.len / 32) = memoryFee (max (m.len / 32) (toWordSize size).toNat) := by
  by_cases h0 : size = 0
  · subst h0
    refine ⟨0, m, by simp [memorySmokeCost], rfl, ?_, ?_⟩ <;>
      simp [toWordSize, Core.maxUint64, hm.cost]
  obtain ⟨hw, hwle⟩ := toWordSize_le hs
  have hlim : ¬ size > 0x1FFFFFFFE0 := UInt64.not_lt.mpr hs
  have hw32 : (toWordSize size * 32).toNat = (toWordSize size).toNat * 32 := by
    rw [UInt64.toNat_mul]
    simp only [UInt64.reduceToNat]
    omega
  have hlen := toNat_len (lt_of_le_of_lt hm.bounded (by decide))
  have hal := hm.aligned
  by_cases hgrow : toWordSize size * 32 > m.len.toUInt64
  · -- the memory grows: it records the new total
    have hgt : m.len / 32 < (toWordSize size).toNat := by
      rw [gt_iff_lt, UInt64.lt_iff_toNat_lt, hw32, hlen] at hgrow
      omega
    have hfee := toNat_totalFee hwle
    have hmono := memoryFee_mono hgt.le
    have hpaid : m.lastSmokeCost ≤
        toWordSize size * memorySmoke + toWordSize size * toWordSize size / quadCoeffDiv := by
      rw [UInt64.le_iff_toNat_le, hfee, hm.cost]
      exact hmono
    refine ⟨toWordSize size * memorySmoke + toWordSize size * toWordSize size / quadCoeffDiv - m.lastSmokeCost,
      { m with lastSmokeCost := toWordSize size * memorySmoke + toWordSize size * toWordSize size / quadCoeffDiv },
      by simp only [memorySmokeCost, h0, hlim, hgrow, if_false, if_true], rfl, ?_, ?_⟩
    · rw [hfee, max_eq_right hgt.le]
    · rw [UInt64.toNat_sub_of_le _ _ hpaid, hfee, hm.cost, max_eq_right hgt.le]
      omega
  · -- the memory already holds the size: nothing is charged
    have hle : (toWordSize size).toNat ≤ m.len / 32 := by
      rw [gt_iff_lt, UInt64.lt_iff_toNat_lt, hw32, hlen] at hgrow
      omega
    refine ⟨0, m, by simp only [memorySmokeCost, h0, hlim, hgrow, if_false], rfl, ?_, ?_⟩
    · rw [max_eq_left hle, hm.cost]
    · rw [max_eq_left hle, UInt64.toNat_zero, Nat.zero_add]

theorem len_resize {m : Memory} (hm : m.len < 2 ^ 64) (size : UInt64) :
    (m.resize size).len = max m.len size.toNat := by
  have hlen := toNat_len hm
  unfold Memory.resize
  split
  · rename_i hlt
    rw [UInt64.lt_iff_toNat_lt, hlen] at hlt
    simp only [Memory.len, List.length_append, List.length_replicate] at hlt hlen ⊢
    rw [UInt64.toNat_sub_of_le _ _ (UInt64.le_of_lt (by rw [UInt64.lt_iff_toNat_lt, hlen]; exact hlt)), hlen]
    omega
  · rename_i hge
    rw [UInt64.lt_iff_toNat_lt, hlen] at hge
    omega

@[simp] theorem lastSmokeCost_resize (m : Memory) (size : UInt64) :
    (m.resize size).lastSmokeCost = m.lastSmokeCost := by
  unfold Memory.resize
  split <;> rfl

/-- Above the limit, `memorySmokeCost` fails and leaves the memory as it is. -/
theorem memorySmokeCost_of_gt (m : Memory) {size : UInt64} (hs : 0x1FFFFFFFE0 < size) :
    memorySmokeCost size m = .error .smokeUintOverflow m := by
  have h0 : size ≠ 0 := by
    rintro rfl
    exact absurd hs (by decide)
  simp only [memorySmokeCost, h0, hs, if_false, if_true]

/-! ### The smoke functions that price memory

A smoke function prices the memory when the memory it leaves is what `memorySmokeCost` makes of it
and it charges at least that fee.  The functions are built from a memory charge, checks and sums
that leave the memory alone (`KeepsMemory`) and only raise the charge (`AtLeast`).
-/

/-- `x` leaves the memory as it is, whether it returns or fails. -/
def KeepsMemory (x : EStateM VmError (Frame σ) α) : Prop := ∀ s, (x s).state.mem = s.mem

/-- `x` leaves the memory as it is and, when it returns, returns at least `n`. -/
def AtLeast (n : UInt64) (x : EStateM VmError (Frame σ) UInt64) : Prop :=
  KeepsMemory x ∧ ∀ s c s', x s = .ok c s' → n ≤ c

/-- A smoke function, at a fixed EVM and stack, prices the memory: when it returns, the memory is
what `memorySmokeCost` of the size makes of it, and the charge is at least that fee. -/
def PricesMemory (f : UInt64 → EStateM VmError (Frame σ) UInt64) : Prop :=
  ∀ size s c s', f size s = .ok c s' → ∃ fee, memorySmokeCost size s.mem = .ok fee s'.mem ∧ fee ≤ c

theorem keepsMemory_checked (r : UInt64 × Bool) : KeepsMemory (σ := σ) (checked r) := by
  intro s
  rw [checked_apply]
  split <;> rfl

theorem keepsMemory_useSmoke (n : UInt64) : KeepsMemory (σ := σ) (useSmoke n) := by
  intro s
  unfold useSmoke
  split <;> rfl

theorem keepsMemory_get : KeepsMemory (σ := σ) get := fun _ => rfl

theorem KeepsMemory.bind {β : Type} {x : EStateM VmError (Frame σ) α} {f : α → EStateM VmError (Frame σ) β}
    (hx : KeepsMemory x) (hf : ∀ a, KeepsMemory (f a)) : KeepsMemory (x >>= f) := by
  intro s
  rw [EStateM.bind_apply]
  cases h : x s with
  | ok a s' => rw [hf a s', ← hx s, h]; rfl
  | error e s' => rw [← hx s, h]; rfl

theorem AtLeast.bind_keeps {n : UInt64} {x : EStateM VmError (Frame σ) α}
    {f : α → EStateM VmError (Frame σ) UInt64} (hx : KeepsMemory x) (hf : ∀ a, AtLeast n (f a)) :
    AtLeast n (x >>= f) := by
  refine ⟨hx.bind fun a => (hf a).1, fun s c s' h => ?_⟩
  rw [EStateM.bind_apply] at h
  cases hxs : x s with
  | ok a s₁ => rw [hxs] at h; exact (hf a).2 s₁ c s' h
  | error e s₁ => rw [hxs] at h; cases h

/-- A charge followed by one that only adds to it. -/
theorem AtLeast.bind {n : UInt64} {x : EStateM VmError (Frame σ) UInt64}
    {f : UInt64 → EStateM VmError (Frame σ) UInt64} (hx : AtLeast n x) (hf : ∀ c, AtLeast c (f c)) :
    AtLeast n (x >>= f) := by
  refine ⟨hx.1.bind fun c => (hf c).1, fun s c s' h => ?_⟩
  rw [EStateM.bind_apply] at h
  cases hxs : x s with
  | ok c₁ s₁ =>
    rw [hxs] at h
    exact UInt64.le_trans (hx.2 s c₁ s₁ hxs) ((hf c₁).2 s₁ c s' h)
  | error e s₁ => rw [hxs] at h; cases h

theorem atLeast_checked_safeAdd_left (x y : UInt64) : AtLeast (σ := σ) x (checked (safeAdd x y)) := by
  refine ⟨keepsMemory_checked _, fun s c s' h => ?_⟩
  rw [checked_apply] at h
  split at h
  · cases h
  · cases h
    exact le_safeAdd_left (by simpa only [Bool.not_eq_true] using ‹¬ _ = true›)

theorem atLeast_checked_safeAdd_right (x y : UInt64) : AtLeast (σ := σ) y (checked (safeAdd x y)) := by
  refine ⟨keepsMemory_checked _, fun s c s' h => ?_⟩
  rw [checked_apply] at h
  split at h
  · cases h
  · cases h
    exact le_safeAdd_right (by simpa only [Bool.not_eq_true] using ‹¬ _ = true›)

theorem atLeast_pure (n : UInt64) : AtLeast (σ := σ) n (pure n) :=
  ⟨fun _ => rfl, fun _ _ _ h => by cases h; exact UInt64.le_refl n⟩

/-- The memory charge, followed by charges that only add to its fee. -/
theorem pricesMemory_onMemory {k : UInt64 → UInt64 → EStateM VmError (Frame σ) UInt64}
    (hk : ∀ size fee, AtLeast fee (k size fee)) :
    PricesMemory fun size => onMemory (memorySmokeCost size) >>= k size := by
  intro size s c s' h
  dsimp only at h
  rw [EStateM.bind_apply, onMemory] at h
  cases hm : memorySmokeCost size s.mem with
  | ok fee m =>
    rw [hm] at h
    change k size fee { s with mem := m } = _ at h
    have hmem : s'.mem = m := by
      have hkeep := (hk size fee).1 { s with mem := m }
      rw [h] at hkeep
      exact hkeep
    exact ⟨fee, by rw [hmem], (hk size fee).2 _ c s' h⟩
  | error e m => rw [hm] at h; cases h

/-- Steps that leave the memory alone, then a function that prices it. -/
theorem PricesMemory.keeps_bind {x : EStateM VmError (Frame σ) α}
    {f : α → UInt64 → EStateM VmError (Frame σ) UInt64} (hx : KeepsMemory x) (hf : ∀ a, PricesMemory (f a)) :
    PricesMemory fun size => x >>= fun a => f a size := by
  intro size s c s' h
  dsimp only at h
  rw [EStateM.bind_apply] at h
  cases hxs : x s with
  | ok a s₁ =>
    rw [hxs] at h
    have hmem : s₁.mem = s.mem := by rw [← hx s, hxs]; rfl
    rw [← hmem]
    exact hf a size s₁ c s' h
  | error e s₁ => rw [hxs] at h; cases h

/-- A function that prices the memory, then charges that only add to its result. -/
theorem PricesMemory.bind_atLeast {f : UInt64 → EStateM VmError (Frame σ) UInt64}
    {k : UInt64 → EStateM VmError (Frame σ) UInt64} (hf : PricesMemory f) (hk : ∀ c, AtLeast c (k c)) :
    PricesMemory fun size => f size >>= k := by
  intro size s c s' h
  dsimp only at h
  rw [EStateM.bind_apply] at h
  cases hfs : f size s with
  | ok c₁ s₁ =>
    rw [hfs] at h
    change k c₁ s₁ = _ at h
    obtain ⟨fee, hm, hle⟩ := hf size s c₁ s₁ hfs
    have hmem : s'.mem = s₁.mem := by
      have hkeep := (hk c₁).1 s₁
      rw [h] at hkeep
      exact hkeep
    exact ⟨fee, hmem ▸ hm, UInt64.le_trans hle ((hk c₁).2 s₁ c s' h)⟩
  | error e s₁ => rw [hfs] at h; cases h

theorem atLeast_addCallSmoke (evm : Evm σ) (stack : Stack) (smoke : UInt64) :
    AtLeast smoke (addCallSmoke evm stack smoke) := by
  refine ⟨fun s => ?_, fun s c s' h => ?_⟩
  · unfold addCallSmoke
    split
    · exact keepsMemory_checked _ _
    · rfl
  · unfold addCallSmoke at h
    split at h
    · exact (atLeast_checked_safeAdd_left _ _).2 _ _ _ h
    · cases h

theorem pricesMemory_memoryWordSmoke (perWord : UInt64) (stackpos : Nat) (evm : Evm σ) (stack : Stack) :
    PricesMemory (memoryWordSmoke perWord stackpos evm stack) :=
  pricesMemory_onMemory fun _ fee =>
    AtLeast.bind_keeps (keepsMemory_checked _) fun _ =>
      AtLeast.bind_keeps (keepsMemory_checked _) fun words => atLeast_checked_safeAdd_left fee words

theorem pricesMemory_pureMemorySmokecost (evm : Evm σ) (stack : Stack) :
    PricesMemory (pureMemorySmokecost evm stack) := by
  intro size s c s' h
  simp only [pureMemorySmokecost, onMemory] at h
  cases hm : memorySmokeCost size s.mem with
  | ok fee m =>
    rw [hm] at h
    cases h
    exact ⟨c, rfl, UInt64.le_refl c⟩
  | error e m => rw [hm] at h; cases h

theorem pricesMemory_makeSmokeLog (n : UInt64) (evm : Evm σ) (stack : Stack) :
    PricesMemory (makeSmokeLog n evm stack) :=
  PricesMemory.keeps_bind (keepsMemory_checked _) fun _ =>
    pricesMemory_onMemory fun _ fee =>
      (atLeast_checked_safeAdd_left fee _).bind fun c =>
        (atLeast_checked_safeAdd_left c _).bind fun c' =>
          AtLeast.bind_keeps (keepsMemory_checked _) fun dataSmoke => atLeast_checked_safeAdd_left c' dataSmoke

theorem pricesMemory_smokeCall (evm : Evm σ) (stack : Stack) : PricesMemory (smokeCall evm stack) :=
  PricesMemory.keeps_bind keepsMemory_get fun _ =>
    pricesMemory_onMemory fun _ fee =>
      (atLeast_checked_safeAdd_right _ fee).bind fun c => atLeast_addCallSmoke evm stack c

theorem pricesMemory_smokeCallCode (evm : Evm σ) (stack : Stack) : PricesMemory (smokeCallCode evm stack) :=
  pricesMemory_onMemory fun _ fee =>
    (atLeast_checked_safeAdd_right _ fee).bind fun c => atLeast_addCallSmoke evm stack c

theorem pricesMemory_memoryThenCallSmoke (evm : Evm σ) (stack : Stack) :
    PricesMemory (memoryThenCallSmoke evm stack) :=
  pricesMemory_onMemory fun _ fee => atLeast_addCallSmoke evm stack fee

/-- The EIP-2929 wrapper returns what the old calculator returns, from a frame with the same memory
(a cold address is added to the access list and charged first). -/
theorem makeCallVariantSmokeCallEIP2929_ok {old : SmokeFunc σ} {evm : Evm σ} {stack : Stack}
    {size c : UInt64} {s s' : Frame σ} (h : makeCallVariantSmokeCallEIP2929 old evm stack size s = .ok c s') :
    ∃ s₁ : Frame σ, s₁.mem = s.mem ∧ old evm stack size s₁ = .ok c s' := by
  simp only [makeCallVariantSmokeCallEIP2929, EStateM.bind_apply, EStateM.get_apply] at h
  cases hin : evm.stateDB.addressInAccessList s.state (bytes20 (stack.back 1))
  · -- a cold address: added to the access list and charged, then the old calculator
    simp only [hin, Bool.not_false, if_true, EStateM.bind_apply, EStateM.set_apply, useSmoke] at h
    by_cases hlt : s.smoke < coldAccountAccessCostEIP2929 - warmStorageReadCostEIP2929
    · simp [hlt] at h
    · simp only [hlt, if_false, Bool.not_true, Bool.false_eq_true] at h
      exact ⟨{ s with
        smoke := s.smoke - (coldAccountAccessCostEIP2929 - warmStorageReadCostEIP2929)
        state := evm.stateDB.addAddressToAccessList s.state (bytes20 (stack.back 1)) }, rfl, h⟩
  · simp only [hin, Bool.not_true, Bool.false_eq_true, if_false] at h
    exact ⟨s, rfl, h⟩

theorem pricesMemory_makeCallVariantSmokeCallEIP2929 {old : SmokeFunc σ} (evm : Evm σ) (stack : Stack)
    (hold : PricesMemory (old evm stack)) : PricesMemory (makeCallVariantSmokeCallEIP2929 old evm stack) := by
  intro size s c s' h
  obtain ⟨s₁, hmem, hs₁⟩ := makeCallVariantSmokeCallEIP2929_ok h
  rw [← hmem]
  exact hold size s₁ c s' hs₁

theorem pricesMemory_smokeExtCodeCopyEIP2929 (evm : Evm σ) (stack : Stack) :
    PricesMemory (smokeExtCodeCopyEIP2929 evm stack) := by
  intro size s c s' h
  simp only [smokeExtCodeCopyEIP2929, EStateM.bind_apply] at h
  cases hf : smokeExtCodeCopy evm stack size s with
  | ok c₁ s₁ =>
    rw [hf] at h
    obtain ⟨fee, hm, hle⟩ := pricesMemory_memoryWordSmoke copySmoke 3 evm stack size s c₁ s₁ hf
    simp only [EStateM.get_apply] at h
    cases hin : evm.stateDB.addressInAccessList s₁.state (bytes20 (stack.back 0))
    · -- a cold address adds its charge
      simp only [hin, Bool.not_false, if_true, EStateM.bind_apply, EStateM.set_apply] at h
      obtain ⟨hkeep, hge⟩ :=
        atLeast_checked_safeAdd_left (σ := σ) c₁ (coldAccountAccessCostEIP2929 - warmStorageReadCostEIP2929)
      have hmem : s'.mem = s₁.mem := by
        have hcold := hkeep { s₁ with state := evm.stateDB.addAddressToAccessList s₁.state (bytes20 (stack.back 0)) }
        rw [h] at hcold
        exact hcold
      exact ⟨fee, hmem ▸ hm, UInt64.le_trans hle (hge _ c s' h)⟩
    · simp only [hin, Bool.not_true, Bool.false_eq_true, if_false, EStateM.pure_apply] at h
      cases h
      exact ⟨fee, hm, hle⟩
  | error e s₁ => rw [hf] at h; cases h

/-! ### The smoke a call forwards -/

theorem toNat_uint64 {x : BitVec 256} (hx : isUint64 x = true) : (uint64 x).toNat = x.toNat := by
  simp only [isUint64, decide_eq_true_eq] at hx
  simp only [uint64, Nat.toUInt64_eq, UInt64.toNat_ofNat']
  omega

/-- After EIP-150, with a base within the available smoke, a call forwards the smaller of what it
asks for and all but a 64th of the smoke left after the base. -/
theorem callSmoke_eip150 {a b : UInt64} (hb : b ≤ a) (callCost : BitVec 256) :
    ∃ t, callSmoke true a b callCost = .ok t ∧
      t.toNat = min callCost.toNat ((a.toNat - b.toNat) - (a.toNat - b.toNat) / 64) := by
  have hab : (a - b).toNat = a.toNat - b.toNat := UInt64.toNat_sub_of_le _ _ hb
  have hdiv : ((a - b) / 64).toNat = (a.toNat - b.toNat) / 64 := by
    rw [UInt64.toNat_div, hab]
    rfl
  have hsmoke : (a - b - (a - b) / 64).toNat = (a.toNat - b.toNat) - (a.toNat - b.toNat) / 64 := by
    rw [UInt64.toNat_sub_of_le _ _ (by rw [UInt64.le_iff_toNat_le, hdiv, hab]; omega), hdiv, hab]
  have hlt : (a - b - (a - b) / 64).toNat < 2 ^ 64 := UInt64.toNat_lt _
  cases hu : isUint64 callCost
  · -- a request beyond 64 bits gets the share
    have hbig : 2 ^ 64 ≤ callCost.toNat := by simpa [isUint64] using hu
    refine ⟨a - b - (a - b) / 64, by simp [callSmoke, hu], ?_⟩
    omega
  · have hc := toNat_uint64 hu
    by_cases hless : a - b - (a - b) / 64 < uint64 callCost
    · refine ⟨a - b - (a - b) / 64, by simp [callSmoke, hu, hless], ?_⟩
      rw [UInt64.lt_iff_toNat_lt, hc] at hless
      omega
    · refine ⟨uint64 callCost, by simp [callSmoke, hu, hless], ?_⟩
      rw [UInt64.lt_iff_toNat_lt, hc] at hless
      omega

/-- What `addCallSmoke` returns: the base plus the forwarded smoke, with no wrap, which it stores. -/
theorem addCallSmoke_ok {evm : Evm σ} {stack : Stack} {smoke c : UInt64} {s s' : Frame σ}
    (h : addCallSmoke evm stack smoke s = .ok c s') :
    ∃ t, callSmoke evm.isEIP150 s.smoke smoke (stack.back 0) = .ok t ∧
      s' = { s with callSmokeTemp := t } ∧ c.toNat = smoke.toNat + t.toNat := by
  unfold addCallSmoke at h
  split at h
  · rename_i t ht
    rw [checked_apply] at h
    split at h
    · cases h
    · cases h
      exact ⟨t, ht, rfl, safeAdd_of_not_overflow (by simpa only [Bool.not_eq_true] using ‹¬ _ = true›)⟩
  · cases h

/-- When `x` returns, its last step was `addCallSmoke` of some base. -/
def EndsWithCallSmoke (evm : Evm σ) (stack : Stack) (x : EStateM VmError (Frame σ) UInt64) : Prop :=
  ∀ s c s', x s = .ok c s' → ∃ b s₁, addCallSmoke evm stack b s₁ = .ok c s'

theorem endsWithCallSmoke_addCallSmoke (evm : Evm σ) (stack : Stack) (b : UInt64) :
    EndsWithCallSmoke evm stack (addCallSmoke evm stack b) :=
  fun s _ _ h => ⟨b, s, h⟩

theorem EndsWithCallSmoke.bind {evm : Evm σ} {stack : Stack} {x : EStateM VmError (Frame σ) α}
    {k : α → EStateM VmError (Frame σ) UInt64} (hk : ∀ a, EndsWithCallSmoke evm stack (k a)) :
    EndsWithCallSmoke evm stack (x >>= k) := by
  intro s c s' h
  rw [EStateM.bind_apply] at h
  cases hx : x s with
  | ok a s₁ => rw [hx] at h; exact hk a s₁ c s' h
  | error e s₁ => rw [hx] at h; cases h

theorem endsWithCallSmoke_smokeCall (evm : Evm σ) (stack : Stack) (size : UInt64) :
    EndsWithCallSmoke evm stack (smokeCall evm stack size) :=
  EndsWithCallSmoke.bind fun _ => EndsWithCallSmoke.bind fun _ => EndsWithCallSmoke.bind fun b =>
    endsWithCallSmoke_addCallSmoke evm stack b

theorem endsWithCallSmoke_smokeCallCode (evm : Evm σ) (stack : Stack) (size : UInt64) :
    EndsWithCallSmoke evm stack (smokeCallCode evm stack size) :=
  EndsWithCallSmoke.bind fun _ => EndsWithCallSmoke.bind fun b => endsWithCallSmoke_addCallSmoke evm stack b

theorem endsWithCallSmoke_memoryThenCallSmoke (evm : Evm σ) (stack : Stack) (size : UInt64) :
    EndsWithCallSmoke evm stack (memoryThenCallSmoke evm stack size) :=
  EndsWithCallSmoke.bind fun b => endsWithCallSmoke_addCallSmoke evm stack b

theorem endsWithCallSmoke_makeCallVariantSmokeCallEIP2929 {old : SmokeFunc σ} (evm : Evm σ) (stack : Stack)
    (size : UInt64) (hold : EndsWithCallSmoke evm stack (old evm stack size)) :
    EndsWithCallSmoke evm stack (makeCallVariantSmokeCallEIP2929 old evm stack size) := by
  intro s c s' h
  obtain ⟨s₁, -, hs₁⟩ := makeCallVariantSmokeCallEIP2929_ok h
  exact hold s₁ c s' hs₁

end Go420coin.Vm
