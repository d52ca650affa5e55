import Go420coin.Vm.Smoke

/-!
# The charges of the interpreter's loop (`core/vm/interpreter.go`, `core/vm/jump_table.go`)

Each pass of `EVMInterpreter.Run`'s loop charges the operation's constant smoke, computes its
memory size in whole words, charges its dynamic smoke, and only then resizes the memory.  The smoke
function has already recorded the new total in `lastSmokeCost` when it charged the expansion; if the
charge fails the loop returns, and the memory with it.

So along every run whose operations price the memory as the jump table's do (`MemoryOp`), the
memory's length stays whole words and `lastSmokeCost` the price `C` of them, and the memory smoke
charged over the run is `C` of the final words (`run_memoryPriced`).  A call after EIP-150 keeps at
least a 64th of the smoke left to the caller and never forwards more than it asked for
(`step_call_keeps_share`).

What each operation then executes (`operation.execute`), the stack checks, the tracer and the
return data are left out: the loop is modelled over the operations it takes, each with the stack it
sees.  Execution writes memory only inside its length.
-/

namespace Go420coin.Vm

variable {σ α : Type}

/-- `operation`, the fields the loop's charges read. -/
structure Operation (σ : Type) where
  constantSmoke : UInt64
  dynamicSmoke : Option (SmokeFunc σ)
  memorySize : Option (Stack → UInt64 × Bool)

/-- An `Except` result in the interpreter's monad. -/
def liftExcept (x : Except VmError α) : EStateM VmError (Frame σ) α := fun s =>
  match x with
  | .ok a => .ok a s
  | .error e => .error e s

/-- A failed dynamic charge is reported as `ErrOutOfSmoke`, whatever its error. -/
def orOutOfSmoke (x : EStateM VmError (Frame σ) α) : EStateM VmError (Frame σ) α := fun s =>
  match x s with
  | .ok a s' => .ok a s'
  | .error _ s' => .error .outOfSmoke s'

/-- The memory size an operation needs, in whole words: `operation.memorySize`, then
`math.SafeMul(toWordSize(memSize), 32)`. -/
def memorySizeOf (op : Operation σ) (stack : Stack) : Except VmError UInt64 :=
  match op.memorySize with
  | none => .ok 0
  | some memorySizeFn =>
    let (memSize, overflow) := memorySizeFn stack
    if overflow then .error .smokeUintOverflow
    else
      let (memorySize, overflow) := safeMul (toWordSize memSize) 32
      if overflow then .error .smokeUintOverflow else .ok memorySize

/-- The dynamic portion of the smoke: the operation's smoke function, then `contract.UseSmoke`. -/
def chargeDynamic (evm : Evm σ) (op : Operation σ) (stack : Stack) (memorySize : UInt64) :
    EStateM VmError (Frame σ) Unit :=
  match op.dynamicSmoke with
  | none => pure ()
  | some dynamicSmoke => do
    let dynamicCost ← orOutOfSmoke (dynamicSmoke evm stack memorySize)
    if !(← useSmoke dynamicCost) then throw .outOfSmoke

/-- One pass of `Run`'s loop up to `execute`: the constant smoke, the memory size, the dynamic smoke
and the resize. -/
def step (evm : Evm σ) (op : Operation σ) (stack : Stack) : EStateM VmError (Frame σ) Unit := do
  if !(← useSmoke op.constantSmoke) then throw .outOfSmoke
  let memorySize ← liftExcept (memorySizeOf op stack)
  chargeDynamic evm op stack memorySize
  if memorySize > 0 then modify fun s => { s with mem := s.mem.resize memorySize }

/-- `Run`'s loop over the operations it takes, each with the stack it sees. -/
def run (evm : Evm σ) : List (Operation σ × Stack) → EStateM VmError (Frame σ) Unit
  | [] => pure ()
  | (op, stack) :: rest => do
    step evm op stack
    run evm rest

/-! ### The operations that name a memory size -/

/-- The entries of the jump table with a `memorySize`. -/
inductive MemoryOp
  | SHA3 | CALLDATACOPY | CODECOPY | EXTCODECOPY | RETURNDATACOPY | MLOAD | MSTORE | MSTORE8
  | LOG0 | LOG1 | LOG2 | LOG3 | LOG4 | CREATE | CREATE2 | CALL | CALLCODE | DELEGATECALL | STATICCALL
  | RETURN | REVERT
  deriving DecidableEq, Repr

/-- The entry's `memorySize`. -/
def MemoryOp.memorySize : MemoryOp → Stack → UInt64 × Bool
  | .SHA3 => memorySha3
  | .CALLDATACOPY => memoryCallDataCopy
  | .CODECOPY => memoryCodeCopy
  | .EXTCODECOPY => memoryExtCodeCopy
  | .RETURNDATACOPY => memoryReturnDataCopy
  | .MLOAD => memoryMLoad
  | .MSTORE => memoryMStore
  | .MSTORE8 => memoryMStore8
  | .LOG0 | .LOG1 | .LOG2 | .LOG3 | .LOG4 => memoryLog
  | .CREATE => memoryCreate
  | .CREATE2 => memoryCreate2
  | .CALL | .CALLCODE => memoryCall
  | .DELEGATECALL => memoryDelegateCall
  | .STATICCALL => memoryStaticCall
  | .RETURN => memoryReturn
  | .REVERT => memoryRevert

/-- The entry's `dynamicSmoke`, before EIP-2929 and after `enable2929` replaced it. -/
def MemoryOp.dynamicSmoke (eip2929 : Bool) : MemoryOp → SmokeFunc σ
  | .SHA3 => smokeSha3
  | .CALLDATACOPY => smokeCallDataCopy
  | .CODECOPY => smokeCodeCopy
  | .EXTCODECOPY => if eip2929 then smokeExtCodeCopyEIP2929 else smokeExtCodeCopy
  | .RETURNDATACOPY => smokeReturnDataCopy
  | .MLOAD | .MSTORE | .MSTORE8 | .CREATE | .RETURN | .REVERT => pureMemorySmokecost
  | .LOG0 => makeSmokeLog 0
  | .LOG1 => makeSmokeLog 1
  | .LOG2 => makeSmokeLog 2
  | .LOG3 => makeSmokeLog 3
  | .LOG4 => makeSmokeLog 4
  | .CREATE2 => smokeCreate2
  | .CALL => if eip2929 then smokeCallEIP2929 else smokeCall
  | .CALLCODE => if eip2929 then smokeCallCodeEIP2929 else smokeCallCode
  | .DELEGATECALL => if eip2929 then smokeDelegateCallEIP2929 else smokeDelegateCall
  | .STATICCALL => if eip2929 then smokeStaticCallEIP2929 else smokeStaticCall

/-- The entry as an operation, with the constant smoke of its fork. -/
def MemoryOp.operation (eip2929 : Bool) (constantSmoke : UInt64) (op : MemoryOp) : Operation σ :=
  ⟨constantSmoke, some (op.dynamicSmoke eip2929), some op.memorySize⟩

/-- The four calls. -/
def MemoryOp.IsCall : MemoryOp → Prop
  | .CALL | .CALLCODE | .DELEGATECALL | .STATICCALL => True
  | _ => False

/-- An operation prices the memory as the jump table's do: one that names a memory size has a
smoke function that prices it, one that names none has no smoke function or one that leaves the
memory alone. -/
def Operation.PricesMemory (op : Operation σ) : Prop :=
  match op.memorySize, op.dynamicSmoke with
  | some _, some f => ∀ evm stack, Vm.PricesMemory (f evm stack)
  | some _, none => False
  | none, some f => ∀ evm stack size, KeepsMemory (f evm stack size)
  | none, none => True

/-- The memory smoke of a pass: the fee `memorySmokeCost` charges for the operation's memory size. -/
def memoryFeeOf (op : Operation σ) (stack : Stack) (mem : Memory) : UInt64 :=
  match memorySizeOf op stack with
  | .ok memorySize =>
    match memorySmokeCost memorySize mem with
    | .ok fee _ => fee
    | .error _ _ => 0
  | .error _ => 0

/-- The memory smoke charged along a run, pass by pass. -/
def runMemoryFee (evm : Evm σ) : List (Operation σ × Stack) → Frame σ → Nat
  | [], _ => 0
  | (op, stack) :: rest, s =>
    match step evm op stack s with
    | .ok _ s' => (memoryFeeOf op stack s.mem).toNat + runMemoryFee evm rest s'
    | .error _ _ => 0

/-! ### What one pass does -/

section Step

variable {evm : Evm σ} {op : Operation σ} {stack : Stack} {s s' : Frame σ}

/-- A pass that returns has charged the constant smoke, computed the memory size, charged the
dynamic smoke and resized the memory. -/
theorem step_ok (h : step evm op stack s = .ok () s') :
    ∃ memorySize s₁, memorySizeOf op stack = .ok memorySize ∧ op.constantSmoke ≤ s.smoke ∧
      chargeDynamic evm op stack memorySize { s with smoke := s.smoke - op.constantSmoke } = .ok () s₁ ∧
      s' = if memorySize > 0 then { s₁ with mem := s₁.mem.resize memorySize } else s₁ := by
  simp only [step, EStateM.bind_apply, useSmoke] at h
  by_cases hc : s.smoke < op.constantSmoke
  · simp [hc] at h
  simp only [hc, if_false, Bool.not_true, Bool.false_eq_true, EStateM.bind_apply] at h
  cases hms : memorySizeOf op stack with
  | error e => simp [hms, liftExcept] at h
  | ok memorySize =>
    simp only [hms, liftExcept] at h
    cases hcd : chargeDynamic evm op stack memorySize { s with smoke := s.smoke - op.constantSmoke } with
    | error e s₁ => simp [hcd] at h
    | ok u s₁ =>
      refine ⟨memorySize, s₁, rfl, UInt64.not_lt.mp hc, hcd, ?_⟩
      simp only [hcd] at h
      by_cases hpos : memorySize > 0
      · simp only [hpos, if_true, EStateM.modify_apply] at h ⊢
        cases h
        rfl
      · simp only [hpos, if_false, EStateM.pure_apply] at h ⊢
        cases h
        rfl

/-- A dynamic charge that returns: none, or the smoke function's cost, taken from the contract. -/
theorem chargeDynamic_ok {memorySize : UInt64} (h : chargeDynamic evm op stack memorySize s = .ok () s') :
    (op.dynamicSmoke = none ∧ s' = s) ∨
      ∃ f c s₁, op.dynamicSmoke = some f ∧ f evm stack memorySize s = .ok c s₁ ∧ c ≤ s₁.smoke ∧
        s' = { s₁ with smoke := s₁.smoke - c } := by
  cases hd : op.dynamicSmoke with
  | none =>
    simp only [chargeDynamic, hd, EStateM.pure_apply] at h
    cases h
    exact .inl ⟨rfl, rfl⟩
  | some f =>
    simp only [chargeDynamic, hd, EStateM.bind_apply, orOutOfSmoke] at h
    cases hfs : f evm stack memorySize s with
    | error e s₁ => simp [hfs] at h
    | ok c s₁ =>
      simp only [hfs, useSmoke] at h
      by_cases hlt : s₁.smoke < c
      · simp [hlt] at h
      · simp only [hlt, if_false, Bool.not_true, Bool.false_eq_true, EStateM.pure_apply] at h
        cases h
        exact .inr ⟨f, c, s₁, rfl, hfs, UInt64.not_lt.mp hlt, rfl⟩

/-- The memory size is whole words, and nothing for an operation that names none. -/
theorem memorySizeOf_ok {memorySize : UInt64} (h : memorySizeOf op stack = .ok memorySize) :
    memorySize.toNat % 32 = 0 ∧ (op.memorySize = none → memorySize = 0) := by
  cases hm : op.memorySize with
  | none =>
    simp only [memorySizeOf, hm] at h
    cases h
    exact ⟨rfl, fun _ => rfl⟩
  | some f =>
    refine ⟨?_, fun hn => by cases hn⟩
    simp only [memorySizeOf, hm, safeMul] at h
    by_cases hover : (f stack).2 = true
    · simp [hover] at h
    simp only [hover, Bool.false_eq_true, if_false, UInt64.reduceToNat, decide_eq_true_eq] at h
    split at h
    · cases h
    · rename_i hfit
      cases h
      have hmul : (toWordSize (f stack).1 * 32).toNat = (toWordSize (f stack).1).toNat * 32 := by
        rw [UInt64.toNat_mul]
        simpa using Nat.mod_eq_of_lt (Nat.lt_of_not_le hfit)
      rw [hmul]
      simp

/-- The memory after the dynamic charge is what `memorySmokeCost` makes of it, for the pass's fee. -/
theorem chargeDynamic_mem (hop : op.PricesMemory) {memorySize : UInt64}
    (hms : memorySizeOf op stack = .ok memorySize) (h : chargeDynamic evm op stack memorySize s = .ok () s') :
    memorySmokeCost memorySize s.mem = .ok (memoryFeeOf op stack s.mem) s'.mem := by
  have hfee : ∀ fee m, memorySmokeCost memorySize s.mem = .ok fee m → memoryFeeOf op stack s.mem = fee := by
    intro fee m hm
    simp only [memoryFeeOf, hms, hm]
  have hzero : op.memorySize = none → s'.mem = s.mem → memorySmokeCost memorySize s.mem = .ok (memoryFeeOf op stack s.mem) s'.mem := by
    intro hnone hkeep
    have h0 : memorySize = 0 := (memorySizeOf_ok hms).2 hnone
    subst h0
    have hm : memorySmokeCost 0 s.mem = .ok 0 s.mem := by simp [memorySmokeCost]
    rw [hfee 0 s.mem hm, hkeep, hm]
  unfold Operation.PricesMemory at hop
  rcases chargeDynamic_ok h with ⟨hnone, rfl⟩ | ⟨f, c, s₁, hf, hfs, -, rfl⟩
  · -- no smoke function: the operation names no memory size
    rw [hnone] at hop
    cases hmem : op.memorySize with
    | none => exact hzero hmem rfl
    | some _ => rw [hmem] at hop; exact hop.elim
  · rw [hf] at hop
    cases hmem : op.memorySize with
    | none =>
      rw [hmem] at hop
      have hkeep := hop evm stack memorySize s
      rw [hfs] at hkeep
      exact hzero hmem hkeep
    | some _ =>
      rw [hmem] at hop
      obtain ⟨fee, hm, -⟩ := hop evm stack memorySize s c s₁ hfs
      rw [hfee fee s₁.mem hm]
      exact hm

/-- One pass keeps the memory priced, and its memory smoke is the difference of the prices. -/
theorem step_memoryPriced (hop : op.PricesMemory) (hm : MemoryPriced s.mem)
    (h : step evm op stack s = .ok () s') :
    MemoryPriced s'.mem ∧
      (memoryFeeOf op stack s.mem).toNat + memoryFee (s.mem.len / 32) = memoryFee (s'.mem.len / 32) := by
  obtain ⟨memorySize, s₁, hms, -, hcd, rfl⟩ := step_ok h
  have hmem := chargeDynamic_mem hop hms hcd
  obtain ⟨hal, -⟩ := memorySizeOf_ok hms
  have hle : memorySize ≤ 0x1FFFFFFFE0 := by
    by_cases hgt : 0x1FFFFFFFE0 < memorySize
    · rw [memorySmokeCost_of_gt _ hgt] at hmem
      cases hmem
    · exact UInt64.not_lt.mp hgt
  obtain ⟨fee, m', hok, hstore, hlast, hfee⟩ := memorySmokeCost_spec hm hle
  rw [hmem] at hok
  cases hok
  have hw : (toWordSize memorySize).toNat = memorySize.toNat / 32 := by
    rw [(toWordSize_le hle).1]
    omega
  have hlen : s₁.mem.len = s.mem.len := by simp only [Memory.len, hstore]
  have hbound : memorySize.toNat ≤ 0x1FFFFFFFE0 := UInt64.le_iff_toNat_le.mp hle
  have hal₀ := hm.aligned
  have hsmall : s₁.mem.len < 2 ^ 64 := by
    have := hm.bounded
    omega
  by_cases hpos : memorySize > 0
  · -- the memory is resized to the new words
    rw [if_pos hpos]
    have hfinal : (s₁.mem.resize memorySize).len = max s.mem.len memorySize.toNat := by
      rw [len_resize hsmall, hlen]
    have hdiv : max s.mem.len memorySize.toNat / 32 = max (s.mem.len / 32) (memorySize.toNat / 32) := by
      omega
    refine ⟨⟨?_, ?_, ?_⟩, ?_⟩
    · rw [hfinal]
      omega
    · rw [hfinal]
      have := hm.bounded
      omega
    · rw [lastSmokeCost_resize, hlast, hfinal, hdiv, hw]
    · rw [hfinal, hdiv, ← hw]
      exact hfee
  · -- nothing to resize: the size is zero, and so is the fee
    rw [if_neg hpos]
    have hw0 : (toWordSize memorySize).toNat = 0 := by
      rw [gt_iff_lt, UInt64.lt_iff_toNat_lt] at hpos
      simp only [UInt64.toNat_zero] at hpos
      omega
    rw [hw0, Nat.max_zero] at hlast hfee
    exact ⟨⟨hlen ▸ hm.aligned, hlen ▸ hm.bounded, by rw [hlast, hlen]⟩, by rw [hfee, hlen]⟩

end Step

/-- Along a run of operations that price the memory, the memory stays priced, and the memory smoke
charged is the difference of the prices at the two ends. -/
theorem run_memoryPriced (evm : Evm σ) : ∀ (ops : List (Operation σ × Stack)) (s s' : Frame σ),
    (∀ p ∈ ops, p.1.PricesMemory) → MemoryPriced s.mem → run evm ops s = .ok () s' →
    MemoryPriced s'.mem ∧ runMemoryFee evm ops s + memoryFee (s.mem.len / 32) = memoryFee (s'.mem.len / 32)
  | [], s, s', _, hm, h => by
    cases h
    exact ⟨hm, by rw [runMemoryFee, Nat.zero_add]⟩
  | (op, stack) :: rest, s, s', hops, hm, h => by
    simp only [run, EStateM.bind_apply] at h
    cases hs : step evm op stack s with
    | error e s₁ => rw [hs] at h; cases h
    | ok u s₁ =>
      rw [hs] at h
      -- one pass, then the rest of the run from where it left the memory
      have hop : op.PricesMemory := hops _ List.mem_cons_self
      obtain ⟨hm₁, hfee₁⟩ := step_memoryPriced hop hm hs
      obtain ⟨hm', hfee'⟩ :=
        run_memoryPriced evm rest s₁ s' (fun p hp => hops p (List.mem_cons_of_mem _ hp)) hm₁ h
      refine ⟨hm', ?_⟩
      simp only [runMemoryFee, hs]
      omega

/-- Every entry of the jump table that names a memory size prices it, before EIP-2929 and after. -/
theorem MemoryOp.pricesMemory (eip2929 : Bool) (constantSmoke : UInt64) (op : MemoryOp) :
    (op.operation (σ := σ) eip2929 constantSmoke).PricesMemory := by
  show ∀ evm stack, Vm.PricesMemory (op.dynamicSmoke eip2929 evm stack)
  intro evm stack
  cases op with
  | SHA3 | CALLDATACOPY | CODECOPY | RETURNDATACOPY | CREATE2 =>
    exact pricesMemory_memoryWordSmoke _ _ evm stack
  | MLOAD | MSTORE | MSTORE8 | CREATE | RETURN | REVERT => exact pricesMemory_pureMemorySmokecost evm stack
  | LOG0 | LOG1 | LOG2 | LOG3 | LOG4 => exact pricesMemory_makeSmokeLog _ evm stack
  | EXTCODECOPY =>
    cases eip2929
    · exact pricesMemory_memoryWordSmoke _ _ evm stack
    · exact pricesMemory_smokeExtCodeCopyEIP2929 evm stack
  | CALL =>
    cases eip2929
    · exact pricesMemory_smokeCall evm stack
    · exact pricesMemory_makeCallVariantSmokeCallEIP2929 evm stack (pricesMemory_smokeCall evm stack)
  | CALLCODE =>
    cases eip2929
    · exact pricesMemory_smokeCallCode evm stack
    · exact pricesMemory_makeCallVariantSmokeCallEIP2929 evm stack (pricesMemory_smokeCallCode evm stack)
  | DELEGATECALL | STATICCALL =>
    cases eip2929
    · exact pricesMemory_memoryThenCallSmoke evm stack
    · exact pricesMemory_makeCallVariantSmokeCallEIP2929 evm stack (pricesMemory_memoryThenCallSmoke evm stack)

/-- Memory expansion pricing: along every run of the loop from a new memory, over operations that
price the memory as the jump table's entries do, the memory is whole words, `lastSmokeCost` is the
price `C` of them, and the memory smoke charged is `C` of the final words; each call of
`memorySmokeCost` below the limit charges the difference of two prices without a wrap, and above it
fails. -/
theorem memory_smoke_priced (evm : Evm σ) (ops : List (Operation σ × Stack))
    (hops : ∀ p ∈ ops, p.1.PricesMemory) (s₀ s : Frame σ) (h₀ : s₀.mem = newMemory)
    (hrun : run evm ops s₀ = .ok () s) :
    s.mem.len % 32 = 0 ∧ s.mem.lastSmokeCost.toNat = memoryFee (s.mem.len / 32) ∧
      runMemoryFee evm ops s₀ = memoryFee (s.mem.len / 32) ∧
      (∀ (m : Memory) (size : UInt64), MemoryPriced m → size ≤ 0x1FFFFFFFE0 →
        ∃ fee m', memorySmokeCost size m = .ok fee m' ∧
          m'.lastSmokeCost.toNat = memoryFee (max (m.len / 32) (toWordSize size).toNat) ∧
          fee.toNat + memoryFee (m.len / 32) = memoryFee (max (m.len / 32) (toWordSize size).toNat)) ∧
      (∀ (m : Memory) (size : UInt64), 0x1FFFFFFFE0 < size →
        memorySmokeCost size m = .error .smokeUintOverflow m) ∧
      ∀ (eip2929 : Bool) (constantSmoke : UInt64) (op : MemoryOp),
        (op.operation (σ := σ) eip2929 constantSmoke).PricesMemory := by
  have hnew : MemoryPriced s₀.mem := h₀ ▸ newMemory_priced
  obtain ⟨hm, hfee⟩ := run_memoryPriced evm ops s₀ s hops hnew hrun
  have hzero : memoryFee (s₀.mem.len / 32) = 0 := by rw [h₀]; rfl
  refine ⟨hm.aligned, hm.cost, by omega, fun m size hpriced hs => ?_, fun m _ hs => memorySmokeCost_of_gt m hs,
    MemoryOp.pricesMemory⟩
  obtain ⟨fee, m', hok, -, hlast, hsum⟩ := memorySmokeCost_spec hpriced hs
  exact ⟨fee, m', hok, hlast, hsum⟩

/-- A state that holds no account and an empty access list, for the runs below. -/
def plainEvm : Evm Unit := ⟨true, true, ⟨fun _ _ => false, fun _ _ => false, fun _ _ => false, fun _ _ => ()⟩⟩

/-- An `MSTORE` at offset 0 on a new memory, with 100 smoke: one word, charged 3 and paid for. -/
theorem memory_smoke_priced_mstore :
    run plainEvm [(MemoryOp.MSTORE.operation false 3, ⟨[0, 0]⟩)] ⟨newMemory, 100, 0, ()⟩ =
        .ok () ⟨⟨List.replicate 32 0, 3⟩, 94, 0, ()⟩ ∧
      runMemoryFee plainEvm [(MemoryOp.MSTORE.operation false 3, ⟨[0, 0]⟩)] ⟨newMemory, 100, 0, ()⟩ =
        memoryFee 1 := by
  have hrun : run plainEvm [(MemoryOp.MSTORE.operation false 3, ⟨[0, 0]⟩)] ⟨newMemory, 100, 0, ()⟩ =
      .ok () ⟨⟨List.replicate 32 0, 3⟩, 94, 0, ()⟩ := rfl
  have hops : ∀ p ∈ [((MemoryOp.MSTORE.operation false 3 : Operation Unit), (⟨[0, 0]⟩ : Stack))],
      p.1.PricesMemory := by
    intro p hp
    rw [List.mem_singleton] at hp
    subst hp
    exact MemoryOp.pricesMemory false 3 .MSTORE
  exact ⟨hrun, (memory_smoke_priced plainEvm _ hops _ _ rfl hrun).2.2.1⟩

/-! ### The smoke a call forwards -/

/-- The call entries' smoke functions end with `addCallSmoke`. -/
theorem MemoryOp.endsWithCallSmoke (eip2929 : Bool) {op : MemoryOp} (hcall : op.IsCall) (evm : Evm σ)
    (stack : Stack) (size : UInt64) : EndsWithCallSmoke evm stack (op.dynamicSmoke eip2929 evm stack size) := by
  cases op <;> try exact hcall.elim
  case CALL =>
    cases eip2929
    · exact endsWithCallSmoke_smokeCall evm stack size
    · exact endsWithCallSmoke_makeCallVariantSmokeCallEIP2929 evm stack size (endsWithCallSmoke_smokeCall evm stack size)
  case CALLCODE =>
    cases eip2929
    · exact endsWithCallSmoke_smokeCallCode evm stack size
    · exact endsWithCallSmoke_makeCallVariantSmokeCallEIP2929 evm stack size
        (endsWithCallSmoke_smokeCallCode evm stack size)
  all_goals
    cases eip2929
    · exact endsWithCallSmoke_memoryThenCallSmoke evm stack size
    · exact endsWithCallSmoke_makeCallVariantSmokeCallEIP2929 evm stack size
        (endsWithCallSmoke_memoryThenCallSmoke evm stack size)

/-- After a call's charges under EIP-150, the caller keeps at least a 64th of what the base charge
left it, and the call is given no more than it asked for. -/
theorem step_call_keeps_share {evm : Evm σ} {eip2929 : Bool} {constantSmoke : UInt64} {op : MemoryOp}
    {stack : Stack} {s s' : Frame σ} (hcall : op.IsCall) (h150 : evm.isEIP150 = true)
    (h : step evm (op.operation eip2929 constantSmoke) stack s = .ok () s') :
    (s'.smoke.toNat + s'.callSmokeTemp.toNat) / 64 ≤ s'.smoke.toNat ∧
      s'.callSmokeTemp.toNat ≤ (stack.back 0).toNat := by
  obtain ⟨memorySize, s₁, -, -, hcd, rfl⟩ := step_ok h
  rcases chargeDynamic_ok hcd with ⟨hnone, -⟩ | ⟨f, c, s₂, hf, hfs, hc, rfl⟩
  · cases hnone
  cases hf
  -- the smoke function ended by adding the forwarded smoke `t` to a base `b`
  obtain ⟨b, s₃, hadd⟩ := MemoryOp.endsWithCallSmoke eip2929 hcall evm stack memorySize _ c s₂ hfs
  obtain ⟨t, ht, rfl, hct⟩ := addCallSmoke_ok hadd
  rw [h150] at ht
  dsimp only at hc
  have hcle : c.toNat ≤ s₃.smoke.toNat := UInt64.le_iff_toNat_le.mp hc
  -- the loop could charge the total, so the base was within the smoke
  have hb : b ≤ s₃.smoke := by
    rw [UInt64.le_iff_toNat_le]
    omega
  obtain ⟨t', ht', htmin⟩ := callSmoke_eip150 hb (stack.back 0)
  rw [ht] at ht'
  cases ht'
  have hfinal : ∀ fr : Frame σ, fr = (if memorySize > 0 then
      { s₃ with callSmokeTemp := t, smoke := s₃.smoke - c, mem := s₃.mem.resize memorySize }
      else { s₃ with callSmokeTemp := t, smoke := s₃.smoke - c }) →
      fr.smoke = s₃.smoke - c ∧ fr.callSmokeTemp = t := by
    intro fr hfr
    split at hfr <;> exact hfr ▸ ⟨rfl, rfl⟩
  obtain ⟨hsmoke, htemp⟩ := hfinal _ rfl
  rw [hsmoke, htemp, UInt64.toNat_sub_of_le _ _ hc]
  omega

example : step plainEvm (MemoryOp.CALL.operation false 700) ⟨[0, 0, 0, 0, 0, 0, 1000]⟩ ⟨newMemory, 10000, 0, ()⟩ =
    .ok () ⟨newMemory, 8300, 1000, ()⟩ := rfl

/-- EIP-150 call smoke: with the base within the available smoke, `callSmoke` forwards the smaller
of the request and all but a 64th of what the base leaves; with the base above it, the total of the
base and the forwarded smoke overflows or exceeds the available smoke, so no pass of the loop that
returns has forwarded wrapped-around smoke: after every call's charges the caller keeps a 64th of what
the base left it, and the call gets no more than it asked for. -/
theorem callSmoke_forwards_share :
    (∀ (a b : UInt64) (callCost : BitVec 256), b ≤ a →
      ∃ t, callSmoke true a b callCost = .ok t ∧
        t.toNat = min callCost.toNat ((a.toNat - b.toNat) - (a.toNat - b.toNat) / 64)) ∧
    (∀ (a b t : UInt64) (callCost : BitVec 256), a < b → callSmoke true a b callCost = .ok t →
      (safeAdd b t).2 = true ∨ a < (safeAdd b t).1) ∧
    ∀ (evm : Evm σ) (eip2929 : Bool) (constantSmoke : UInt64) (op : MemoryOp) (stack : Stack)
      (s s' : Frame σ), op.IsCall → evm.isEIP150 = true →
      step evm (op.operation eip2929 constantSmoke) stack s = .ok () s' →
      (s'.smoke.toNat + s'.callSmokeTemp.toNat) / 64 ≤ s'.smoke.toNat ∧
        s'.callSmokeTemp.toNat ≤ (stack.back 0).toNat := by
  refine ⟨fun a b callCost hb => callSmoke_eip150 hb callCost, fun a b t callCost hab _ => ?_,
    fun evm eip2929 constantSmoke op stack s s' hcall h150 h => step_call_keeps_share hcall h150 h⟩
  cases hov : (safeAdd b t).2
  · -- no carry: the sum is at least the base, which is above the available smoke
    right
    have hsum := safeAdd_of_not_overflow hov
    rw [UInt64.lt_iff_toNat_lt] at hab ⊢
    omega
  · exact .inl rfl

end Go420coin.Vm
