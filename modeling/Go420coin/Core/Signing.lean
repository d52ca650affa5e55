import Go420coin.Core.Types
import Mathlib.Data.Nat.Size
import Mathlib.Tactic.IntervalCases

/-!
# Transaction signatures (`core/types/transaction_signing.go`)

A transaction carries the signature values `V`, `R` and `S` as big integers.  `SignatureValues`
makes them from a 65-byte signature `[R || S || recid]`; under EIP-155 the recovery id is
folded into `V` with the chain id, `V = recid + 35 + 2 * chainId`.  Three pieces of code read `V`
back: `isProtectedV` (is a chain id folded in?), `deriveChainId` (which one?), with a `uint64`
fast path each, and `Sender`, which subtracts `2 * chainId + 8` and hands the rest to
`recoverPlain`, where `byte(V - 27)` is the recovery id again.

They undo `SignatureValues` for every chain id, below `2 ^ 64` or not, and `recoverPlain` rebuilds
the signature it was made from (`eip155_signature_roundTrip`).  Public-key recovery and Keccak are
parameters; big integers are `Nat`, or `Int` where the code subtracts, and `BitLen` is `Nat.size`.
-/

namespace Go420coin

/-- `toList` of `SetBytes` of a string of exactly `n` bytes, copied back into `n` bytes. -/
theorem toList_padLeft_toBytes_ofBytes {n : Nat} {bs : List UInt8} (h : bs.length = n) :
    (padLeft n (BigEndian.toBytes (BigEndian.ofBytes bs))).toList = bs := by
  have hle : (BigEndian.toBytes (BigEndian.ofBytes bs)).length ≤ n :=
    BigEndian.length_toBytes_le.2 (h ▸ BigEndian.ofBytes_lt bs)
  rw [toList_padLeft_of_le hle, ← h, BigEndian.replicate_append_toBytes_ofBytes]

/-- The errors of `Sender`. -/
inductive SignError where
  | invalidSig
  | invalidChainId
  /-- `invalid public key` -/
  | invalidPublicKey
  /-- an error of `crypto.Ecrecover` -/
  | recover
  deriving DecidableEq, Repr

/-- `secp256k1N`: the order of the curve's group. -/
def secp256k1N : Nat := 0xfffffffffffffffffffffffffffffffebaaedce6af48a03bbfd25e8cd0364141

/-- `secp256k1halfN`. -/
def secp256k1halfN : Nat := secp256k1N / 2

/-- `crypto.ValidateSignatureValues`. -/
def validateSignatureValues (v : UInt8) (r s : Nat) (homestead : Bool) : Bool :=
  if r < 1 ∨ s < 1 then false
  -- reject upper range of s values (ECDSA malleability)
  else if homestead ∧ s > secp256k1halfN then false
  else r < secp256k1N ∧ s < secp256k1N ∧ (v = 0 ∨ v = 1)

/-- `byte(Vb.Uint64() - 27)`: `Uint64` reads the low 64 bits of the magnitude. -/
def recoveryId (vb : Int) : UInt8 := (vb.natAbs.toUInt64 - 27).toUInt8

/-- The signature `recoverPlain` hands to `Ecrecover`: `R` and `S` copied right-aligned into 32 bytes
each, then the recovery id. -/
def sigBytes (r s : Nat) (v : UInt8) : List UInt8 :=
  (padLeft 32 (BigEndian.toBytes r)).toList ++ (padLeft 32 (BigEndian.toBytes s)).toList ++ [v]

section Recover

variable (ecrecover : List UInt8 → List UInt8 → Option (List UInt8)) (keccak : List UInt8 → List UInt8)

/-- `recoverPlain`: the address of the key that made the signature `R`, `S`, `Vb` of `sighash`.  The
address is the last twenty bytes of the Keccak hash of the public key. -/
def recoverPlain (sighash : Hash) (r s : Nat) (vb : Int) (homestead : Bool) : Except SignError Address :=
  if vb.natAbs.size > 8 then .error .invalidSig
  else
    let v := recoveryId vb
    if !validateSignatureValues v r s homestead then .error .invalidSig
    else
      match ecrecover sighash.toList (sigBytes r s v) with
      | none => .error .recover
      | some pub =>
        if pub.length = 0 ∨ pub.head? ≠ some 4 then .error .invalidPublicKey
        else .ok (bytesToAddress ((keccak (pub.drop 1)).drop 12))

end Recover

/-! ### Transactions and signers -/

/-- A transaction: the fields a signer hashes, of type `α`, and the signature values. -/
structure SignedTx (α : Type) where
  data : α
  v : Nat
  r : Nat
  s : Nat

/-- `isProtectedV`: a `V` other than `27` and `28` has a chain id folded in. -/
def isProtectedV (v : Nat) : Bool :=
  if v.size ≤ 8 then v ≠ 27 ∧ v ≠ 28
  -- anything not 27 or 28 is considered protected
  else true

/-- `deriveChainId`: in `uint64` arithmetic while `V` fits, in big integers above; `V` is at least
`2 ^ 64` in the second branch, so its subtraction does not go below zero. -/
def deriveChainId (v : Nat) : Nat :=
  if v.size ≤ 64 then
    let v := v.toUInt64
    if v = 27 ∨ v = 28 then 0 else ((v - 35) / 2).toNat
  else (v - 35) / 2

variable {α : Type}

/-- `Transaction.Protected`. -/
def SignedTx.protected (tx : SignedTx α) : Bool := isProtectedV tx.v

/-- `Transaction.ChainId`. -/
def SignedTx.chainId (tx : SignedTx α) : Nat := deriveChainId tx.v

/-- `EIP155Signer`. -/
structure EIP155Signer where
  chainId : Nat
  chainIdMul : Nat

/-- `NewEIP155Signer`. -/
def newEIP155Signer (chainId : Nat) : EIP155Signer := ⟨chainId, chainId * 2⟩

/-- `FrontierSigner.SignatureValues` (and `HomesteadSigner`'s): `R`, `S` and `V` from
`[R || S || recid]`, with `V = recid + 27` in byte arithmetic. -/
def frontierSignatureValues (sig : Vector UInt8 65) : Nat × Nat × Nat :=
  (BigEndian.ofBytes (sig.toList.take 32), BigEndian.ofBytes ((sig.toList.drop 32).take 32),
    BigEndian.ofBytes [sig[64] + 27])

/-- `EIP155Signer.SignatureValues`: with a chain id, `V = recid + 35 + 2 * chainId`, the first sum
in byte arithmetic. -/
def EIP155Signer.signatureValues (signer : EIP155Signer) (sig : Vector UInt8 65) : Nat × Nat × Nat :=
  let (r, s, v) := frontierSignatureValues sig
  if signer.chainId ≠ 0 then (r, s, (sig[64] + 35).toNat + signer.chainIdMul) else (r, s, v)

/-- `Transaction.WithSignature` for an `EIP155Signer`. -/
def SignedTx.withSignature (tx : SignedTx α) (signer : EIP155Signer) (sig : Vector UInt8 65) : SignedTx α :=
  let (r, s, v) := signer.signatureValues sig
  { tx with r := r, s := s, v := v }

section Sender

variable (ecrecover : List UInt8 → List UInt8 → Option (List UInt8)) (keccak : List UInt8 → List UInt8)
  (sigHash : α → Nat → Hash) (homesteadHash : α → Hash)

/-- `EIP155Signer.Sender`: an unprotected transaction is recovered as under Homestead; a protected
one must carry the signer's chain id, and `V - 2 * chainId - 8` is the `V` of Homestead. -/
def EIP155Signer.sender (signer : EIP155Signer) (tx : SignedTx α) : Except SignError Address :=
  if !tx.protected then recoverPlain ecrecover keccak (homesteadHash tx.data) tx.r tx.s tx.v true
  else if tx.chainId ≠ signer.chainId then .error .invalidChainId
  else recoverPlain ecrecover keccak (sigHash tx.data signer.chainId) tx.r tx.s
    ((tx.v : Int) - signer.chainIdMul - 8) true

end Sender

/-! ### `V` read back -/

theorem isProtectedV_of_lt {v : Nat} (h : 28 < v) : isProtectedV v = true := by
  unfold isProtectedV
  split_ifs
  · simp only [decide_eq_true_eq]
    omega
  · rfl

theorem isProtectedV_homestead {x : Nat} (hx : x ≤ 1) : isProtectedV (x + 27) = false := by
  have hsize : (x + 27).size ≤ 8 := Nat.size_le.2 (by omega)
  simp only [isProtectedV, hsize, if_true]
  interval_cases x <;> decide

/-- `deriveChainId` undoes `V = recid + 35 + 2 * chainId`, on either of its paths. -/
theorem deriveChainId_eip155 {x : Nat} (hx : x ≤ 1) (c : Nat) : deriveChainId (x + 35 + c * 2) = c := by
  unfold deriveChainId
  by_cases hsize : (x + 35 + c * 2).size ≤ 64
  · -- the `uint64` path: `V` fits, and is not `27` or `28`
    have hlt : x + 35 + c * 2 < 2 ^ 64 := Nat.size_le.1 hsize
    have hv : (x + 35 + c * 2).toUInt64.toNat = x + 35 + c * 2 := by
      simp only [Nat.toUInt64, UInt64.toNat_ofNat']
      exact Nat.mod_eq_of_lt hlt
    have hne : ¬ ((x + 35 + c * 2).toUInt64 = 27 ∨ (x + 35 + c * 2).toUInt64 = 28) := by
      rintro (h | h) <;>
      · have := congrArg UInt64.toNat h
        rw [hv] at this
        simp at this
        omega
    have h35 : (35 : UInt64) ≤ (x + 35 + c * 2).toUInt64 := by
      rw [UInt64.le_iff_toNat_le, hv]
      simp only [UInt64.reduceToNat]
      omega
    rw [if_pos hsize]
    dsimp only
    rw [if_neg hne, UInt64.toNat_div, UInt64.toNat_sub_of_le _ _ h35, hv]
    simp only [UInt64.reduceToNat]
    omega
  · rw [if_neg hsize]
    omega

/-- The recovery id of a Homestead `V`. -/
theorem recoveryId_homestead (x : UInt8) (hx : x ≤ 1) : recoveryId ((x.toNat + 27 : Nat) : Int) = x := by
  have hx' : x.toNat ≤ 1 := by simpa using UInt8.le_iff_toNat_le.1 hx
  have hv : (x.toNat + 27).toUInt64.toNat = x.toNat + 27 := by
    simp only [Nat.toUInt64, UInt64.toNat_ofNat']
    exact Nat.mod_eq_of_lt (by omega)
  have h27 : (27 : UInt64) ≤ (x.toNat + 27).toUInt64 := by
    rw [UInt64.le_iff_toNat_le, hv]
    simp only [UInt64.reduceToNat]
    omega
  apply UInt8.toNat_inj.1
  rw [recoveryId, Int.natAbs_natCast, UInt64.toNat_toUInt8, UInt64.toNat_sub_of_le _ _ h27, hv]
  simp only [UInt64.reduceToNat]
  omega

/-- A 65-byte signature is its `R`, its `S` and its recovery id. -/
theorem toList_sig (sig : Vector UInt8 65) :
    sig.toList = sig.toList.take 32 ++ (sig.toList.drop 32).take 32 ++ [sig[64]] := by
  have hl : sig.toList.length = 65 := by simp
  have h64 : sig.toList.drop 64 = [sig[64]] := by
    rw [List.drop_eq_getElem_cons (by omega), List.drop_eq_nil_of_le (by omega)]
    simp
  conv_lhs => rw [← List.take_append_drop 32 sig.toList, ← List.take_append_drop 32 (sig.toList.drop 32)]
  rw [List.drop_drop, h64, List.append_assoc]

/-- `recoverPlain` rebuilds the signature `SignatureValues` read `R` and `S` from. -/
theorem sigBytes_frontierSignatureValues (sig : Vector UInt8 65) :
    sigBytes (frontierSignatureValues sig).1 (frontierSignatureValues sig).2.1 sig[64] = sig.toList := by
  have hl : sig.toList.length = 65 := by simp
  simp only [sigBytes, frontierSignatureValues]
  rw [toList_padLeft_toBytes_ofBytes (by simp), toList_padLeft_toBytes_ofBytes (by simp), ← toList_sig]

/-! ### `SignatureValues` undone -/

section RoundTrip

variable (tx : SignedTx α) (sig : Vector UInt8 65)

theorem withSignature_r (signer : EIP155Signer) :
    (tx.withSignature signer sig).r = (frontierSignatureValues sig).1 := by
  unfold SignedTx.withSignature EIP155Signer.signatureValues
  split_ifs <;> rfl

theorem withSignature_s (signer : EIP155Signer) :
    (tx.withSignature signer sig).s = (frontierSignatureValues sig).2.1 := by
  unfold SignedTx.withSignature EIP155Signer.signatureValues
  split_ifs <;> rfl

/-- With a chain id `c`, `V = recid + 35 + 2 * c`; the byte sum does not wrap for a recovery id of
`0` or `1`. -/
theorem withSignature_v_eip155 {c : Nat} (hc : c ≠ 0) (hv : sig[64] ≤ 1) :
    (tx.withSignature (newEIP155Signer c) sig).v = sig[64].toNat + 35 + c * 2 := by
  have hv' : sig[64].toNat ≤ 1 := by simpa using UInt8.le_iff_toNat_le.1 hv
  simp only [SignedTx.withSignature, EIP155Signer.signatureValues, newEIP155Signer, ne_eq, hc, not_false_eq_true,
    if_true, UInt8.toNat_add]
  simp only [UInt8.reduceToNat]
  omega

/-- Without a chain id `V` is the Homestead `recid + 27`. -/
theorem withSignature_v_homestead (hv : sig[64] ≤ 1) :
    (tx.withSignature (newEIP155Signer 0) sig).v = sig[64].toNat + 27 := by
  have hv' : sig[64].toNat ≤ 1 := by simpa using UInt8.le_iff_toNat_le.1 hv
  simp only [SignedTx.withSignature, EIP155Signer.signatureValues, newEIP155Signer, ne_eq, not_true_eq_false,
    if_false, frontierSignatureValues, BigEndian.ofBytes_cons, List.length_nil, pow_zero, mul_one,
    UInt8.toNat_add]
  simp [BigEndian.ofBytes]
  omega

/-- EIP-155 signature values read back: for a chain id `c > 0` the signed transaction is protected
and carries `c`, and `Sender` hands `recoverPlain` the Homestead `V = recid + 27` and the `R` and `S`
of the signature, from which `recoverPlain` rebuilds the signature; for `c = 0` the transaction
carries the Homestead `V` and is not protected. -/
theorem eip155_signature_roundTrip (ecrecover : List UInt8 → List UInt8 → Option (List UInt8))
    (keccak : List UInt8 → List UInt8) (sigHash : α → Nat → Hash) (homesteadHash : α → Hash) (c : Nat)
    (hv : sig[64] ≤ 1) :
    (0 < c →
      (tx.withSignature (newEIP155Signer c) sig).protected = true ∧
      (tx.withSignature (newEIP155Signer c) sig).chainId = c ∧
      (newEIP155Signer c).sender ecrecover keccak sigHash homesteadHash (tx.withSignature (newEIP155Signer c) sig) =
        recoverPlain ecrecover keccak (sigHash tx.data c) (tx.withSignature (newEIP155Signer c) sig).r
          (tx.withSignature (newEIP155Signer c) sig).s ((sig[64].toNat + 27 : Nat) : Int) true ∧
      recoveryId ((sig[64].toNat + 27 : Nat) : Int) = sig[64] ∧
      sigBytes (tx.withSignature (newEIP155Signer c) sig).r (tx.withSignature (newEIP155Signer c) sig).s sig[64] =
        sig.toList) ∧
    (c = 0 →
      (tx.withSignature (newEIP155Signer c) sig).v = sig[64].toNat + 27 ∧
      (tx.withSignature (newEIP155Signer c) sig).protected = false) := by
  have hv' : sig[64].toNat ≤ 1 := by simpa using UInt8.le_iff_toNat_le.1 hv
  have hbytes : sigBytes (tx.withSignature (newEIP155Signer c) sig).r (tx.withSignature (newEIP155Signer c) sig).s
      sig[64] = sig.toList := by
    rw [withSignature_r, withSignature_s, sigBytes_frontierSignatureValues]
  refine ⟨fun hc => ?_, fun hc => ?_⟩
  · have hV := withSignature_v_eip155 tx sig (Nat.pos_iff_ne_zero.1 hc) hv
    have hprot : (tx.withSignature (newEIP155Signer c) sig).protected = true := by
      rw [SignedTx.protected, hV]
      exact isProtectedV_of_lt (by omega)
    have hchain : (tx.withSignature (newEIP155Signer c) sig).chainId = c := by
      rw [SignedTx.chainId, hV, deriveChainId_eip155 hv']
    -- `Sender` takes `2 * c + 8` off `V`
    have hsub : ((tx.withSignature (newEIP155Signer c) sig).v : Int) - ((newEIP155Signer c).chainIdMul : Int) - (8 : Int) =
        ((sig[64].toNat + 27 : Nat) : Int) := by
      rw [hV]
      simp only [newEIP155Signer]
      push_cast
      ring
    refine ⟨hprot, hchain, ?_, recoveryId_homestead _ hv, hbytes⟩
    have hid : (newEIP155Signer c).chainId = c := rfl
    rw [EIP155Signer.sender, hprot, hchain, hid, if_neg (by simp), if_neg (by simp), hsub]
    rfl
  · subst hc
    have hV := withSignature_v_homestead tx sig hv
    refine ⟨hV, ?_⟩
    rw [SignedTx.protected, hV]
    exact isProtectedV_homestead hv'

theorem eip155_signature_roundTrip_chainOne :
    (0 < 1 →
      (SignedTx.withSignature ⟨(), 0, 0, 0⟩ (newEIP155Signer 1) (Vector.replicate 65 0)).protected = true ∧
      (SignedTx.withSignature ⟨(), 0, 0, 0⟩ (newEIP155Signer 1) (Vector.replicate 65 0)).chainId = 1 ∧
      (newEIP155Signer 1).sender (fun _ _ => none) id (fun _ _ => Vector.replicate 32 0)
          (fun _ => Vector.replicate 32 0)
          (SignedTx.withSignature ⟨(), 0, 0, 0⟩ (newEIP155Signer 1) (Vector.replicate 65 0)) =
        recoverPlain (fun _ _ => none) id (Vector.replicate 32 0)
          (SignedTx.withSignature ⟨(), 0, 0, 0⟩ (newEIP155Signer 1) (Vector.replicate 65 0)).r
          (SignedTx.withSignature ⟨(), 0, 0, 0⟩ (newEIP155Signer 1) (Vector.replicate 65 0)).s
          (((Vector.replicate 65 (0 : UInt8))[64].toNat + 27 : Nat) : Int) true ∧
      recoveryId (((Vector.replicate 65 (0 : UInt8))[64].toNat + 27 : Nat) : Int) =
        (Vector.replicate 65 (0 : UInt8))[64] ∧
      sigBytes (SignedTx.withSignature ⟨(), 0, 0, 0⟩ (newEIP155Signer 1) (Vector.replicate 65 0)).r
          (SignedTx.withSignature ⟨(), 0, 0, 0⟩ (newEIP155Signer 1) (Vector.replicate 65 0)).s
          (Vector.replicate 65 (0 : UInt8))[64] = (Vector.replicate 65 (0 : UInt8)).toList) ∧
    (1 = 0 →
      (SignedTx.withSignature ⟨(), 0, 0, 0⟩ (newEIP155Signer 1) (Vector.replicate 65 0)).v =
        (Vector.replicate 65 (0 : UInt8))[64].toNat + 27 ∧
      (SignedTx.withSignature ⟨(), 0, 0, 0⟩ (newEIP155Signer 1) (Vector.replicate 65 0)).protected = false) :=
  eip155_signature_roundTrip ⟨(), 0, 0, 0⟩ (Vector.replicate 65 0) (fun _ _ => none) id
    (fun _ _ => Vector.replicate 32 0) (fun _ => Vector.replicate 32 0) 1 (by decide)

end RoundTrip

end Go420coin
