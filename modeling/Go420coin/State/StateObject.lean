import Go420coin.Core.Types
import Mathlib.Data.List.AList

/-!
# State objects (`core/state/state_object.go`)

A `stateObject` is an account being read and written during the execution of a block: its consensus
data (`Account`), its storage trie once opened, its code, and three layers of storage writes.  A
write of the current transaction goes to `dirtyStorage`; `finalise`, at the end of a transaction,
moves those into `pendingStorage`; `updateTrie` writes the pending slots that differ from what was
read (`originStorage`) into the storage trie, and `updateRoot` sets the account's root to the trie's
hash.  The flags say whether the code was written, whether the account destructed itself in this
transaction (`suicided`), and whether it was removed from the account trie (`deleted`).

Go's maps of slots (`Storage`) are association lists.  A trie is modelled by the map it holds; the
database opens a storage trie at a root, and hashes a storage trie and the account trie
(`Database`).  The object's back pointer to its `StateDB`, its `addrHash`, its memoized database
error and the debugging `fakeStorage` are left out.
-/

namespace Go420coin.State

/-- `Storage`: slot values by slot key. -/
abbrev Storage := AList (fun _ : Hash => Hash)

/-- `Account`, the consensus representation of an account; `Balance` is a `big.Int`. -/
structure Account where
  nonce : UInt64
  balance : Int
  root : Hash
  codeHash : List UInt8
  deriving DecidableEq

/-- `emptyRoot`: the root hash of an empty trie. -/
def emptyRoot : Hash :=
  ⟨#[0x56, 0xe8, 0x1f, 0x17, 0x1b, 0xcc, 0x55, 0xa6, 0xff, 0x83, 0x45, 0xe6, 0x92, 0xc0, 0xf8, 0x6e,
    0x5b, 0x48, 0xe0, 0x1b, 0x99, 0x6c, 0xad, 0xc0, 0x01, 0x62, 0x2f, 0xb5, 0xe3, 0x63, 0xb4, 0x21], rfl⟩

/-- `emptyCodeHash`: the Keccak-256 of no code. -/
def emptyCodeHash : List UInt8 :=
  [0xc5, 0xd2, 0x46, 0x01, 0x86, 0xf7, 0x23, 0x3c, 0x92, 0x7e, 0x7d, 0xb2, 0xdc, 0xc7, 0x03, 0xc0,
   0xe5, 0x00, 0xb6, 0x53, 0xca, 0x82, 0x27, 0x3b, 0x7b, 0xfa, 0xd8, 0x04, 0x5d, 0x85, 0xa4, 0x70]

/-- What the state reads of `state.Database` and of its tries: the storage trie at a root, as the
map it holds, and the root hash of a storage trie and of the account trie. -/
structure Database where
  openStorageTrie : Hash → Hash → Option Hash
  storageHash : (Hash → Option Hash) → Hash
  accountHash : (Address → Option Account) → Hash

/-- `stateObject`. -/
structure StateObject where
  address : Address
  data : Account
  trie : Option (Hash → Option Hash)
  code : List UInt8
  originStorage : Storage
  pendingStorage : Storage
  dirtyStorage : Storage
  dirtyCode : Bool
  suicided : Bool
  deleted : Bool

/-- `newObject`: a missing code hash is that of no code, a zero root that of an empty trie. -/
def newObject (address : Address) (data : Account) : StateObject :=
  let data := if data.codeHash = [] then { data with codeHash := emptyCodeHash } else data
  let data := if data.root = Vector.replicate 32 0 then { data with root := emptyRoot } else data
  ⟨address, data, none, [], ∅, ∅, ∅, false, false, false⟩

namespace StateObject

/-- `empty`: the account is considered empty by EIP-161. -/
def empty (s : StateObject) : Bool :=
  s.data.nonce = 0 && s.data.balance = 0 && s.data.codeHash = emptyCodeHash

/-- `setBalance`. -/
def setBalance (s : StateObject) (amount : Int) : StateObject := { s with data.balance := amount }

/-- `setNonce`. -/
def setNonce (s : StateObject) (nonce : UInt64) : StateObject := { s with data.nonce := nonce }

/-- `setCode`. -/
def setCode (s : StateObject) (codeHash : Hash) (code : List UInt8) : StateObject :=
  { s with code := code, data.codeHash := codeHash.toList, dirtyCode := true }

/-- `setState`: the write goes to the dirty storage. -/
def setState (s : StateObject) (key value : Hash) : StateObject :=
  { s with dirtyStorage := s.dirtyStorage.insert key value }

/-- `markSuicided`. -/
def markSuicided (s : StateObject) : StateObject := { s with suicided := true }

/-- `finalise`: the dirty slots move into the pending area. -/
def finalise (s : StateObject) : StateObject :=
  { s with
    pendingStorage := s.dirtyStorage.entries.foldl (fun p kv => p.insert kv.1 kv.2) s.pendingStorage
    dirtyStorage := if s.dirtyStorage.entries.length > 0 then ∅ else s.dirtyStorage }

/-- `getTrie`: the storage trie, opened at the account's root on first access. -/
def getTrie (db : Database) (s : StateObject) : (Hash → Option Hash) × StateObject :=
  match s.trie with
  | some tr => (tr, s)
  | none =>
    let tr := db.openStorageTrie s.data.root
    (tr, { s with trie := some tr })

/-- The loop of `updateTrie` over one pending slot: a value equal to the one read is skipped, a zero
value is deleted from the trie, any other is written. -/
def updateSlot (acc : (Hash → Option Hash) × Storage) (key value : Hash) :
    (Hash → Option Hash) × Storage :=
  let (tr, originStorage) := acc
  if value = (originStorage.lookup key).getD (Vector.replicate 32 0) then (tr, originStorage)
  else
    (Function.update tr key (if value = Vector.replicate 32 0 then none else some value),
      originStorage.insert key value)

/-- `updateTrie`: the trie with the pending slots written, or the trie as it was (`nil` if never
opened) when nothing is pending. -/
def updateTrie (db : Database) (s : StateObject) : Option (Hash → Option Hash) × StateObject :=
  let s := s.finalise
  if s.pendingStorage.entries.length = 0 then (s.trie, s)
  else
    let (tr, s) := s.getTrie db
    let (tr, originStorage) :=
      s.pendingStorage.entries.foldl (fun acc kv => updateSlot acc kv.1 kv.2) (tr, s.originStorage)
    (some tr, { s with trie := some tr, originStorage := originStorage, pendingStorage := ∅ })

/-- `updateRoot`: the account's root becomes the hash of the updated trie, if there is one. -/
def updateRoot (db : Database) (s : StateObject) : StateObject :=
  match s.updateTrie db with
  | (none, s) => s
  | (some tr, s) => { s with data.root := db.storageHash tr }

/-- `deepCopy`: the trie is copied (`CopyTrie`), the code shared, the storages copied, the flags
kept. -/
def deepCopy (s : StateObject) : StateObject :=
  { newObject s.address s.data with
    trie := s.trie
    code := s.code
    dirtyStorage := s.dirtyStorage
    originStorage := s.originStorage
    pendingStorage := s.pendingStorage
    suicided := s.suicided
    dirtyCode := s.dirtyCode
    deleted := s.deleted }

/-- Writing the storage keeps the object's address and flags. -/
theorem updateTrie_keeps (db : Database) (s : StateObject) :
    (s.updateTrie db).2.address = s.address ∧ (s.updateTrie db).2.deleted = s.deleted := by
  unfold updateTrie getTrie
  dsimp only
  split
  · exact ⟨rfl, rfl⟩
  · split <;> exact ⟨rfl, rfl⟩

@[simp] theorem updateRoot_address (db : Database) (s : StateObject) :
    (s.updateRoot db).address = s.address := by
  unfold updateRoot
  split <;> rename_i h <;> rw [← (updateTrie_keeps db s).1, h]

@[simp] theorem updateRoot_deleted (db : Database) (s : StateObject) :
    (s.updateRoot db).deleted = s.deleted := by
  unfold updateRoot
  split <;> rename_i h <;> rw [← (updateTrie_keeps db s).2, h]

@[simp] theorem deepCopy_address (s : StateObject) : s.deepCopy.address = s.address := rfl

@[simp] theorem deepCopy_deleted (s : StateObject) : s.deepCopy.deleted = s.deleted := rfl

end StateObject

end Go420coin.State
