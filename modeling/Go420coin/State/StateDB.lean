import Go420coin.State.StateObject
import Go420coin.State.AccessList

/-!
# The state database (`core/state/statedb.go`, `core/state/journal.go`)

A `StateDB` caches the accounts it reads (`stateObjects`), writes them with a journal entry for each
change, so that `RevertToSnapshot` can undo the changes made since a `Snapshot` (a revision: an id
and the journal's length then), and at the end of a transaction `Finalise` marks the objects the
journal touched as pending, deleting the self-destructed ones and, if asked, the empty ones.
`IntermediateRoot` then writes every pending object into the account trie, or deletes it, and
hashes the trie.  `Copy` makes a new `StateDB` with an empty journal: the objects the journal
dirtied and the pending and dirty ones are deep-copied and marked pending and dirty.

The account trie is the map it holds (`trie`); `state.Database` is `Database`.  Go's maps from
addresses to objects and dirty counts are association lists, its sets of addresses lists of
addresses (`List.insert`), so that the loops over them go in one of the orders Go may take.
A nil-pointer dereference and an explicit panic are `none`.  Logs, preimages, the snapshot
bookkeeping (`snap`, `snapDestructs`, ...) and the database error are left out, with the journal
entries `addLogChange` and `addPreimageChange`.
-/

namespace Go420coin.State

/-- A journal entry: a change and what reverting it needs. -/
inductive JournalEntry
  | createObjectChange (account : Address)
  | resetObjectChange (prev : StateObject)
  | suicideChange (account : Address) (prev : Bool) (prevbalance : Int)
  | balanceChange (account : Address) (prev : Int)
  | nonceChange (account : Address) (prev : UInt64)
  | storageChange (account : Address) (key prevalue : Hash)
  | codeChange (account : Address) (prevcode prevhash : List UInt8)
  | refundChange (prev : UInt64)
  | touchChange (account : Address)
  | accessListAddAccountChange (address : Address)
  | accessListAddSlotChange (address : Address) (slot : Hash)

/-- `dirtied`: the account an entry modifies, if any. -/
def JournalEntry.dirtied : JournalEntry → Option Address
  | .createObjectChange account | .suicideChange account _ _ | .balanceChange account _
  | .nonceChange account _ | .storageChange account _ _ | .codeChange account _ _
  | .touchChange account => some account
  | .resetObjectChange _ | .refundChange _ | .accessListAddAccountChange _
  | .accessListAddSlotChange _ _ => none

/-- `journal`: the entries, and how many changes each dirty account has. -/
structure Journal where
  entries : List JournalEntry
  dirties : AList (fun _ : Address => Int)

/-- `newJournal`. -/
def newJournal : Journal := ⟨[], ∅⟩

namespace Journal

/-- `dirty`: one more change of the account. -/
def dirty (j : Journal) (addr : Address) : Journal :=
  { j with dirties := j.dirties.insert addr ((j.dirties.lookup addr).getD 0 + 1) }

/-- `append`. -/
def append (j : Journal) (entry : JournalEntry) : Journal :=
  let j := { j with entries := j.entries ++ [entry] }
  match entry.dirtied with
  | some addr => j.dirty addr
  | none => j

/-- The dirty count of `revert`: one change fewer, and the account is clean at zero. -/
def undirty (j : Journal) (addr : Address) : Journal :=
  let n := (j.dirties.lookup addr).getD 0 - 1
  { j with dirties := if n = 0 then j.dirties.erase addr else j.dirties.insert addr n }

end Journal

/-- `revision`. -/
structure Revision where
  id : Nat
  journalIndex : Nat

/-- `StateDB`, the fields the modelled methods read and write. -/
structure StateDB where
  trie : Address → Option Account
  stateObjects : AList (fun _ : Address => StateObject)
  stateObjectsPending : List Address
  stateObjectsDirty : List Address
  refund : UInt64
  journal : Journal
  validRevisions : List Revision
  nextRevisionId : Nat
  accessList : AccessList

/-- `New`: a state over the account trie at some root. -/
def newStateDB (trie : Address → Option Account) : StateDB :=
  ⟨trie, ∅, [], [], 0, newJournal, [], 0, newAccessList⟩

/-- The RIPEMD precompile, `0x...03`. -/
def ripemd : Address := Vector.ofFn fun i => if i.val = 19 then 3 else 0

namespace StateDB

/-- `setStateObject`. -/
def setStateObject (s : StateDB) (obj : StateObject) : StateDB :=
  { s with stateObjects := s.stateObjects.insert obj.address obj }

/-- `journal.append`. -/
def append (s : StateDB) (entry : JournalEntry) : StateDB := { s with journal := s.journal.append entry }

/-- `getDeletedStateObject`: the live object, or the account read from the trie, which becomes live. -/
def getDeletedStateObject (s : StateDB) (addr : Address) : Option StateObject × StateDB :=
  match s.stateObjects.lookup addr with
  | some obj => (some obj, s)
  | none =>
    match s.trie addr with
    | none => (none, s)
    | some data =>
      let obj := newObject addr data
      (some obj, s.setStateObject obj)

/-- `getStateObject`: as `getDeletedStateObject`, but nothing for a deleted object. -/
def getStateObject (s : StateDB) (addr : Address) : Option StateObject × StateDB :=
  match s.getDeletedStateObject addr with
  | (some obj, s) => if obj.deleted then (none, s) else (some obj, s)
  | (none, s) => (none, s)

/-- `createObject`: a new object replaces any old one, journalled as created or as reset; the old
one is returned unless it was deleted. -/
def createObject (s : StateDB) (addr : Address) : (StateObject × Option StateObject) × StateDB :=
  let (prev, s) := s.getDeletedStateObject addr
  let newobj := (newObject addr ⟨0, 0, Vector.replicate 32 0, []⟩).setNonce 0
  let s := match prev with
    | none => s.append (.createObjectChange addr)
    | some prev => s.append (.resetObjectChange prev)
  let s := s.setStateObject newobj
  match prev with
  | some prev => if !prev.deleted then ((newobj, some prev), s) else ((newobj, none), s)
  | none => ((newobj, none), s)

/-- `GetOrNewStateObject`. -/
def getOrNewStateObject (s : StateDB) (addr : Address) : StateObject × StateDB :=
  match s.getStateObject addr with
  | (some obj, s) => (obj, s)
  | (none, s) => let ((obj, _), s) := s.createObject addr; (obj, s)

/-- `stateObject.touch`: journalled, and RIPEMD is put in the dirty set explicitly. -/
def touch (s : StateDB) (obj : StateObject) : StateDB :=
  let s := s.append (.touchChange obj.address)
  if obj.address = ripemd then { s with journal := s.journal.dirty obj.address } else s

/-- `stateObject.SetBalance`: journalled. -/
def setObjectBalance (s : StateDB) (obj : StateObject) (amount : Int) : StateDB :=
  (s.append (.balanceChange obj.address obj.data.balance)).setStateObject (obj.setBalance amount)

/-- `AddBalance`: adding zero only touches an empty account. -/
def addBalance (s : StateDB) (addr : Address) (amount : Int) : StateDB :=
  let (obj, s) := s.getOrNewStateObject addr
  if amount = 0 then (if obj.empty then s.touch obj else s)
  else s.setObjectBalance obj (obj.data.balance + amount)

/-- `SubBalance`. -/
def subBalance (s : StateDB) (addr : Address) (amount : Int) : StateDB :=
  let (obj, s) := s.getOrNewStateObject addr
  if amount = 0 then s else s.setObjectBalance obj (obj.data.balance - amount)

/-- `SetNonce`: journalled. -/
def setNonce (s : StateDB) (addr : Address) (nonce : UInt64) : StateDB :=
  let (obj, s) := s.getOrNewStateObject addr
  (s.append (.nonceChange obj.address obj.data.nonce)).setStateObject (obj.setNonce nonce)

/-- `Suicide`: a live account is marked self-destructed and its balance cleared. -/
def suicide (s : StateDB) (addr : Address) : Bool × StateDB :=
  match s.getStateObject addr with
  | (none, s) => (false, s)
  | (some obj, s) =>
    let s := s.append (.suicideChange addr obj.suicided obj.data.balance)
    (true, s.setStateObject (obj.markSuicided.setBalance 0))

/-- `AddRefund`. -/
def addRefund (s : StateDB) (smoke : UInt64) : StateDB :=
  let s := s.append (.refundChange s.refund)
  { s with refund := s.refund + smoke }

/-- `SubRefund`: below zero it panics. -/
def subRefund (s : StateDB) (smoke : UInt64) : Option StateDB :=
  let s := s.append (.refundChange s.refund)
  if smoke > s.refund then none else some { s with refund := s.refund - smoke }

/-- `Exist`. -/
def exist (s : StateDB) (addr : Address) : Bool × StateDB :=
  let (obj, s) := s.getStateObject addr
  (obj.isSome, s)

/-- `GetBalance`. -/
def getBalance (s : StateDB) (addr : Address) : Int × StateDB :=
  let (obj, s) := s.getStateObject addr
  ((obj.map (·.data.balance)).getD 0, s)

/-- `HasSuicided`. -/
def hasSuicided (s : StateDB) (addr : Address) : Bool × StateDB :=
  let (obj, s) := s.getStateObject addr
  ((obj.map (·.suicided)).getD false, s)

/-! ### The journal -/

/-- `revert` of one entry.  Most reach the object through `getStateObject`, and a missing object is
a nil-pointer panic. -/
def revertEntry (s : StateDB) : JournalEntry → Option StateDB
  | .createObjectChange account =>
    some { s with
      stateObjects := s.stateObjects.erase account
      stateObjectsDirty := s.stateObjectsDirty.erase account }
  | .resetObjectChange prev => some (s.setStateObject prev)
  | .suicideChange account prev prevbalance =>
    match s.getStateObject account with
    | (some obj, s) => some (s.setStateObject ({ obj with suicided := prev }.setBalance prevbalance))
    | (none, s) => some s
  | .balanceChange account prev =>
    match s.getStateObject account with
    | (some obj, s) => some (s.setStateObject (obj.setBalance prev))
    | (none, _) => none
  | .nonceChange account prev =>
    match s.getStateObject account with
    | (some obj, s) => some (s.setStateObject (obj.setNonce prev))
    | (none, _) => none
  | .codeChange account prevcode prevhash =>
    match s.getStateObject account with
    | (some obj, s) => some (s.setStateObject (obj.setCode (bytesToHash prevhash) prevcode))
    | (none, _) => none
  | .storageChange account key prevalue =>
    match s.getStateObject account with
    | (some obj, s) => some (s.setStateObject (obj.setState key prevalue))
    | (none, _) => none
  | .refundChange prev => some { s with refund := prev }
  | .touchChange _ => some s
  | .accessListAddAccountChange address => some { s with accessList := s.accessList.deleteAddress address }
  | .accessListAddSlotChange address slot =>
    (s.accessList.deleteSlot address slot).map fun al => { s with accessList := al }

/-- The loop of `journal.revert`, over the entries to undo, the last first: each is reverted and
its account loses a dirty change. -/
def revertEntries (s : StateDB) : List JournalEntry → Option StateDB
  | [] => some s
  | entry :: rest => do
    let s ← s.revertEntry entry
    let s := match entry.dirtied with
      | some addr => { s with journal := s.journal.undirty addr }
      | none => s
    revertEntries s rest

/-- `journal.revert`: undo the entries from `snapshot` on, and drop them. -/
def revertJournal (s : StateDB) (snapshot : Nat) : Option StateDB := do
  let entries := s.journal.entries
  let s ← s.revertEntries (entries.drop snapshot).reverse
  pure { s with journal.entries := entries.take snapshot }

/-- `Snapshot`: a new revision at the journal's length. -/
def snapshot (s : StateDB) : Nat × StateDB :=
  let id := s.nextRevisionId
  (id, { s with
    nextRevisionId := s.nextRevisionId + 1
    validRevisions := s.validRevisions ++ [⟨id, s.journal.entries.length⟩] })

/-- `RevertToSnapshot`.  `sort.Search` gives the first revision whose id is at least `revid`, which
is what its binary search finds on the increasing ids; an id not found panics. -/
def revertToSnapshot (s : StateDB) (revid : Nat) : Option StateDB :=
  let idx := s.validRevisions.findIdx fun r => decide (r.id ≥ revid)
  match s.validRevisions[idx]? with
  | none => none
  | some r =>
    if r.id ≠ revid then none
    else do
      let s' ← s.revertJournal r.journalIndex
      pure { s' with validRevisions := s.validRevisions.take idx }

/-! ### The access list -/

/-- `AddAddressToAccessList`: journalled if it changed the list. -/
def addAddressToAccessList (s : StateDB) (addr : Address) : StateDB :=
  let (changed, al) := s.accessList.addAddress addr
  let s := { s with accessList := al }
  if changed then s.append (.accessListAddAccountChange addr) else s

/-- `AddSlotToAccessList`: the address, then the slot, journalled if each changed the list. -/
def addSlotToAccessList (s : StateDB) (addr : Address) (slot : Hash) : Option StateDB := do
  let (addrMod, slotMod, al) ← s.accessList.addSlot addr slot
  let s := { s with accessList := al }
  let s := if addrMod then s.append (.accessListAddAccountChange addr) else s
  pure (if slotMod then s.append (.accessListAddSlotChange addr slot) else s)

/-- `AddressInAccessList`. -/
def addressInAccessList (s : StateDB) (addr : Address) : Bool := s.accessList.containsAddress addr

/-- `SlotInAccessList`. -/
def slotInAccessList (s : StateDB) (addr : Address) (slot : Hash) : Option (Bool × Bool) :=
  s.accessList.contains addr slot

/-! ### Copy, Finalise and IntermediateRoot -/

/-- The first loop of `Copy`: an object the journal dirtied is copied and marked dirty and pending,
if it is live (the RIPEMD exception). -/
def copyDirtied (s state : StateDB) (addr : Address) : StateDB :=
  match s.stateObjects.lookup addr with
  | some object =>
    { state with
      stateObjects := state.stateObjects.insert addr object.deepCopy
      stateObjectsDirty := state.stateObjectsDirty.insert addr
      stateObjectsPending := state.stateObjectsPending.insert addr }
  | none => state

/-- The second and third loops of `Copy`: an object not copied yet is copied, and marked as in `s`. -/
def copyObject (s state : StateDB) (addr : Address) : Option StateDB :=
  match state.stateObjects.lookup addr with
  | some _ => some state
  | none =>
    (s.stateObjects.lookup addr).map fun object =>
      { state with stateObjects := state.stateObjects.insert addr object.deepCopy }

/-- `Copy`: the journal is not copied; what it would apply at a commit is to be in the copy. -/
def copy (s : StateDB) : Option StateDB := do
  let state : StateDB :=
    ⟨s.trie, ∅, [], [], s.refund, newJournal, [], 0, newAccessList⟩
  let state := s.journal.dirties.keys.foldl (copyDirtied s) state
  let state ← s.stateObjectsPending.foldlM (fun state addr => do
    let state ← copyObject s state addr
    pure { state with stateObjectsPending := state.stateObjectsPending.insert addr }) state
  let state ← s.stateObjectsDirty.foldlM (fun state addr => do
    let state ← copyObject s state addr
    pure { state with stateObjectsDirty := state.stateObjectsDirty.insert addr }) state
  pure { state with accessList := s.accessList.copy }

/-- The loop of `Finalise` over one address the journal dirtied: a self-destructed object, or an
empty one if asked, is marked deleted, any other finalised; either becomes pending and dirty. -/
def finaliseObject (deleteEmptyObjects : Bool) (s : StateDB) (addr : Address) : StateDB :=
  match s.stateObjects.lookup addr with
  | none => s
  | some obj =>
    let obj := if obj.suicided || (deleteEmptyObjects && obj.empty) then { obj with deleted := true }
      else obj.finalise
    { s with
      stateObjects := s.stateObjects.insert addr obj
      stateObjectsPending := s.stateObjectsPending.insert addr
      stateObjectsDirty := s.stateObjectsDirty.insert addr }

/-- `clearJournalAndRefund`: a journal with entries is dropped with the refund; the revisions always. -/
def clearJournalAndRefund (s : StateDB) : StateDB :=
  let s := if s.journal.entries.length > 0 then { s with journal := newJournal, refund := 0 } else s
  { s with validRevisions := [] }

/-- `Finalise`. -/
def finalise (s : StateDB) (deleteEmptyObjects : Bool) : StateDB :=
  (s.journal.dirties.keys.foldl (finaliseObject deleteEmptyObjects) s).clearJournalAndRefund

/-- The loop of `IntermediateRoot` over one pending address: a deleted object is removed from the
account trie (`deleteStateObject`), any other has its storage root updated and is written
(`updateStateObject`).  A pending address without an object is a nil-pointer panic. -/
def updatePending (db : Database) (s : StateDB) (addr : Address) : Option StateDB :=
  (s.stateObjects.lookup addr).map fun obj =>
    if obj.deleted then { s with trie := Function.update s.trie obj.address none }
    else
      let obj := obj.updateRoot db
      { s with
        stateObjects := s.stateObjects.insert addr obj
        trie := Function.update s.trie obj.address (some obj.data) }

/-- `IntermediateRoot`: the root hash of the account trie after `Finalise` and the pending writes. -/
def intermediateRoot (db : Database) (s : StateDB) (deleteEmptyObjects : Bool) : Option (Hash × StateDB) := do
  let s := s.finalise deleteEmptyObjects
  let s ← s.stateObjectsPending.foldlM (updatePending db) s
  let s := { s with stateObjectsPending := [] }
  pure (db.accountHash s.trie, s)

end StateDB

end Go420coin.State
