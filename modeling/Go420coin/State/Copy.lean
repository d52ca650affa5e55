import Go420coin.Lib.Loop
import Go420coin.State.StateDB

/-!
# `Copy` in the middle of a transaction

`Copy` does not copy the journal.  Its comment says that whatever the journal would do at a commit
must then already be in the copy, and it marks every object the journal dirtied as pending and
dirty.  But `Finalise` does more for those objects than mark them: a self-destructed one (and an
empty one when empty objects are deleted) is marked `deleted`, so that `IntermediateRoot` removes it
from the account trie.  The copy's journal is empty, so its `Finalise` visits nothing, the copied
object is still not deleted, and the copy's `IntermediateRoot` writes the self-destructed account
back into the trie (`copy_intermediateRoot_diverges`).

The proofs follow one address through the loops of `Copy`, `Finalise` and `IntermediateRoot`:
every loop writes only the entries of the address it visits, and every object is kept under its own
address (`Keyed`).
-/

namespace Go420coin.State

/-! ### Following one address -/

namespace StateDB

/-- Every object is kept under its own address. -/
def Keyed (s : StateDB) : Prop := ∀ a o, s.stateObjects.lookup a = some o → o.address = a

/-- Every pending and every dirty address has an object. -/
def Backed (s : StateDB) : Prop :=
  (∀ a ∈ s.stateObjectsPending, (s.stateObjects.lookup a).isSome) ∧
    ∀ a ∈ s.stateObjectsDirty, (s.stateObjects.lookup a).isSome

theorem Keyed.insert {s : StateDB} (hk : s.Keyed) {a : Address} {o : StateObject} (ho : o.address = a) :
    ∀ b o', (s.stateObjects.insert a o).lookup b = some o' → o'.address = b := by
  intro b o' h
  by_cases hba : b = a
  · subst hba
    rw [AList.lookup_insert] at h
    cases h
    exact ho
  · rw [AList.lookup_insert_ne hba] at h
    exact hk b o' h

/-! ### One visit of each loop -/

section Visits

variable {s st : StateDB}

/-- A visit of `IntermediateRoot`'s loop writes the trie at the object's address only: nothing for a
deleted object, its account for any other. -/
theorem updatePending_spec (db : Database) (hk : st.Keyed) {a : Address} {o : StateObject}
    (ho : st.stateObjects.lookup a = some o) :
    ∃ st', st.updatePending db a = some st' ∧ st'.Keyed ∧
      (∃ o', st'.stateObjects.lookup a = some o' ∧ o'.deleted = o.deleted) ∧
      (st'.trie a = none ↔ o.deleted = true) ∧
      ∀ b, b ≠ a → st'.stateObjects.lookup b = st.stateObjects.lookup b ∧ st'.trie b = st.trie b := by
  have haddr : o.address = a := hk a o ho
  by_cases hdel : o.deleted = true
  · refine ⟨{ st with trie := Function.update st.trie o.address none }, ?_, hk, ⟨o, ho, rfl⟩, ?_, ?_⟩
    · simp [updatePending, ho, hdel]
    · simp [haddr, hdel]
    · intro b hb
      exact ⟨rfl, by simp [haddr, hb]⟩
  · refine ⟨{ st with
      stateObjects := st.stateObjects.insert a (o.updateRoot db)
      trie := Function.update st.trie (o.updateRoot db).address (some (o.updateRoot db).data) },
      ?_, hk.insert (by simp [haddr]), ⟨o.updateRoot db, AList.lookup_insert _, by simp⟩, ?_, ?_⟩
    · simp [updatePending, ho, hdel]
    · simp [haddr, hdel]
    · intro b hb
      exact ⟨AList.lookup_insert_ne hb, by simp [haddr, hb]⟩

/-- A visit of `Copy`'s second or third loop: an object not in the copy yet is copied from `s`. -/
theorem copyObject_spec (hks : s.Keyed) (hk : st.Keyed) {a : Address} (ha : (s.stateObjects.lookup a).isSome) :
    ∃ st', copyObject s st a = some st' ∧ st'.Keyed ∧ (st'.stateObjects.lookup a).isSome ∧
      (∀ b, (st.stateObjects.lookup b).isSome → st'.stateObjects.lookup b = st.stateObjects.lookup b) ∧
      st'.stateObjectsPending = st.stateObjectsPending ∧ st'.stateObjectsDirty = st.stateObjectsDirty ∧
      st'.journal = st.journal ∧ st'.trie = st.trie := by
  cases hst : st.stateObjects.lookup a with
  | some o => exact ⟨st, by simp [copyObject, hst], hk, by simp [hst], fun _ _ => rfl, rfl, rfl, rfl, rfl⟩
  | none =>
    obtain ⟨o, ho⟩ := Option.isSome_iff_exists.mp ha
    refine ⟨{ st with stateObjects := st.stateObjects.insert a o.deepCopy }, by simp [copyObject, hst, ho],
      hk.insert (by simp [hks a o ho]), by simp, fun b hb => ?_, rfl, rfl, rfl, rfl⟩
    have hba : b ≠ a := by rintro rfl; rw [hst] at hb; cases hb
    exact AList.lookup_insert_ne hba

end Visits

/-! ### The loops -/

section Loops

variable {s : StateDB} {addr : Address}

theorem Backed.of_insert {st st' : StateDB} (hb : st.Backed) {a : Address}
    (hkeep : ∀ b, (st.stateObjects.lookup b).isSome → (st'.stateObjects.lookup b).isSome)
    (ha : (st'.stateObjects.lookup a).isSome)
    (hp : ∀ b ∈ st'.stateObjectsPending, b = a ∨ b ∈ st.stateObjectsPending)
    (hd : ∀ b ∈ st'.stateObjectsDirty, b = a ∨ b ∈ st.stateObjectsDirty) : st'.Backed := by
  refine ⟨fun b hb' => ?_, fun b hb' => ?_⟩
  · rcases hp b hb' with rfl | hb'
    · exact ha
    · exact hkeep b (hb.1 b hb')
  · rcases hd b hb' with rfl | hb'
    · exact ha
    · exact hkeep b (hb.2 b hb')

/-- An object put in with its address made pending and dirty keeps the state backed. -/
theorem Backed.insert {st : StateDB} (hb : st.Backed) (a : Address) (o : StateObject) :
    StateDB.Backed { st with
      stateObjects := st.stateObjects.insert a o
      stateObjectsPending := st.stateObjectsPending.insert a
      stateObjectsDirty := st.stateObjectsDirty.insert a } := by
  refine hb.of_insert (a := a) (fun b hb' => ?_) (by simp) (fun b hb' => ?_) (fun b hb' => ?_)
  · by_cases hba : b = a
    · rw [hba, AList.lookup_insert]
      rfl
    · simpa [AList.lookup_insert_ne hba] using hb'
  · simpa [List.mem_insert_iff] using hb'
  · simpa [List.mem_insert_iff] using hb'

/-- `IntermediateRoot`'s loop over pending addresses that all have objects: at the end the trie
has no account at an address exactly when its object is deleted. -/
theorem foldlM_updatePending (db : Database) {st : StateDB} (hk : st.Keyed)
    (hb : ∀ b ∈ st.stateObjectsPending, (st.stateObjects.lookup b).isSome) {o : StateObject}
    (ho : st.stateObjects.lookup addr = some o) (hmem : addr ∈ st.stateObjectsPending) :
    ∃ st', st.stateObjectsPending.foldlM (updatePending db) st = some st' ∧
      (st'.trie addr = none ↔ o.deleted = true) := by
  -- the addresses still to visit have objects; `addr`'s object keeps its flag, and once visited
  -- the trie at `addr` says whether it is deleted
  let I : List Address → StateDB → Prop := fun l st' =>
    st'.Keyed ∧ (∀ b ∈ l, (st'.stateObjects.lookup b).isSome) ∧
      (∃ o', st'.stateObjects.lookup addr = some o' ∧ o'.deleted = o.deleted) ∧
      (addr ∉ l → (st'.trie addr = none ↔ o.deleted = true))
  have step : ∀ a l st', I (a :: l) st' → ∃ st'', st'.updatePending db a = some st'' ∧ I l st'' := by
    rintro a l st' ⟨hk', hl, ⟨o', ho', hdel'⟩, hvisit⟩
    obtain ⟨oa, hoa⟩ := Option.isSome_iff_exists.mp (hl a List.mem_cons_self)
    obtain ⟨st'', hup, hk'', ⟨oa', hoa', hdel''⟩, htrie, hother⟩ := updatePending_spec db hk' hoa
    refine ⟨st'', hup, hk'', fun b hb' => ?_, ?_, fun hnot => ?_⟩
    · by_cases hba : b = a
      · rw [hba, hoa']
        rfl
      · rw [(hother b hba).1]
        exact hl b (List.mem_cons_of_mem a hb')
    · by_cases haa : addr = a
      · subst haa
        rw [ho'] at hoa
        cases hoa
        exact ⟨oa', hoa', hdel''.trans hdel'⟩
      · exact ⟨o', by rw [(hother addr haa).1, ho'], hdel'⟩
    · by_cases haa : addr = a
      · subst haa
        rw [ho'] at hoa
        cases hoa
        rw [htrie, hdel']
      · rw [(hother addr haa).2]
        exact hvisit (by simp [haa, hnot])
  obtain ⟨st', hst', -, -, -, htrie⟩ :=
    Loop.foldlM_some I step ⟨hk, hb, ⟨o, ho, rfl⟩, fun hnot => absurd hmem hnot⟩
  exact ⟨st', hst', htrie (List.not_mem_nil)⟩

/-- `Copy` of a state whose objects are keyed and backed: the copy is keyed and backed, has an
empty journal and the same trie, and holds a deep copy of each object the journal dirtied, pending. -/
theorem copy_spec (hks : s.Keyed) (hbs : s.Backed) {obj : StateObject}
    (hdirtied : addr ∈ s.journal.dirties.keys) (hobj : s.stateObjects.lookup addr = some obj) :
    ∃ c, s.copy = some c ∧ c.Keyed ∧ c.Backed ∧ c.stateObjects.lookup addr = some obj.deepCopy ∧
      addr ∈ c.stateObjectsPending ∧ c.journal = newJournal ∧ c.trie = s.trie := by
  -- the first loop copies the dirtied objects
  let I₁ : List Address → StateDB → Prop := fun l st =>
    st.Keyed ∧ st.Backed ∧ st.journal = newJournal ∧ st.trie = s.trie ∧
      (addr ∉ l → st.stateObjects.lookup addr = some obj.deepCopy ∧ addr ∈ st.stateObjectsPending)
  have step₁ : ∀ a l st, I₁ (a :: l) st → I₁ l (copyDirtied s st a) := by
    rintro a l st ⟨hk, hb, hj, ht, hvisit⟩
    cases hsa : s.stateObjects.lookup a with
    | none =>
      have haa : addr ≠ a := by rintro rfl; rw [hobj] at hsa; cases hsa
      rw [copyDirtied, hsa]
      exact ⟨hk, hb, hj, ht, fun hnot => hvisit (by simp [haa, hnot])⟩
    | some o =>
      rw [copyDirtied, hsa]
      refine ⟨hk.insert (by simp [hks a o hsa]), hb.insert a o.deepCopy, hj, ht, fun hnot => ?_⟩
      by_cases haa : addr = a
      · subst haa
        rw [hobj] at hsa
        cases hsa
        exact ⟨AList.lookup_insert _, List.mem_insert_self⟩
      · obtain ⟨hl, hp⟩ := hvisit (by simp [haa, hnot])
        exact ⟨by rw [AList.lookup_insert_ne haa, hl], List.mem_insert_of_mem hp⟩
  have h₁ := Loop.foldl_inv I₁ step₁ (l := s.journal.dirties.keys)
    (b := ⟨s.trie, ∅, [], [], s.refund, newJournal, [], 0, newAccessList⟩)
    ⟨fun _ _ h => by simp at h, ⟨fun _ h => by simp at h, fun _ h => by simp at h⟩, rfl, rfl,
      fun hnot => absurd hdirtied hnot⟩
  -- the other two loops copy what is missing, and keep the copied objects
  let I₂ : List Address → StateDB → Prop := fun l st =>
    st.Keyed ∧ st.Backed ∧ st.journal = newJournal ∧ st.trie = s.trie ∧
      st.stateObjects.lookup addr = some obj.deepCopy ∧ addr ∈ st.stateObjectsPending ∧
      ∀ b ∈ l, (s.stateObjects.lookup b).isSome
  have step₂ : ∀ a l st, I₂ (a :: l) st → ∃ st', (do
      let st ← copyObject s st a
      pure { st with stateObjectsPending := st.stateObjectsPending.insert a }) = some st' ∧ I₂ l st' := by
    rintro a l st ⟨hk, hb, hj, ht, hl, hp, hs⟩
    obtain ⟨st₁, h₁, hk₁, ha₁, hkeep, hpend, hdirty, hj₁, ht₁⟩ := copyObject_spec hks hk (hs a List.mem_cons_self)
    refine ⟨{ st₁ with stateObjectsPending := st₁.stateObjectsPending.insert a }, by rw [h₁]; rfl,
      hk₁, ?_, hj₁.trans hj, ht₁.trans ht, by rw [hkeep addr (by simp [hl]), hl], ?_,
      fun b hb' => hs b (List.mem_cons_of_mem a hb')⟩
    · refine hb.of_insert (a := a) (fun b hb' => by rw [hkeep b hb']; exact hb') ha₁ (fun b hb' => ?_)
        (fun b hb' => .inr (hdirty ▸ hb'))
      simpa [List.mem_insert_iff, hpend] using hb'
    · exact List.mem_insert_of_mem (hpend ▸ hp)
  let I₃ : List Address → StateDB → Prop := fun l st =>
    st.Keyed ∧ st.Backed ∧ st.journal = newJournal ∧ st.trie = s.trie ∧
      st.stateObjects.lookup addr = some obj.deepCopy ∧ addr ∈ st.stateObjectsPending ∧
      ∀ b ∈ l, (s.stateObjects.lookup b).isSome
  have step₃ : ∀ a l st, I₃ (a :: l) st → ∃ st', (do
      let st ← copyObject s st a
      pure { st with stateObjectsDirty := st.stateObjectsDirty.insert a }) = some st' ∧ I₃ l st' := by
    rintro a l st ⟨hk, hb, hj, ht, hl, hp, hs⟩
    obtain ⟨st₁, h₁, hk₁, ha₁, hkeep, hpend, hdirty, hj₁, ht₁⟩ := copyObject_spec hks hk (hs a List.mem_cons_self)
    refine ⟨{ st₁ with stateObjectsDirty := st₁.stateObjectsDirty.insert a }, by rw [h₁]; rfl,
      hk₁, ?_, hj₁.trans hj, ht₁.trans ht, by rw [hkeep addr (by simp [hl]), hl], hpend ▸ hp,
      fun b hb' => hs b (List.mem_cons_of_mem a hb')⟩
    refine hb.of_insert (a := a) (fun b hb' => by rw [hkeep b hb']; exact hb') ha₁
      (fun b hb' => .inr (hpend ▸ hb')) (fun b hb' => ?_)
    simpa [List.mem_insert_iff, hdirty] using hb'
  obtain ⟨hk₁, hb₁, hj₁, ht₁, hvisit⟩ := h₁
  obtain ⟨hl₁, hp₁⟩ := hvisit List.not_mem_nil
  obtain ⟨st₂, h₂, hk₂, hb₂, hj₂, ht₂, hl₂, hp₂, -⟩ :=
    Loop.foldlM_some I₂ step₂ ⟨hk₁, hb₁, hj₁, ht₁, hl₁, hp₁, hbs.1⟩
  obtain ⟨st₃, h₃, hk₃, hb₃, hj₃, ht₃, hl₃, hp₃, -⟩ :=
    Loop.foldlM_some I₃ step₃ ⟨hk₂, hb₂, hj₂, ht₂, hl₂, hp₂, hbs.2⟩
  refine ⟨{ st₃ with accessList := s.accessList.copy }, ?_, hk₃, hb₃, hl₃, hp₃, hj₃, ht₃⟩
  simp only [Option.bind_eq_bind] at h₂ h₃
  simp only [copy, Option.bind_eq_bind, h₂, Option.bind_some, h₃]
  rfl

end Loops

/-! ### Finalise and IntermediateRoot -/

section Finalise

variable {s st : StateDB} {addr : Address}

/-- A visit of `Finalise`'s loop at a live object puts a new object in its place, of the same
address and self-destruct flag, deleted if self-destructed, and makes it pending and dirty. -/
theorem finaliseObject_spec (d : Bool) {a : Address} {o : StateObject} (ho : st.stateObjects.lookup a = some o) :
    ∃ o', finaliseObject d st a = { st with
        stateObjects := st.stateObjects.insert a o'
        stateObjectsPending := st.stateObjectsPending.insert a
        stateObjectsDirty := st.stateObjectsDirty.insert a } ∧
      o'.address = o.address ∧ o'.suicided = o.suicided ∧ (o.suicided = true → o'.deleted = true) :=
  ⟨if o.suicided || (d && o.empty) then { o with deleted := true } else o.finalise,
    by simp only [finaliseObject, ho], by split <;> rfl, by split <;> rfl, fun h => by simp [h]⟩

/-- With an empty journal `Finalise` visits nothing and only drops the revisions. -/
theorem finalise_of_newJournal (h : s.journal = newJournal) (d : Bool) :
    s.finalise d = { s with validRevisions := [] } := by
  simp [finalise, clearJournalAndRefund, h, newJournal]

/-- `Finalise` of a state whose journal dirtied a self-destructed object: afterwards the object is
deleted and pending, and the objects are still keyed and backed. -/
theorem finalise_suicided (hk : s.Keyed) (hb : s.Backed) {obj : StateObject}
    (hdirtied : addr ∈ s.journal.dirties.keys) (hobj : s.stateObjects.lookup addr = some obj)
    (hsui : obj.suicided = true) (d : Bool) :
    (s.finalise d).Keyed ∧ (s.finalise d).Backed ∧
      (∃ o, (s.finalise d).stateObjects.lookup addr = some o ∧ o.deleted = true) ∧
      addr ∈ (s.finalise d).stateObjectsPending := by
  -- `addr`'s object stays self-destructed, and once visited it is deleted and pending
  let I : List Address → StateDB → Prop := fun l st =>
    st.Keyed ∧ st.Backed ∧ ∃ o, st.stateObjects.lookup addr = some o ∧ o.suicided = true ∧
      (addr ∉ l → o.deleted = true ∧ addr ∈ st.stateObjectsPending)
  have step : ∀ a l st, I (a :: l) st → I l (finaliseObject d st a) := by
    rintro a l st ⟨hk', hb', o, ho, hsui', hvisit⟩
    cases hsa : st.stateObjects.lookup a with
    | none =>
      have haa : addr ≠ a := by rintro rfl; rw [ho] at hsa; cases hsa
      rw [finaliseObject, hsa]
      exact ⟨hk', hb', o, ho, hsui', fun hnot => hvisit (by simp [haa, hnot])⟩
    | some oa =>
      obtain ⟨o', hfin, haddr, hsuio, hdel⟩ := finaliseObject_spec d hsa
      rw [hfin]
      refine ⟨hk'.insert (haddr.trans (hk' a oa hsa)), hb'.insert a o', ?_⟩
      by_cases haa : addr = a
      · subst haa
        rw [ho] at hsa
        cases hsa
        exact ⟨o', AList.lookup_insert _, hsuio.trans hsui', fun _ => ⟨hdel hsui', List.mem_insert_self⟩⟩
      · refine ⟨o, by rw [AList.lookup_insert_ne haa, ho], hsui', fun hnot => ?_⟩
        obtain ⟨hdel', hp⟩ := hvisit (by simp [haa, hnot])
        exact ⟨hdel', List.mem_insert_of_mem hp⟩
  obtain ⟨hk₁, hb₁, o, ho, -, hvisit⟩ :=
    Loop.foldl_inv I step (l := s.journal.dirties.keys) ⟨hk, hb, obj, hobj, hsui, fun hnot => absurd hdirtied hnot⟩
  obtain ⟨hdel, hp⟩ := hvisit List.not_mem_nil
  -- `clearJournalAndRefund` keeps the objects and the pending and dirty addresses
  have hclear : ∀ st : StateDB, st.clearJournalAndRefund.stateObjects = st.stateObjects ∧
      st.clearJournalAndRefund.stateObjectsPending = st.stateObjectsPending ∧
      st.clearJournalAndRefund.stateObjectsDirty = st.stateObjectsDirty := by
    intro st
    simp only [clearJournalAndRefund]
    split <;> exact ⟨rfl, rfl, rfl⟩
  obtain ⟨hso, hsp, hsd⟩ := hclear (s.journal.dirties.keys.foldl (finaliseObject d) s)
  refine ⟨fun a o h => hk₁ a o (hso ▸ h), ⟨fun b h => ?_, fun b h => ?_⟩, ⟨o, hso ▸ ho, hdel⟩, hsp ▸ hp⟩
  · rw [finalise, hso]
    exact hb₁.1 b (hsp ▸ h)
  · rw [finalise, hso]
    exact hb₁.2 b (hsd ▸ h)

/-- `IntermediateRoot` is the account hash of the trie its loop leaves. -/
theorem intermediateRoot_eq {db : Database} {d : Bool}
    (h : (s.finalise d).stateObjectsPending.foldlM (updatePending db) (s.finalise d) = some st) :
    s.intermediateRoot db d = some (db.accountHash st.trie, { st with stateObjectsPending := [] }) := by
  simp only [intermediateRoot, Option.bind_eq_bind, h, Option.bind_some]
  rfl

/-- The copy of a state whose journal dirtied a self-destructed account, not yet finalised, has a
different `IntermediateRoot`: `s` removes the account from the trie, the copy writes it back.  The
roots differ as soon as the account hash tells whether the account is in the trie. -/
theorem copy_intermediateRoot_diverges (db : Database) (s : StateDB) (d : Bool) (hks : s.Keyed)
    (hbs : s.Backed) {addr : Address} {obj : StateObject} (hdirtied : addr ∈ s.journal.dirties.keys)
    (hobj : s.stateObjects.lookup addr = some obj) (hsui : obj.suicided = true) (hdel : obj.deleted = false)
    (hdb : ∀ t t' : Address → Option Account, t addr = none → t' addr ≠ none →
      db.accountHash t ≠ db.accountHash t') :
    ∃ c h₁ s₁ h₂ c₁, s.copy = some c ∧ s.intermediateRoot db d = some (h₁, s₁) ∧
      c.intermediateRoot db d = some (h₂, c₁) ∧ s₁.trie addr = none ∧ c₁.trie addr ≠ none ∧ h₁ ≠ h₂ := by
  obtain ⟨c, hc, hkc, hbc, hlc, hpc, hjc, -⟩ := copy_spec hks hbs hdirtied hobj
  -- `s`'s `Finalise` deletes the account; the copy's, with an empty journal, does nothing
  obtain ⟨hkf, hbf, ⟨o, ho, hodel⟩, hpf⟩ := finalise_suicided hks hbs hdirtied hobj hsui d
  obtain ⟨s', hs', hstrie⟩ := foldlM_updatePending db hkf hbf.1 ho hpf
  have hcf := finalise_of_newJournal hjc d
  have hkcf : (c.finalise d).Keyed := by rw [hcf]; exact hkc
  obtain ⟨c', hc', hctrie⟩ := foldlM_updatePending db hkcf (by rw [hcf]; exact hbc.1) (by rw [hcf]; exact hlc)
    (by rw [hcf]; exact hpc)
  have hnone : s'.trie addr = none := hstrie.mpr hodel
  have hsome : c'.trie addr ≠ none := fun h => by
    have hcdel := hctrie.mp h
    rw [StateObject.deepCopy_deleted, hdel] at hcdel
    cases hcdel
  exact ⟨c, _, _, _, _, hc, intermediateRoot_eq hs', intermediateRoot_eq hc', hnone, hsome,
    hdb _ _ hnone hsome⟩

end Finalise

/-! ### Reaching such a state: `Suicide` -/

section Suicide

variable {s s' : StateDB} {addr : Address}

theorem Keyed.setStateObject (hk : s.Keyed) (o : StateObject) : (s.setStateObject o).Keyed :=
  hk.insert rfl

theorem Backed.setStateObject (hb : s.Backed) (o : StateObject) : (s.setStateObject o).Backed := by
  refine hb.of_insert (a := o.address) (fun b hb' => ?_) (by simp [StateDB.setStateObject]) (fun b hb' => .inr hb')
    (fun b hb' => .inr hb')
  by_cases hba : b = o.address
  · rw [hba]
    simp [StateDB.setStateObject]
  · simpa [StateDB.setStateObject, AList.lookup_insert_ne hba] using hb'

theorem newStateDB_keyed (trie : Address → Option Account) : (newStateDB trie).Keyed :=
  fun _ _ h => by simp [newStateDB] at h

theorem newStateDB_backed (trie : Address → Option Account) : (newStateDB trie).Backed :=
  ⟨fun _ h => by simp [newStateDB] at h, fun _ h => by simp [newStateDB] at h⟩

/-- `getDeletedStateObject` returns the object it leaves live at the address, and keeps the journal
and the objects keyed and backed. -/
theorem getDeletedStateObject_spec (hk : s.Keyed) (hb : s.Backed) {o : StateObject}
    (h : s.getDeletedStateObject addr = (some o, s')) :
    s'.Keyed ∧ s'.Backed ∧ s'.stateObjects.lookup addr = some o ∧ s'.journal = s.journal := by
  unfold getDeletedStateObject at h
  split at h
  · rename_i obj hobj
    cases h
    exact ⟨hk, hb, hobj, rfl⟩
  · split at h
    · cases h
    · cases h
      -- the account read from the trie becomes live under its address
      exact ⟨hk.setStateObject _, hb.setStateObject _, AList.lookup_insert _, rfl⟩

/-- `getStateObject` returns a live object that is not deleted. -/
theorem getStateObject_spec (hk : s.Keyed) (hb : s.Backed) {o : StateObject}
    (h : s.getStateObject addr = (some o, s')) :
    s'.Keyed ∧ s'.Backed ∧ s'.stateObjects.lookup addr = some o ∧ s'.journal = s.journal ∧
      o.deleted = false := by
  unfold getStateObject at h
  split at h
  · rename_i obj s₁ hget
    obtain ⟨hk₁, hb₁, ho₁, hj₁⟩ := getDeletedStateObject_spec hk hb hget
    split at h
    · cases h
    · rename_i hdel
      cases h
      exact ⟨hk₁, hb₁, ho₁, hj₁, by simpa using hdel⟩
  · cases h

/-- `Suicide` of a live account, in any keyed and backed state, leaves its object self-destructed,
not deleted, and dirtied in the journal. -/
theorem suicide_spec (hk : s.Keyed) (hb : s.Backed) (h : (s.suicide addr).1 = true) :
    (s.suicide addr).2.Keyed ∧ (s.suicide addr).2.Backed ∧ addr ∈ (s.suicide addr).2.journal.dirties.keys ∧
      ∃ o, (s.suicide addr).2.stateObjects.lookup addr = some o ∧ o.suicided = true ∧ o.deleted = false := by
  unfold suicide at h ⊢
  split at h
  · cases h
  · rename_i obj s₁ hget
    obtain ⟨hk₁, hb₁, ho₁, -, hdel⟩ := getStateObject_spec hk hb hget
    have haddr : obj.address = addr := hk₁ addr obj ho₁
    -- the marked object goes back under its address
    refine ⟨hk₁.setStateObject _, hb₁.setStateObject _, ?_, ⟨obj.markSuicided.setBalance 0, ?_, rfl, hdel⟩⟩
    · simp [setStateObject, append, Journal.append, JournalEntry.dirtied, Journal.dirty, AList.keys_insert]
    · simp only [setStateObject, StateObject.setBalance, StateObject.markSuicided, haddr, AList.lookup_insert]

end Suicide

/-- The account `0x0101…01`, alone in the trie, with a balance of 5. -/
def oneAccount : Address → Option Account := fun a =>
  if a = Vector.replicate 20 1 then some ⟨0, 5, emptyRoot, emptyCodeHash⟩ else none

/-- A database whose account hash tells whether `0x0101…01` has an account. -/
def presenceDatabase : Database :=
  ⟨fun _ _ => none, fun _ => Vector.replicate 32 0,
    fun t => if t (Vector.replicate 20 1) = none then Vector.replicate 32 0 else Vector.replicate 32 1⟩

theorem copy_intermediateRoot_diverges_oneAccount :
    ∃ c h₁ s₁ h₂ c₁, ((newStateDB oneAccount).suicide (Vector.replicate 20 1)).2.copy = some c ∧
      ((newStateDB oneAccount).suicide (Vector.replicate 20 1)).2.intermediateRoot presenceDatabase false =
        some (h₁, s₁) ∧
      c.intermediateRoot presenceDatabase false = some (h₂, c₁) ∧ s₁.trie (Vector.replicate 20 1) = none ∧
      c₁.trie (Vector.replicate 20 1) ≠ none ∧ h₁ ≠ h₂ := by
  obtain ⟨hk, hb, hmem, o, ho, hsui, hdel⟩ :=
    suicide_spec (newStateDB_keyed oneAccount) (newStateDB_backed oneAccount)
      (by decide : ((newStateDB oneAccount).suicide (Vector.replicate 20 1)).1 = true)
  refine copy_intermediateRoot_diverges presenceDatabase _ false hk hb hmem ho hsui hdel ?_
  intro t t' h h'
  simp only [presenceDatabase, h, h', if_true, if_false]
  decide

end StateDB

end Go420coin.State
