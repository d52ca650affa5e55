import Go420coin.State.StateDB

/-!
# Reverting the access list to a snapshot

Along calls of `AddAddressToAccessList` and `AddSlotToAccessList`, the journal holds one entry for
each change of the access list, in order: `replay al₀` of the entries, each on the list the ones
before it left and where it changed that list (`logStep`), gives the access list now (`Inv`).  A
revert undoes the entries from the last one on, and each undoes exactly its own change on a
well-formed list (`undo_addAddress`, `undo_addSlot`), so reverting to a journal length `k` leaves
the list the first `k` entries give (`revertJournal_spec`).

While a revision taken at journal `J` is valid, the journal keeps `J` as its first entries: an
addition only appends, and a revert to a later revision cuts the journal to a length no shorter
than `J`'s, the revisions being ordered by id and by journal length (`Keeps`).  So after
`RevertToSnapshot(id)` the access list is the one of `Snapshot(id)`, and along every run the list is
well formed (`accessList_journal_restores`).
-/

namespace Go420coin.State

open AccessList

/-! ### The journal as a log of the access list -/

/-- One entry replayed: an address added where it was absent, a slot added where its address was
present and the slot was not. -/
def logStep (al : AccessList) : JournalEntry → Option AccessList
  | .accessListAddAccountChange a => if al.addresses a = none then some (al.addAddress a).2 else none
  | .accessListAddSlotChange a slot =>
    if al.addresses a = none then none
    else
      match al.addSlot a slot with
      | some (false, true, al') => some al'
      | _ => none
  | _ => none

theorem logStep_addAccount (al : AccessList) (a : Address) :
    logStep al (.accessListAddAccountChange a) =
      if al.addresses a = none then some (al.addAddress a).2 else none := rfl

theorem logStep_addSlot (al : AccessList) (a : Address) (slot : Hash) :
    logStep al (.accessListAddSlotChange a slot) =
      if al.addresses a = none then none
      else
        match al.addSlot a slot with
        | some (false, true, al') => some al'
        | _ => none := rfl

/-- The entries replayed from `al₀`. -/
def replay (al₀ : AccessList) (entries : List JournalEntry) : Option AccessList :=
  entries.foldlM logStep al₀

theorem replay_append (al₀ : AccessList) (es es' : List JournalEntry) :
    replay al₀ (es ++ es') = (replay al₀ es).bind fun al => replay al es' := by
  simp only [replay, List.foldlM_append]
  rfl

theorem replay_singleton (al : AccessList) (e : JournalEntry) : replay al [e] = logStep al e := by
  cases h : logStep al e <;> simp [replay, h]

theorem replay_snoc {al₀ al : AccessList} {es : List JournalEntry} (h : replay al₀ es = some al)
    (e : JournalEntry) : replay al₀ (es ++ [e]) = logStep al e := by
  rw [replay_append, h, Option.bind_some, replay_singleton]

theorem logStep_wellFormed {al al' : AccessList} (hwf : al.WellFormed) {e : JournalEntry}
    (h : logStep al e = some al') : al'.WellFormed := by
  cases e with
  | accessListAddAccountChange a =>
    rw [logStep_addAccount] at h
    split at h
    · cases h
      exact addAddress_wellFormed hwf a
    · cases h
  | accessListAddSlotChange a slot =>
    rw [logStep_addSlot] at h
    split at h
    · cases h
    · split at h
      · cases h
        exact addSlot_wellFormed hwf ‹_›
      · cases h
  | _ => cases h

theorem replay_wellFormed {al₀ : AccessList} (h₀ : al₀.WellFormed) :
    ∀ {es : List JournalEntry} {al : AccessList}, replay al₀ es = some al → al.WellFormed := by
  intro es
  induction es using List.reverseRecOn with
  | nil => intro al h; cases h; exact h₀
  | append_singleton es e ih =>
    intro al h
    rw [replay_append] at h
    cases hes : replay al₀ es with
    | none => rw [hes] at h; cases h
    | some al₁ =>
      rw [hes, Option.bind_some] at h
      exact logStep_wellFormed (ih hes) (by rwa [replay_singleton] at h)

/-- Reverting a replayed entry takes the list back to the one before it, and no account is dirty. -/
theorem revertEntry_of_logStep {al al' : AccessList} (hwf : al.WellFormed) {e : JournalEntry}
    (h : logStep al e = some al') {s : StateDB} (hs : s.accessList = al') :
    s.revertEntry e = some { s with accessList := al } ∧ e.dirtied = none := by
  cases e with
  | accessListAddAccountChange a =>
    rw [logStep_addAccount] at h
    split at h
    · rename_i ha
      cases h
      simp only [StateDB.revertEntry, hs, undo_addAddress ha, JournalEntry.dirtied, and_true]
    · cases h
  | accessListAddSlotChange a slot =>
    rw [logStep_addSlot] at h
    split at h
    · cases h
    · rename_i ha
      split at h
      · rename_i hadd
        cases h
        simp only [StateDB.revertEntry, hs, undo_addSlot hwf ha hadd, Option.map_some,
          JournalEntry.dirtied, and_true]
      · cases h
  | _ => cases h

theorem revertEntries_append (s : StateDB) (es es' : List JournalEntry) :
    s.revertEntries (es ++ es') = (s.revertEntries es).bind fun s => s.revertEntries es' := by
  induction es generalizing s with
  | nil => rfl
  | cons e es ih =>
    simp only [List.cons_append, StateDB.revertEntries]
    cases s.revertEntry e with
    | none => rfl
    | some s₁ => exact ih _

/-- Reverting replayed entries, the last first, takes the list back to where the replay started. -/
theorem revert_replay {al₀ : AccessList} (h₀ : al₀.WellFormed) :
    ∀ {es : List JournalEntry} {al : AccessList}, replay al₀ es = some al →
      ∀ {s : StateDB}, s.accessList = al → s.revertEntries es.reverse = some { s with accessList := al₀ } := by
  intro es
  induction es using List.reverseRecOn with
  | nil => intro al h s hs; cases h; simp [StateDB.revertEntries, ← hs]
  | append_singleton es e ih =>
    intro al h s hs
    rw [replay_append] at h
    cases hes : replay al₀ es with
    | none => rw [hes] at h; cases h
    | some al₁ =>
      rw [hes, Option.bind_some] at h
      have hstep : logStep al₁ e = some al := by rwa [replay_singleton] at h
      obtain ⟨hrev, hdirty⟩ := revertEntry_of_logStep (replay_wellFormed h₀ hes) hstep hs
      have hlast : s.revertEntries [e] = some { s with accessList := al₁ } := by
        simp only [StateDB.revertEntries, hrev, hdirty]
        rfl
      rw [List.reverse_append, List.reverse_singleton, revertEntries_append, hlast, Option.bind_some]
      exact ih hes rfl

/-! ### The invariant -/

/-- The access list is what the journal replays from `al₀`, and the revisions are ordered by id and
by journal length, each below the next id and the journal's length. -/
structure Inv (al₀ : AccessList) (s : StateDB) : Prop where
  start : al₀.WellFormed
  logged : replay al₀ s.journal.entries = some s.accessList
  sorted : s.validRevisions.Pairwise fun r r' => r.id < r'.id ∧ r.journalIndex ≤ r'.journalIndex
  bounded : ∀ r ∈ s.validRevisions, r.id < s.nextRevisionId ∧ r.journalIndex ≤ s.journal.entries.length

theorem Inv.wellFormed {al₀ : AccessList} {s : StateDB} (h : Inv al₀ s) : s.accessList.WellFormed :=
  replay_wellFormed h.start h.logged

/-- A state with an empty journal and no revision satisfies the invariant from its own list. -/
theorem inv_start {s : StateDB} (hwf : s.accessList.WellFormed) (hj : s.journal.entries = [])
    (hr : s.validRevisions = []) : Inv s.accessList s :=
  ⟨hwf, by rw [hj]; rfl, by rw [hr]; exact .nil, by rw [hr]; intro r hr; cases hr⟩

/-- Reverting the journal to a length `k` leaves the list its first `k` entries replay. -/
theorem revertJournal_spec {al₀ : AccessList} {s : StateDB} (hinv : Inv al₀ s) (k : Nat) :
    ∃ al, replay al₀ (s.journal.entries.take k) = some al ∧
      s.revertJournal k = some { s with accessList := al, journal.entries := s.journal.entries.take k } := by
  have hsplit := hinv.logged
  rw [← List.take_append_drop k s.journal.entries, replay_append] at hsplit
  cases htake : replay al₀ (s.journal.entries.take k) with
  | none => rw [htake] at hsplit; cases hsplit
  | some al =>
    rw [htake, Option.bind_some] at hsplit
    have hrev := revert_replay (replay_wellFormed hinv.start htake) hsplit (s := s) rfl
    refine ⟨al, rfl, ?_⟩
    simp only [StateDB.revertJournal, hrev]
    rfl

/-- A revision before the one at `idx` is no later in the journal. -/
theorem journalIndex_le_of_mem_take {l : List Revision}
    (hl : l.Pairwise fun r r' => r.id < r'.id ∧ r.journalIndex ≤ r'.journalIndex) {idx : Nat}
    {r r' : Revision} (hr : r ∈ l.take idx) (hr' : l[idx]? = some r') : r.journalIndex ≤ r'.journalIndex := by
  rw [← List.take_append_drop idx l] at hl
  have hmem : r' ∈ l.drop idx := by
    have h0 : (l.drop idx)[0]? = some r' := by rw [List.getElem?_drop, Nat.add_zero, hr']
    exact List.mem_of_getElem? h0
  exact ((List.pairwise_append.mp hl).2.2 r hr r' hmem).2

/-- The revision `id` was taken at journal `J`, and while it is valid the journal starts with `J`. -/
def Keeps (id : Nat) (J : List JournalEntry) (s : StateDB) : Prop :=
  id < s.nextRevisionId ∧
    ∀ r ∈ s.validRevisions, r.id = id → r.journalIndex = J.length ∧ s.journal.entries.take J.length = J

/-! ### One call -/

/-- An access-list call appends to the journal and leaves the revisions and the next id. -/
structure Appends (s s' : StateDB) : Prop where
  entries : ∃ es, s'.journal.entries = s.journal.entries ++ es
  validRevisions : s'.validRevisions = s.validRevisions
  nextRevisionId : s'.nextRevisionId = s.nextRevisionId

section Step

variable {al₀ : AccessList} {s s' : StateDB}

theorem Inv.of_appends (hinv : Inv al₀ s) (happ : Appends s s')
    (hrep : replay al₀ s'.journal.entries = some s'.accessList) : Inv al₀ s' := by
  obtain ⟨es, hes⟩ := happ.entries
  refine ⟨hinv.start, hrep, by rw [happ.validRevisions]; exact hinv.sorted, fun r hr => ?_⟩
  rw [happ.validRevisions] at hr
  obtain ⟨hid, hidx⟩ := hinv.bounded r hr
  rw [happ.nextRevisionId, hes, List.length_append]
  exact ⟨hid, by omega⟩

theorem Keeps.of_appends {id : Nat} {J : List JournalEntry} (hk : Keeps id J s) (hinv : Inv al₀ s)
    (happ : Appends s s') : Keeps id J s' := by
  obtain ⟨es, hes⟩ := happ.entries
  refine ⟨by rw [happ.nextRevisionId]; exact hk.1, fun r hr hrid => ?_⟩
  rw [happ.validRevisions] at hr
  obtain ⟨hlen, htake⟩ := hk.2 r hr hrid
  -- the revision's length is within the old journal, which the new one extends
  have hle : J.length ≤ s.journal.entries.length := hlen ▸ (hinv.bounded r hr).2
  rw [hes, List.take_append_of_le_length hle]
  exact ⟨hlen, htake⟩

/-- The access-list entries dirty no account. -/
@[simp] theorem Journal.append_accessListAddAccountChange (j : Journal) (a : Address) :
    j.append (.accessListAddAccountChange a) = { j with entries := j.entries ++ [.accessListAddAccountChange a] } :=
  rfl

@[simp] theorem Journal.append_accessListAddSlotChange (j : Journal) (a : Address) (slot : Hash) :
    j.append (.accessListAddSlotChange a slot) =
      { j with entries := j.entries ++ [.accessListAddSlotChange a slot] } :=
  rfl

/-- An address added by `AddAddressToAccessList` is journalled. -/
theorem addAddressToAccessList_inv (hinv : Inv al₀ s) (addr : Address) :
    Inv al₀ (s.addAddressToAccessList addr) ∧ Appends s (s.addAddressToAccessList addr) := by
  cases h : s.accessList.addresses addr with
  | some _ =>
    have hs : s.addAddressToAccessList addr = s := by
      simp [StateDB.addAddressToAccessList, AccessList.addAddress, h]
    rw [hs]
    exact ⟨hinv, ⟨⟨[], by simp⟩, rfl, rfl⟩⟩
  | none =>
    let s' : StateDB := { s with
      accessList := (s.accessList.addAddress addr).2
      journal := { s.journal with entries := s.journal.entries ++ [.accessListAddAccountChange addr] } }
    have hs : s.addAddressToAccessList addr = s' := by
      simp [StateDB.addAddressToAccessList, AccessList.addAddress, h, StateDB.append, s']
    have happ : Appends s s' := ⟨⟨_, rfl⟩, rfl, rfl⟩
    rw [hs]
    refine ⟨hinv.of_appends happ ?_, happ⟩
    show replay al₀ (s.journal.entries ++ [_]) = _
    rw [replay_snoc hinv.logged, logStep_addAccount, if_pos h]

/-- `AddSlotToAccessList` on the invariant never panics, and journals what it changed. -/
theorem addSlotToAccessList_inv (hinv : Inv al₀ s) (addr : Address) (slot : Hash) :
    ∃ s', s.addSlotToAccessList addr slot = some s' ∧ Inv al₀ s' ∧ Appends s s' := by
  have hwf := hinv.wellFormed
  rcases hwf.cases addr with ha | ha | ⟨k, ha, hk⟩
  · -- a new address: journalled as an address, then as a slot on the address with no slots
    let s' : StateDB := { s with
      accessList := s.accessList.withSlotSet addr slot
      journal := { s.journal with entries := s.journal.entries ++
        [.accessListAddAccountChange addr, .accessListAddSlotChange addr slot] } }
    have happ : Appends s s' := ⟨⟨_, rfl⟩, rfl, rfl⟩
    refine ⟨s', ?_, hinv.of_appends happ ?_, happ⟩
    · simp [StateDB.addSlotToAccessList, addSlot_of_none ha, StateDB.append, s']
    · have h₁ : replay al₀ (s.journal.entries ++ [.accessListAddAccountChange addr]) =
          some (s.accessList.addAddress addr).2 := by
        rw [replay_snoc hinv.logged, logStep_addAccount, if_pos ha]
      have ha₁ : (s.accessList.addAddress addr).2.addresses addr = some (-1) := by
        simp [AccessList.addAddress, ha]
      have hw : (s.accessList.addAddress addr).2.withSlotSet addr slot = s.accessList.withSlotSet addr slot := by
        simp [AccessList.addAddress, ha, withSlotSet]
      show replay al₀ (s.journal.entries ++ [_, _]) = _
      rw [← List.singleton_append, ← List.append_assoc, replay_snoc h₁, logStep_addSlot, if_neg (by simp [ha₁]),
        addSlot_of_neg_one ha₁, hw]
  · -- an address with no slots: the new set is journalled
    let s' : StateDB := { s with
      accessList := s.accessList.withSlotSet addr slot
      journal := { s.journal with entries := s.journal.entries ++ [.accessListAddSlotChange addr slot] } }
    have happ : Appends s s' := ⟨⟨_, rfl⟩, rfl, rfl⟩
    refine ⟨s', ?_, hinv.of_appends happ ?_, happ⟩
    · simp [StateDB.addSlotToAccessList, addSlot_of_neg_one ha, StateDB.append, s']
    · show replay al₀ (s.journal.entries ++ [_]) = _
      rw [replay_snoc hinv.logged, logStep_addSlot, if_neg (by simp [ha]), addSlot_of_neg_one ha]
  · by_cases hs : slot ∈ s.accessList.slots[k]
    · -- nothing changes
      refine ⟨s, ?_, hinv, ⟨⟨[], by simp⟩, rfl, rfl⟩⟩
      simp [StateDB.addSlotToAccessList, addSlot_of_index ha hk, hs]
    · -- the slot joins the address's set, journalled
      let s' : StateDB := { s with
        accessList := { s.accessList with slots := s.accessList.slots.set k (insert slot s.accessList.slots[k]) }
        journal := { s.journal with entries := s.journal.entries ++ [.accessListAddSlotChange addr slot] } }
      have happ : Appends s s' := ⟨⟨_, rfl⟩, rfl, rfl⟩
      refine ⟨s', ?_, hinv.of_appends happ ?_, happ⟩
      · simp [StateDB.addSlotToAccessList, addSlot_of_index ha hk, hs, StateDB.append, s']
      · show replay al₀ (s.journal.entries ++ [_]) = _
        rw [replay_snoc hinv.logged, logStep_addSlot, if_neg (by simp [ha]), addSlot_of_index ha hk, if_neg hs]

end Step

/-! ### Snapshots and reverts -/

section Revisions

variable {al₀ : AccessList} {s s' : StateDB}

theorem snapshot_inv (hinv : Inv al₀ s) : Inv al₀ s.snapshot.2 := by
  refine ⟨hinv.start, hinv.logged, ?_, fun r hr => ?_⟩
  · -- the new revision comes after every valid one, in id and in journal length
    refine List.pairwise_append.mpr ⟨hinv.sorted, List.pairwise_singleton _ _, fun r hr r' hr' => ?_⟩
    rw [List.mem_singleton] at hr'
    subst hr'
    exact hinv.bounded r hr
  · simp only [StateDB.snapshot, List.mem_append, List.mem_singleton] at hr ⊢
    rcases hr with hr | rfl
    · obtain ⟨h₁, h₂⟩ := hinv.bounded r hr
      exact ⟨by omega, h₂⟩
    · exact ⟨Nat.lt_succ_self _, le_rfl⟩

/-- The revision a snapshot takes stands for the journal of that moment. -/
theorem keeps_snapshot (hinv : Inv al₀ s) : Keeps s.snapshot.1 s.journal.entries s.snapshot.2 := by
  refine ⟨by simp [StateDB.snapshot], fun r hr hrid => ?_⟩
  simp only [StateDB.snapshot, List.mem_append, List.mem_singleton] at hr hrid ⊢
  rcases hr with hr | rfl
  · exact absurd hrid (Nat.ne_of_lt (hinv.bounded r hr).1)
  · exact ⟨rfl, List.take_length⟩

theorem Keeps.snapshot {id : Nat} {J : List JournalEntry} (hk : Keeps id J s) : Keeps id J s.snapshot.2 := by
  refine ⟨by simp only [StateDB.snapshot]; have := hk.1; omega, fun r hr hrid => ?_⟩
  simp only [StateDB.snapshot, List.mem_append, List.mem_singleton] at hr ⊢
  rcases hr with hr | rfl
  · exact hk.2 r hr hrid
  · exact absurd hrid (Nat.ne_of_gt hk.1)

/-- A revert that returns found a valid revision with the id, and replays the journal up to it. -/
theorem revertToSnapshot_ok (hinv : Inv al₀ s) {revid : Nat} (h : s.revertToSnapshot revid = some s') :
    ∃ idx r al, s.validRevisions[idx]? = some r ∧ r.id = revid ∧
      replay al₀ (s.journal.entries.take r.journalIndex) = some al ∧
      s' = { s with
        accessList := al
        journal.entries := s.journal.entries.take r.journalIndex
        validRevisions := s.validRevisions.take idx } := by
  unfold StateDB.revertToSnapshot at h
  generalize s.validRevisions.findIdx (fun r => decide (r.id ≥ revid)) = idx at h
  dsimp only at h
  cases hr : s.validRevisions[idx]? with
  | none => rw [hr] at h; cases h
  | some r =>
    rw [hr] at h
    dsimp only at h
    by_cases hid : r.id = revid
    · obtain ⟨al, hal, hrev⟩ := revertJournal_spec hinv r.journalIndex
      rw [if_neg (not_not.mpr hid), hrev] at h
      cases h
      exact ⟨idx, r, al, hr, hid, hal, rfl⟩
    · rw [if_pos hid] at h
      cases h

theorem revertToSnapshot_inv (hinv : Inv al₀ s) {revid : Nat} (h : s.revertToSnapshot revid = some s') :
    Inv al₀ s' := by
  obtain ⟨idx, r, al, hr, -, hal, rfl⟩ := revertToSnapshot_ok hinv h
  refine ⟨hinv.start, hal, hinv.sorted.sublist (List.take_sublist _ _), fun r' hr' => ?_⟩
  -- the revisions left come before the one reverted to
  have hle := journalIndex_le_of_mem_take hinv.sorted hr' hr
  have hlen : r.journalIndex ≤ s.journal.entries.length :=
    (hinv.bounded r (List.mem_of_getElem? hr)).2
  refine ⟨(hinv.bounded r' (List.mem_of_mem_take hr')).1, ?_⟩
  simp only [List.length_take]
  omega

theorem Keeps.revertToSnapshot {id : Nat} {J : List JournalEntry} (hk : Keeps id J s) (hinv : Inv al₀ s)
    {revid : Nat} (h : s.revertToSnapshot revid = some s') : Keeps id J s' := by
  obtain ⟨idx, r, al, hr, -, -, rfl⟩ := revertToSnapshot_ok hinv h
  refine ⟨hk.1, fun r' hr' hrid => ?_⟩
  obtain ⟨hlen, htake⟩ := hk.2 r' (List.mem_of_mem_take hr') hrid
  -- the journal is cut at the later revision, after `J`
  have hle := journalIndex_le_of_mem_take hinv.sorted hr' hr
  refine ⟨hlen, ?_⟩
  dsimp only
  rw [List.take_take, Nat.min_eq_left (hlen ▸ hle), htake]

end Revisions

/-! ### Runs -/

/-- A call on the access list, or on the revisions. -/
inductive AccessOp
  | addAddress (addr : Address)
  | addSlot (addr : Address) (slot : Hash)
  | snapshot
  | revertToSnapshot (revid : Nat)

/-- The call, on a state. -/
def AccessOp.run : AccessOp → StateDB → Option StateDB
  | .addAddress addr, s => some (s.addAddressToAccessList addr)
  | .addSlot addr slot, s => s.addSlotToAccessList addr slot
  | .snapshot, s => some s.snapshot.2
  | .revertToSnapshot revid, s => s.revertToSnapshot revid

/-- The calls one after the other; a panic ends the run. -/
def runAccessOps : List AccessOp → StateDB → Option StateDB
  | [], s => some s
  | op :: ops, s => (op.run s).bind (runAccessOps ops)

section Runs

variable {al₀ : AccessList} {s s' : StateDB}

/-- One call keeps the invariant, and a revision standing for its journal keeps standing for it. -/
theorem AccessOp.run_inv (hinv : Inv al₀ s) {op : AccessOp} (h : op.run s = some s') :
    Inv al₀ s' ∧ ∀ id J, Keeps id J s → Keeps id J s' := by
  cases op with
  | addAddress addr =>
    cases h
    obtain ⟨hinv', happ⟩ := addAddressToAccessList_inv hinv addr
    exact ⟨hinv', fun _ _ hk => hk.of_appends hinv happ⟩
  | addSlot addr slot =>
    obtain ⟨s₁, h₁, hinv', happ⟩ := addSlotToAccessList_inv hinv addr slot
    rw [AccessOp.run, h₁] at h
    cases h
    exact ⟨hinv', fun _ _ hk => hk.of_appends hinv happ⟩
  | snapshot =>
    cases h
    exact ⟨snapshot_inv hinv, fun _ _ hk => hk.snapshot⟩
  | revertToSnapshot revid =>
    exact ⟨revertToSnapshot_inv hinv h, fun _ _ hk => hk.revertToSnapshot hinv h⟩

/-- Every run keeps the invariant and the revisions' journals. -/
theorem runAccessOps_inv : ∀ {ops : List AccessOp} {s s' : StateDB}, Inv al₀ s →
    runAccessOps ops s = some s' → Inv al₀ s' ∧ ∀ id J, Keeps id J s → Keeps id J s'
  | [], _, _, hinv, h => by cases h; exact ⟨hinv, fun _ _ hk => hk⟩
  | op :: ops, s, s', hinv, h => by
    cases h₁ : op.run s with
    | none => rw [runAccessOps, h₁] at h; cases h
    | some s₁ =>
      rw [runAccessOps, h₁, Option.bind_some] at h
      obtain ⟨hinv₁, hkeep₁⟩ := AccessOp.run_inv hinv h₁
      obtain ⟨hinv', hkeep'⟩ := runAccessOps_inv hinv₁ h
      exact ⟨hinv', fun id J hk => hkeep' id J (hkeep₁ id J hk)⟩

/-- Reverting to a revision that stands for journal `J` leaves the list `J` replays. -/
theorem revertToSnapshot_replays {id : Nat} {J : List JournalEntry} (hinv : Inv al₀ s) (hk : Keeps id J s)
    (h : s.revertToSnapshot id = some s') : replay al₀ J = some s'.accessList := by
  obtain ⟨idx, r, al, hr, hid, hal, rfl⟩ := revertToSnapshot_ok hinv h
  obtain ⟨hlen, htake⟩ := hk.2 r (List.mem_of_getElem? hr) hid
  rw [hlen, htake] at hal
  exact hal

end Runs

theorem accessList_journal_restores {s₀ : StateDB} (hwf : s₀.accessList.WellFormed)
    (hj : s₀.journal.entries = []) (hr : s₀.validRevisions = []) :
    (∀ ops s, runAccessOps ops s₀ = some s → s.accessList.WellFormed) ∧
    ∀ ops₁ ops₂ (s₁ s₃ s₄ : StateDB), runAccessOps ops₁ s₀ = some s₁ →
      runAccessOps ops₂ s₁.snapshot.2 = some s₃ → s₃.revertToSnapshot s₁.snapshot.1 = some s₄ →
      s₄.accessList = s₁.accessList ∧
        ∀ addr slot, s₄.addressInAccessList addr = s₁.addressInAccessList addr ∧
          s₄.slotInAccessList addr slot = s₁.slotInAccessList addr slot := by
  have hinv₀ := inv_start hwf hj hr
  refine ⟨fun ops s h => (runAccessOps_inv hinv₀ h).1.wellFormed, ?_⟩
  intro ops₁ ops₂ s₁ s₃ s₄ h₁ h₃ h₄
  obtain ⟨hinv₁, -⟩ := runAccessOps_inv hinv₀ h₁
  -- the snapshot's revision stands for the journal of `s₁` through the calls after it
  obtain ⟨hinv₃, hkeep₃⟩ := runAccessOps_inv (snapshot_inv hinv₁) h₃
  have hk := hkeep₃ _ _ (keeps_snapshot hinv₁)
  have hrep := revertToSnapshot_replays hinv₃ hk h₄
  have hal : s₄.accessList = s₁.accessList := by
    rw [hinv₁.logged] at hrep
    exact (Option.some.inj hrep).symm
  exact ⟨hal, fun addr slot => by simp [StateDB.addressInAccessList, StateDB.slotInAccessList, hal]⟩

theorem accessList_journal_restores_new :
    (newStateDB fun _ => none).accessList.WellFormed ∧ (newStateDB fun _ => none).journal.entries = [] ∧
      (newStateDB fun _ => none).validRevisions = [] ∧
      ((∀ ops s, runAccessOps ops (newStateDB fun _ => none) = some s → s.accessList.WellFormed) ∧
      ∀ ops₁ ops₂ (s₁ s₃ s₄ : StateDB), runAccessOps ops₁ (newStateDB fun _ => none) = some s₁ →
        runAccessOps ops₂ s₁.snapshot.2 = some s₃ → s₃.revertToSnapshot s₁.snapshot.1 = some s₄ →
        s₄.accessList = s₁.accessList ∧
          ∀ addr slot, s₄.addressInAccessList addr = s₁.addressInAccessList addr ∧
            s₄.slotInAccessList addr slot = s₁.slotInAccessList addr slot) :=
  ⟨newAccessList_wellFormed, rfl, rfl,
    accessList_journal_restores newAccessList_wellFormed rfl rfl⟩

end Go420coin.State
