import Go420coin.Core.Types
import Mathlib.Data.Finset.Basic

/-!
# The access list (`core/state/access_list.go`)

`addresses` maps each address of the list to `-1`, when none of its slots is in the list, or to the
index of its slot set in `slots`.  `AddSlot` gives an address its slot set at the end of `slots`;
`DeleteSlot`, used only by the journal to undo an `AddSlot`, cuts `slots` back to the index of the
set it empties, which is right only if that set is the last one, as undoing in the reverse order of
the additions ensures.

`WellFormed` is the representation invariant: every address maps to `-1` or to an index of `slots`,
no two to the same index, every index is in use, and no slot set is empty.  Both additions keep it
(`addAddress_wellFormed`, `addSlot_spec`), and the journal's deletions undo them exactly on a
well-formed list (`undo_addAddress`, `undo_addSlot`).

Go's map of addresses is a function, a slot set a `Finset`.  A Go panic (`al.slots[idx]` out of
range, the explicit panic of `DeleteSlot`) is `none`.
-/

namespace Go420coin.State

/-- `accessList`. -/
structure AccessList where
  addresses : Address → Option Int
  slots : List (Finset Hash)

/-- `newAccessList`. -/
def newAccessList : AccessList := ⟨fun _ => none, []⟩

namespace AccessList

/-- `al.slots[idx]`, a panic out of range. -/
def slotAt (al : AccessList) (idx : Int) : Option (Finset Hash) :=
  if 0 ≤ idx then al.slots[idx.toNat]? else none

/-- `ContainsAddress`. -/
def containsAddress (al : AccessList) (address : Address) : Bool := (al.addresses address).isSome

/-- `Contains`: whether the address is present, and whether the slot is. -/
def contains (al : AccessList) (address : Address) (slot : Hash) : Option (Bool × Bool) :=
  match al.addresses address with
  | none => some (false, false)
  | some idx =>
    if idx = -1 then some (true, false)
    else (al.slotAt idx).map fun slotmap => (true, decide (slot ∈ slotmap))

/-- `Copy`: the same addresses, and a copy of each slot set. -/
def copy (a : AccessList) : AccessList := ⟨a.addresses, a.slots.map id⟩

/-- `AddAddress`: whether the address was added. -/
def addAddress (al : AccessList) (address : Address) : Bool × AccessList :=
  match al.addresses address with
  | some _ => (false, al)
  | none => (true, { al with addresses := Function.update al.addresses address (some (-1)) })

/-- `AddSlot`: whether the address and whether the slot were added.  `idx, addrPresent :=
al.addresses[address]` reads `0` for an absent address. -/
def addSlot (al : AccessList) (address : Address) (slot : Hash) : Option (Bool × Bool × AccessList) :=
  let addrPresent := (al.addresses address).isSome
  let idx := (al.addresses address).getD 0
  if !addrPresent || idx = -1 then
    -- the address gets a new slot set, at the end
    some (!addrPresent, true,
      { addresses := Function.update al.addresses address (some al.slots.length)
        slots := al.slots ++ [{slot}] })
  else
    (al.slotAt idx).map fun slotmap =>
      if slot ∈ slotmap then (false, false, al)
      else (false, true, { al with slots := al.slots.set idx.toNat (insert slot slotmap) })

/-- `DeleteSlot`: a set left empty is cut from `slots` with every set after it, and its address
maps to `-1` again. -/
def deleteSlot (al : AccessList) (address : Address) (slot : Hash) : Option AccessList :=
  match al.addresses address with
  | none => none
  | some idx =>
    (al.slotAt idx).map fun slotmap =>
      let slotmap := slotmap.erase slot
      if slotmap = ∅ then
        { addresses := Function.update al.addresses address (some (-1))
          slots := al.slots.take idx.toNat }
      else { al with slots := al.slots.set idx.toNat slotmap }

/-- `DeleteAddress`. -/
def deleteAddress (al : AccessList) (address : Address) : AccessList :=
  { al with addresses := Function.update al.addresses address none }

/-! ### The representation invariant -/

/-- Every address maps to `-1` or to its own index of `slots`, every index is in use, and no slot
set is empty. -/
structure WellFormed (al : AccessList) : Prop where
  index : ∀ a i, al.addresses a = some i → i = -1 ∨ (0 ≤ i ∧ i < al.slots.length)
  distinct : ∀ a b (k : Nat), al.addresses a = some (k : Int) → al.addresses b = some (k : Int) → a = b
  onto : ∀ k < al.slots.length, ∃ a, al.addresses a = some (k : Int)
  nonempty : ∀ m ∈ al.slots, m.Nonempty

theorem newAccessList_wellFormed : newAccessList.WellFormed :=
  ⟨fun _ _ h => (nomatch h), fun _ _ _ h => (nomatch h), fun _ hk => absurd hk (Nat.not_lt_zero _),
    fun _ hm => (nomatch hm)⟩

/-- The set at a valid index is there. -/
theorem slotAt_of_lt {al : AccessList} {k : Nat} (hk : k < al.slots.length) :
    al.slotAt k = some al.slots[k] := by
  simp [slotAt, hk]

/-! ### What each operation does -/

section Ops

variable {al : AccessList} {a : Address} {slot : Hash}

/-- A new slot set, at the end, for an address of no slot set. -/
def withSlotSet (al : AccessList) (a : Address) (slot : Hash) : AccessList :=
  ⟨Function.update al.addresses a (some al.slots.length), al.slots ++ [{slot}]⟩

theorem addSlot_of_none (h : al.addresses a = none) :
    al.addSlot a slot = some (true, true, al.withSlotSet a slot) := by
  simp [addSlot, withSlotSet, h]

theorem addSlot_of_neg_one (h : al.addresses a = some (-1)) :
    al.addSlot a slot = some (false, true, al.withSlotSet a slot) := by
  simp [addSlot, withSlotSet, h]

theorem addSlot_of_index {k : Nat} (h : al.addresses a = some (k : Int)) (hk : k < al.slots.length) :
    al.addSlot a slot = some (if slot ∈ al.slots[k] then (false, false, al)
      else (false, true, { al with slots := al.slots.set k (insert slot al.slots[k]) })) := by
  have hne : (k : Int) ≠ -1 := by omega
  simp [addSlot, h, hne, slotAt_of_lt hk]

/-- On a well-formed list an address has no slot set, an empty one (`-1`), or a valid index. -/
theorem WellFormed.cases (hwf : al.WellFormed) (a : Address) :
    al.addresses a = none ∨ al.addresses a = some (-1) ∨
      ∃ k : Nat, al.addresses a = some (k : Int) ∧ k < al.slots.length := by
  cases h : al.addresses a with
  | none => exact .inl rfl
  | some i =>
    rcases hwf.index a i h with rfl | ⟨h0, hlt⟩
    · exact .inr (.inl rfl)
    · refine .inr (.inr ⟨i.toNat, ?_, by omega⟩)
      rw [Int.toNat_of_nonneg h0]

theorem addAddress_wellFormed (hwf : al.WellFormed) (a : Address) : (al.addAddress a).2.WellFormed := by
  cases h : al.addresses a with
  | some _ => simpa [addAddress, h] using hwf
  | none =>
    simp only [addAddress, h]
    refine ⟨fun b i hb => ?_, fun b c k hb hc => ?_, fun k hk => ?_, hwf.nonempty⟩
    · dsimp only at hb ⊢
      by_cases hba : b = a
      · subst hba
        simp at hb
        exact .inl hb.symm
      · rw [Function.update_of_ne hba] at hb
        exact hwf.index b i hb
    · -- `a` maps to `-1`, so neither address with the index `k` is `a`
      dsimp only at hb hc
      have hb' : b ≠ a := by rintro rfl; simp at hb
      have hc' : c ≠ a := by rintro rfl; simp at hc
      rw [Function.update_of_ne hb'] at hb
      rw [Function.update_of_ne hc'] at hc
      exact hwf.distinct b c k hb hc
    · obtain ⟨b, hb⟩ := hwf.onto k hk
      have hba : b ≠ a := by rintro rfl; rw [h] at hb; cases hb
      exact ⟨b, by dsimp only; rw [Function.update_of_ne hba]; exact hb⟩

/-- The list with a new slot set for an address of no slot set is well formed. -/
theorem withSlotSet_wellFormed (hwf : al.WellFormed) (ha : al.addresses a = none ∨ al.addresses a = some (-1)) :
    (al.withSlotSet a slot).WellFormed := by
  have hold : ∀ b, b ≠ a → ∀ i, al.addresses b = some i → i = -1 ∨ (0 ≤ i ∧ i < al.slots.length) :=
    fun b _ i hb => hwf.index b i hb
  refine ⟨fun b i hb => ?_, fun b c k hb hc => ?_, fun k hk => ?_, fun m hm => ?_⟩
  · simp only [withSlotSet, List.length_append, List.length_singleton] at hb ⊢
    by_cases hba : b = a
    · subst hba
      simp at hb
      omega
    · rw [Function.update_of_ne hba] at hb
      rcases hold b hba i hb with h | h
      · exact .inl h
      · exact .inr ⟨h.1, by omega⟩
  · -- the new index is the old length, which no other address has
    simp only [withSlotSet] at hb hc
    by_cases hba : b = a
    · by_cases hca : c = a
      · rw [hba, hca]
      · rw [hba, Function.update_self, Option.some.injEq] at hb
        rw [Function.update_of_ne hca] at hc
        rcases hold c hca k hc with h | h <;> omega
    · rw [Function.update_of_ne hba] at hb
      by_cases hca : c = a
      · rw [hca, Function.update_self, Option.some.injEq] at hc
        rcases hold b hba k hb with h | h <;> omega
      · rw [Function.update_of_ne hca] at hc
        exact hwf.distinct b c k hb hc
  · simp only [withSlotSet, List.length_append, List.length_singleton] at hk ⊢
    by_cases hkl : k = al.slots.length
    · exact ⟨a, by rw [hkl, Function.update_self]⟩
    · obtain ⟨b, hb⟩ := hwf.onto k (by omega)
      have hba : b ≠ a := by
        rintro rfl
        -- `a` has no index: it is absent or maps to `-1`
        rcases ha with h | h
        · rw [h] at hb
          cases hb
        · rw [h, Option.some.injEq] at hb
          omega
      exact ⟨b, by rw [Function.update_of_ne hba]; exact hb⟩
  · simp only [withSlotSet, List.mem_append, List.mem_singleton] at hm
    rcases hm with hm | rfl
    · exact hwf.nonempty m hm
    · exact Finset.singleton_nonempty slot

theorem addSlot_wellFormed (hwf : al.WellFormed) {am sm : Bool} {al' : AccessList}
    (h : al.addSlot a slot = some (am, sm, al')) : al'.WellFormed := by
  rcases hwf.cases a with ha | ha | ⟨k, ha, hk⟩
  · rw [addSlot_of_none ha] at h
    cases h
    exact withSlotSet_wellFormed hwf (.inl ha)
  · rw [addSlot_of_neg_one ha] at h
    cases h
    exact withSlotSet_wellFormed hwf (.inr ha)
  · rw [addSlot_of_index ha hk] at h
    split at h
    · cases h
      exact hwf
    · -- the slot joins the set at `k`; indices and length stay
      cases h
      refine ⟨fun b i hb => ?_, hwf.distinct, fun j hj => hwf.onto j (by simpa using hj), fun m hm => ?_⟩
      · simpa using hwf.index b i hb
      · obtain ⟨j, hj, rfl⟩ := List.getElem_of_mem hm
        rw [List.getElem_set]
        split
        · exact Finset.insert_nonempty _ _
        · exact hwf.nonempty _ (List.getElem_mem _)

/-- `DeleteAddress` undoes an `AddAddress` that changed the list. -/
theorem undo_addAddress (h : al.addresses a = none) : (al.addAddress a).2.deleteAddress a = al := by
  simp only [addAddress, h, deleteAddress, Function.update_idem]
  rw [← h, Function.update_eq_self]

/-- `DeleteSlot` undoes an `AddSlot` that added a slot to an address in a well-formed list. -/
theorem undo_addSlot (hwf : al.WellFormed) (ha : al.addresses a ≠ none) {al' : AccessList}
    (h : al.addSlot a slot = some (false, true, al')) : al'.deleteSlot a slot = some al := by
  rcases hwf.cases a with ha' | ha' | ⟨k, ha', hk⟩
  · exact absurd ha' ha
  · -- the new set `{slot}` at the end empties, and is cut off
    rw [addSlot_of_neg_one ha'] at h
    cases h
    have hlen : (al.withSlotSet a slot).slotAt (al.slots.length : Int) = some {slot} := by
      simp [withSlotSet, slotAt]
    simp only [deleteSlot, withSlotSet, Function.update_self] at hlen ⊢
    rw [hlen]
    simp only [Option.map_some, Finset.erase_singleton, if_true, Function.update_idem, Int.toNat_natCast,
      List.take_left']
    rw [← ha', Function.update_eq_self]
  · -- the slot leaves the set at `k`, which stays non-empty
    rw [addSlot_of_index ha' hk] at h
    split at h
    · cases h
    · rename_i hs
      cases h
      have hat : ({ al with slots := al.slots.set k (insert slot al.slots[k]) } : AccessList).slotAt k =
          some (insert slot al.slots[k]) := by
        simp [slotAt, hk]
      have hne : al.slots[k].erase slot ≠ ∅ := by
        rw [Finset.erase_eq_of_notMem hs]
        exact (hwf.nonempty _ (List.getElem_mem hk)).ne_empty
      simp only [deleteSlot, ha', hat, Option.map_some, Finset.erase_insert hs, Int.toNat_natCast]
      rw [if_neg (by rwa [Finset.erase_eq_of_notMem hs] at hne), List.set_set, List.set_getElem_self]

end Ops

end AccessList

end Go420coin.State
