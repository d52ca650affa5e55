import Mathlib.Data.Finset.Insert

/-!
# Approximate membership filters

A filter answers whether a key may have been added: it never forgets a key it was given, and it
may answer yes for keys it was not given.  A Bloom filter is one; a `Finset` is the exact one.
`addAll` adds a list of keys, and a key is contained after it if it is in the list or was
contained before.
-/

/-- A membership filter over keys `κ` with no false negatives. -/
class MemFilter (φ : Type) (κ : outParam Type) where
  empty : φ
  add : φ → κ → φ
  contains : φ → κ → Bool
  contains_add_self : ∀ f k, contains (add f k) k = true
  contains_add_of_contains : ∀ f k k', contains f k' = true → contains (add f k) k' = true

namespace MemFilter

variable {φ κ : Type} [MemFilter φ κ]

/-- The filter with every key of `ks` added, in order. -/
def addAll (f : φ) (ks : List κ) : φ := ks.foldl add f

@[simp] theorem addAll_nil (f : φ) : addAll f ([] : List κ) = f := rfl

@[simp] theorem addAll_cons (f : φ) (k : κ) (ks : List κ) : addAll f (k :: ks) = addAll (add f k) ks := rfl

theorem addAll_append (f : φ) (ks ks' : List κ) : addAll f (ks ++ ks') = addAll (addAll f ks) ks' :=
  List.foldl_append

/-- What a filter contains stays contained when keys are added. -/
theorem contains_addAll_of_contains {f : φ} {k : κ} (h : contains f k = true) :
    ∀ ks : List κ, contains (addAll f ks) k = true
  | [] => h
  | k' :: ks => contains_addAll_of_contains (contains_add_of_contains f k' k h) ks

/-- Every added key is contained. -/
theorem contains_addAll_of_mem {k : κ} : ∀ {ks : List κ} (f : φ), k ∈ ks → contains (addAll f ks) k = true
  | k' :: ks, f, hk => by
    rcases List.mem_cons.mp hk with rfl | hk
    · exact contains_addAll_of_contains (contains_add_self f k) ks
    · exact contains_addAll_of_mem (add f k') hk

end MemFilter

/-- The exact filter: the set of the keys added. -/
instance {κ : Type} [DecidableEq κ] : MemFilter (Finset κ) κ where
  empty := ∅
  add f k := insert k f
  contains f k := decide (k ∈ f)
  contains_add_self f k := by simp
  contains_add_of_contains f k k' h := by simp_all
