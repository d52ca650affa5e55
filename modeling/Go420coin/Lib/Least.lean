import Mathlib
import Go420coin.Lib.Search

/-!
# The least elements of a list by a key

`IsLeast key m S R` says that `R` lists, in increasing order of key, the `m` elements of `S` of least
key, or all of `S` when it has fewer.  This is what a list kept by bounded sorted insertion holds:
inserting a new element before the first greater key and cutting the list at `m` gives the least
elements of the grown list (`IsLeast.insert`), as long as the keys stay distinct.  The statement
does not depend on the order of `S` (`IsLeast.perm`).
-/

namespace Least

variable {α β : Type*} [LinearOrder β] (key : α → β)

/-- `R` is the list of the `m` elements of `S` of least key, in increasing order of key. -/
structure IsLeast (m : Nat) (S R : List α) : Prop where
  sorted : R.Pairwise (key · < key ·)
  mem : ∀ y ∈ R, y ∈ S
  length : R.length = min m S.length
  least : ∀ x ∈ S, x ∉ R → ∀ y ∈ R, key y < key x

variable {key}

theorem isLeast_nil (m : Nat) : IsLeast key m [] [] :=
  ⟨List.Pairwise.nil, fun _ h => h, by simp, fun _ h => absurd h List.not_mem_nil⟩

theorem IsLeast.perm {m : Nat} {S S' R : List α} (h : IsLeast key m S R) (hp : S.Perm S') :
    IsLeast key m S' R where
  sorted := h.sorted
  mem y hy := hp.subset (h.mem y hy)
  length := by rw [h.length, hp.length_eq]
  least x hx := h.least x (hp.symm.subset hx)

theorem IsLeast.nodup {m : Nat} {S R : List α} (h : IsLeast key m S R) : R.Nodup :=
  h.sorted.imp fun {_ _} hab heq => by
    subst heq
    exact lt_irrefl _ hab

/-- A list of least elements as long as the whole list holds all of it. -/
theorem IsLeast.mem_of_length {m : Nat} {S R : List α} (h : IsLeast key m S R)
    (hlen : S.length ≤ R.length) {x : α} (hx : x ∈ S) : x ∈ R :=
  ((List.subperm_of_subset h.nodup h.mem).perm_of_length_le hlen).symm.subset hx

section Insert

variable {m : Nat} {S R : List α} {x : α} {ix : Nat}

/-- The element inserted at `ix` is kept by the cut at `m` only if `ix` is below `m`. -/
private theorem lt_of_mem_take_insert (hxR : x ∉ R) (hix : ix ≤ R.length)
    (hx : x ∈ (R.take ix ++ x :: R.drop ix).take m) : ix < m := by
  by_contra hm
  rw [List.take_append_of_le_length (by simp; omega), List.take_take] at hx
  exact hxR (List.mem_of_mem_take hx)

/-- Inserting `x` between the keys below it and the keys above it, then cutting at `m`, gives the
least elements of `S` grown by `x`. -/
theorem IsLeast.insert (h : IsLeast key m S R) (hx : ∀ y ∈ S, key y ≠ key x)
    (hix : ix ≤ R.length) (hbelow : ∀ y ∈ R.take ix, key y < key x)
    (habove : ∀ y ∈ R.drop ix, key x < key y) :
    IsLeast key m (x :: S) ((R.insertIdx ix x).take m) := by
  have hxS : x ∉ S := fun hmem => hx x hmem rfl
  have hxR : x ∉ R := fun hmem => hxS (h.mem x hmem)
  have hsorted : (R.insertIdx ix x).Pairwise (key · < key ·) := Search.pairwise_insertIdx h.sorted hix hbelow habove
  rw [Search.insertIdx_eq_take_drop x hix] at hsorted ⊢
  set R' := R.take ix ++ x :: R.drop ix with hR'
  have hmemR' : ∀ y, y ∈ R' ↔ y = x ∨ y ∈ R := by
    intro y
    conv_rhs => rw [← List.take_append_drop ix R]
    simp only [hR', List.mem_append, List.mem_cons]
    tauto
  refine ⟨hsorted.sublist (List.take_sublist m R'), fun y hy => ?_, ?_, fun z hz hzR y hy => ?_⟩
  · rcases (hmemR' y).1 (List.mem_of_mem_take hy) with rfl | hy
    · exact List.mem_cons_self
    · exact List.mem_cons_of_mem _ (h.mem y hy)
  · have hlen : R'.length = R.length + 1 := by simp [hR']; omega
    rw [List.length_take, hlen, h.length, List.length_cons]
    omega
  · by_cases hzR' : z ∈ R'
    · -- `z` was cut off: everything kept comes before it
      have hzd : z ∈ R'.drop m := by
        rw [← List.take_append_drop m R', List.mem_append] at hzR'
        exact hzR'.resolve_left hzR
      rw [← List.take_append_drop m R', List.pairwise_append] at hsorted
      exact hsorted.2.2 y hy z hzd
    · -- `z` is an element of `S` that `R` left out
      have hzS : z ∈ S := (List.mem_cons.1 hz).resolve_left fun hzx => hzR' ((hmemR' z).2 (.inl hzx))
      have hzRnot : z ∉ R := fun hmem => hzR' ((hmemR' z).2 (.inr hmem))
      have hlt := h.least z hzS hzRnot
      rcases (hmemR' y).1 (List.mem_of_mem_take hy) with rfl | hyR
      · -- `y` is the new element: `R` is full, and its last key is above `y`'s and below `z`'s
        have hfull : R.length = m := by
          have := h.length
          have : ¬ S.length ≤ R.length := fun hle => hzRnot (h.mem_of_length hle hzS)
          omega
        have hixm := lt_of_mem_take_insert hxR hix hy
        have hm1 : m - 1 < R.length := by omega
        have hlast : R[m - 1] ∈ R.drop ix :=
          List.mem_drop_iff_getElem.2 ⟨m - 1 - ix, by omega, by congr 1; omega⟩
        exact lt_trans (habove _ hlast) (hlt _ (List.getElem_mem _))
      · exact hlt y hyR

end Insert

end Least
