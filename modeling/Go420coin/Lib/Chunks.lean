import Mathlib

/-!
# Reading a queue in chunks

What a reader promises, whatever it keeps inside: it stands for the queue of the items it has not
returned yet, and a read into a buffer of `k` items returns the front `k` of them, or all that is
left, and says whether the end was reached.  A caller that reads with buffers of the given sizes gets
`reads u sizes`; together the reads return the front of the queue as long as the sizes add up to
(`flatten_reads`), and each read is the next slice (`reads_append_singleton`).
-/

namespace Chunks

variable {α : Type}

/-- The reads of a queue `u` with buffers of the given sizes: each returns the next items, as many as
fit, and reports the end once nothing is left after it. -/
def reads : List α → List Nat → List (List α × Bool)
  | _, [] => []
  | u, k :: ks => (u.take k, decide (u.length ≤ k)) :: reads (u.drop k) ks

theorem flatten_reads : ∀ (u : List α) (sizes : List Nat),
    ((reads u sizes).map Prod.fst).flatten = u.take sizes.sum
  | _, [] => by simp [reads]
  | u, k :: ks => by
    rw [reads, List.map_cons, List.flatten_cons, flatten_reads (u.drop k) ks, List.sum_cons,
      List.take_add]

/-- The read after those of `sizes`: the slice that follows them, and the end once they and it
cover the queue. -/
theorem reads_append_singleton : ∀ (u : List α) (sizes : List Nat) (k : Nat),
    reads u (sizes ++ [k]) =
      reads u sizes ++ [((u.drop sizes.sum).take k, decide (u.length ≤ sizes.sum + k))]
  | u, [], k => by simp [reads]
  | u, j :: js, k => by
    have hend : u.length - j ≤ js.sum + k ↔ u.length ≤ j + js.sum + k := by omega
    rw [List.cons_append, reads, reads, reads_append_singleton (u.drop j) js k, List.cons_append,
      List.drop_drop, List.length_drop, List.sum_cons]
    simp only [hend]

end Chunks
