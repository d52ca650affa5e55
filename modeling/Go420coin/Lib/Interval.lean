import Mathlib.Data.List.Basic

/-!
# Intervals of numbers, cut into blocks

A loop `for i := first; i <= last; i++` visits `List.range' first (last + 1 - first)`.  The numbers
of `[lo, lo + n)` inside `[b, e]` are an interval again (`filter_range'_between`); consecutive blocks
of `z` numbers make up one interval (`flatMap_range'_blocks`); so the blocks from the one of `b` to
the one of `e`, each clamped to `[b, e]`, give back `[b, e]` (`flatMap_clamp`).  A loop that jumps
over numbers known to fail its test keeps the numbers that pass it (`filter_range'_skip`).
-/

namespace Interval

theorem filter_range'_between (b e : Nat) : ∀ (lo n : Nat),
    (List.range' lo n).filter (fun i => decide (b ≤ i) && decide (i ≤ e)) =
      List.range' (max b lo) (min (e + 1) (lo + n) - max b lo)
  | lo, 0 => by
    rw [List.range'_zero, List.filter_nil, show min (e + 1) (lo + 0) - max b lo = 0 by omega, List.range'_zero]
  | lo, n + 1 => by
    rw [List.range'_succ, List.filter_cons, filter_range'_between b e (lo + 1) n]
    by_cases hin : b ≤ lo ∧ lo ≤ e
    · rw [if_pos (by simp [hin.1, hin.2])]
      -- `lo` opens the interval on both sides
      have hlen : min (e + 1) (lo + (n + 1)) - max b lo = (min (e + 1) (lo + 1 + n) - max b (lo + 1)) + 1 := by
        omega
      rw [hlen, List.range'_succ, show max b lo = lo by omega, show max b (lo + 1) = lo + 1 by omega]
    · rw [if_neg (by simpa [Decidable.not_and_iff_not_or_not] using hin)]
      by_cases hb : b ≤ lo
      · -- past `e`: both sides are empty
        rw [show min (e + 1) (lo + 1 + n) - max b (lo + 1) = 0 by omega,
          show min (e + 1) (lo + (n + 1)) - max b lo = 0 by omega, List.range'_zero, List.range'_zero]
      · rw [show max b (lo + 1) = max b lo by omega, show lo + 1 + n = lo + (n + 1) by omega]

theorem flatMap_range'_blocks (z s0 : Nat) : ∀ k,
    (List.range' s0 k).flatMap (fun s => List.range' (s * z) z) = List.range' (s0 * z) (k * z)
  | 0 => by rw [List.range'_zero, List.flatMap_nil, Nat.zero_mul, List.range'_zero]
  | k + 1 => by
    rw [List.range'_concat, List.flatMap_append, flatMap_range'_blocks z s0 k, List.flatMap_singleton,
      Nat.one_mul, Nat.add_mul s0 k z, List.range'_append_1, Nat.add_mul k 1 z, Nat.one_mul]

/-- The blocks of `z` numbers from the one of `b` to the one of `e`, each clamped to `[b, e]`, make
up `[b, e]`. -/
theorem flatMap_clamp {z : Nat} (hz : 0 < z) (b e : Nat) :
    (List.range' (b / z) (e / z + 1 - b / z)).flatMap
        (fun s => List.range' (max b (s * z)) (min e (s * z + z - 1) + 1 - max b (s * z))) =
      List.range' b (e + 1 - b) := by
  have hblock : (fun s => List.range' (max b (s * z)) (min e (s * z + z - 1) + 1 - max b (s * z))) =
      fun s => (List.range' (s * z) z).filter (fun i => decide (b ≤ i) && decide (i ≤ e)) := by
    funext s
    rw [filter_range'_between, show min e (s * z + z - 1) + 1 = min (e + 1) (s * z + z) by omega]
  rw [hblock, ← List.filter_flatMap, flatMap_range'_blocks, filter_range'_between]
  -- the first block starts at or before `b`, and the last one ends after `e`
  have hb : b / z * z ≤ b := Nat.div_mul_le_self b z
  have he : e < e / z * z + z := Nat.lt_div_mul_add hz
  have hlen : b / z * z + (e / z + 1 - b / z) * z = if b / z ≤ e / z then e / z * z + z else b / z * z := by
    split_ifs with hbe
    · rw [Nat.sub_mul, Nat.add_mul, Nat.one_mul]
      have := Nat.mul_le_mul_right z hbe
      omega
    · rw [show e / z + 1 - b / z = 0 by omega, Nat.zero_mul, Nat.add_zero]
  have hbe : e / z < b / z → e < b := fun h => by
    by_contra hn
    exact absurd (Nat.div_le_div_right (c := z) (Nat.not_lt.1 hn)) (Nat.not_le.2 h)
  rw [hlen, show max b (b / z * z) = b by omega]
  split_ifs with h
  · rw [show min (e + 1) (e / z * z + z) = e + 1 by omega]
  · have := hbe (by omega)
    rw [show min (e + 1) (b / z * z) - b = e + 1 - b by omega]

/-- Numbers known to fail the test can be jumped over. -/
theorem filter_range'_skip {p : Nat → Bool} {i m : Nat} (h : ∀ k, i ≤ k → k < i + m → p k = false) (n : Nat) :
    (List.range' i n).filter p = (List.range' (i + m) (n - m)).filter p := by
  have hnil : ∀ r, r ≤ m → (List.range' i r).filter p = [] := fun r hr =>
    List.filter_eq_nil_iff.2 fun k hk => by
      rw [List.mem_range'_1] at hk
      rw [h k hk.1 (by omega)]
      decide
  by_cases hmn : m ≤ n
  · rw [← Nat.add_sub_cancel' hmn, ← List.range'_append_1, List.filter_append, hnil m (Nat.le_refl m),
      List.nil_append, Nat.add_sub_cancel_left]
  · rw [hnil n (by omega), show n - m = 0 by omega, List.range'_zero, List.filter_nil]

end Interval
