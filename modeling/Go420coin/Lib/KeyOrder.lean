import Mathlib.Data.List.Basic

/-!
# Keys that part in order

Two keys *part* where they first differ.  `Parts p q` says that they do and that `p` has the
smaller element there: `p` sorts before `q` and neither is a prefix of the other.  A run of keys
sorted in increasing order of which none is a prefix of another is a run in which every key parts
below each later one (`parts_of_lt`); a tree built by adding keys on its right-hand side rests on
nothing more.
-/

namespace KeyOrder

variable {α β : Type*}

/-- `p` and `q` agree up to `t` and then part, `p` with the smaller element. -/
def Parts [LT α] (p q : List α) : Prop :=
  ∃ t a b r s, p = t ++ a :: r ∧ q = t ++ b :: s ∧ a < b

section LT

variable [LT α] {p q : List α}

theorem parts_cons_cons {a b : α} : Parts (a :: p) (b :: q) ↔ a < b ∨ (a = b ∧ Parts p q) := by
  constructor
  · rintro ⟨t, a', b', r, s, hp, hq, hab⟩
    cases t with
    | nil =>
      simp only [List.nil_append, List.cons.injEq] at hp hq
      obtain ⟨rfl, -⟩ := hp
      obtain ⟨rfl, -⟩ := hq
      exact .inl hab
    | cons c t =>
      simp only [List.cons_append, List.cons.injEq] at hp hq
      obtain ⟨rfl, rfl⟩ := hp
      obtain ⟨rfl, rfl⟩ := hq
      exact .inr ⟨rfl, t, a', b', r, s, rfl, rfl, hab⟩
  · rintro (hab | ⟨rfl, t, a', b', r, s, rfl, rfl, hab⟩)
    · exact ⟨[], a, b, p, q, rfl, rfl, hab⟩
    · exact ⟨a :: t, a', b', r, s, rfl, rfl, hab⟩

theorem not_parts_nil_right : ¬ Parts p [] := by
  rintro ⟨t, a, b, r, s, -, hq, -⟩
  simp at hq

theorem Parts.ne_nil_right (h : Parts p q) : q ≠ [] := by
  rintro rfl
  exact not_parts_nil_right h

/-- Whatever follows two parted keys, they stay parted. -/
theorem Parts.append (h : Parts p q) (x y : List α) : Parts (p ++ x) (q ++ y) := by
  obtain ⟨t, a, b, r, s, rfl, rfl, hab⟩ := h
  exact ⟨t, a, b, r ++ x, s ++ y, by simp, by simp, hab⟩

theorem Parts.append_left (h : Parts p q) (x : List α) : Parts (p ++ x) q := by
  simpa using h.append x []

/-- Keys that part through `f` part when `f` is applied to each element. -/
theorem Parts.flatMap {f : α → List β} [LT β] (hf : ∀ a b, a < b → Parts (f a) (f b)) (h : Parts p q) :
    Parts (p.flatMap f) (q.flatMap f) := by
  obtain ⟨t, a, b, r, s, rfl, rfl, hab⟩ := h
  obtain ⟨t', a', b', r', s', ha, hb, hab'⟩ := hf a b hab
  refine ⟨t.flatMap f ++ t', a', b', r' ++ r.flatMap f, s' ++ s.flatMap f, ?_, ?_, hab'⟩
  · simp [ha]
  · simp [hb]

/-- A key that parts below `q` after a beginning `k` either has `k` as a beginning of `q`, or
already parts below `q` inside `k`. -/
theorem Parts.prefix_or_parts {k : List α} (h : Parts (k ++ p) q) : k <+: q ∨ Parts k q := by
  induction k generalizing q with
  | nil => exact .inl (List.nil_prefix)
  | cons c k ih =>
    obtain ⟨b, q, rfl⟩ := List.exists_cons_of_ne_nil h.ne_nil_right
    rcases parts_cons_cons.1 h with hcb | ⟨rfl, hrest⟩
    · exact .inr (parts_cons_cons.2 (.inl hcb))
    · rcases ih hrest with hk | hk
      · exact .inl ((List.prefix_cons_inj c).2 hk)
      · exact .inr (parts_cons_cons.2 (.inr ⟨rfl, hk⟩))

/-- A key that parts below another is below it in lexicographic order. -/
theorem Parts.lt (h : Parts p q) : p < q := by
  obtain ⟨t, a, b, r, s, rfl, rfl, hab⟩ := h
  induction t with
  | nil => exact List.Lex.rel hab
  | cons c t ih => exact List.Lex.cons ih

end LT

section Irrefl

variable [LT α] [Std.Irrefl (α := α) (· < ·)] {p q : List α}

@[simp] theorem parts_append_left_iff (t : List α) : Parts (t ++ p) (t ++ q) ↔ Parts p q := by
  induction t with
  | nil => rfl
  | cons c t ih =>
    simp only [List.cons_append, parts_cons_cons, true_and, ih, or_iff_right_iff_imp]
    exact fun h => absurd h (Std.Irrefl.irrefl c)

/-- Where two keys that part agree up to `t` and then differ, the first has the smaller element. -/
theorem Parts.lt_of_ne {t r s : List α} {a b : α} (h : Parts (t ++ a :: r) (t ++ b :: s)) (hab : a ≠ b) :
    a < b := by
  rw [parts_append_left_iff, parts_cons_cons] at h
  rcases h with h | ⟨h, -⟩
  · exact h
  · exact absurd h hab

/-- A key that parts below another is no extension of it. -/
theorem Parts.not_prefix_right (h : Parts p q) : ¬ q <+: p := by
  obtain ⟨t, a, b, r, s, rfl, rfl, hab⟩ := h
  rw [List.prefix_append_right_inj, List.cons_prefix_cons]
  rintro ⟨rfl, -⟩
  exact Std.Irrefl.irrefl b hab

/-- A key that parts below another is no prefix of it. -/
theorem Parts.not_prefix_left (h : Parts p q) : ¬ p <+: q := by
  obtain ⟨t, a, b, r, s, rfl, rfl, hab⟩ := h
  rw [List.prefix_append_right_inj, List.cons_prefix_cons]
  rintro ⟨rfl, -⟩
  exact Std.Irrefl.irrefl a hab

end Irrefl

/-- In lexicographic order, a key below another that is no prefix of it parts below it. -/
theorem parts_of_lt [LT α] {p q : List α} (hlt : p < q) (hp : ¬ p <+: q) : Parts p q := by
  induction p generalizing q with
  | nil => exact absurd List.nil_prefix hp
  | cons a p ih =>
    cases q with
    | nil => exact absurd hlt (List.not_lt_nil _)
    | cons b q =>
      rcases List.cons_lt_cons_iff.1 hlt with hab | ⟨rfl, hpq⟩
      · exact parts_cons_cons.2 (.inl hab)
      · exact parts_cons_cons.2 (.inr ⟨rfl, ih hpq fun h => hp ((List.prefix_cons_inj a).2 h)⟩)

end KeyOrder
