import Mathlib.Data.List.Basic

/-!
# Runs in the `Except` monad

What proofs about code written with `do` in `Except` use: a bind on a success goes on with the
value and a bind on an error stops (`ok_bind`, `error_bind`, with `throw` an error), a bind that
succeeds had a succeeding first step (`bind_eq_ok`), `mapM` over steps that all succeed succeeds
with their results (`mapM_eq_ok`), and an invariant kept by every step of a `foldlM` holds at its
end (`foldlM_inv`).
-/

namespace Except

universe u v

variable {ε : Type u} {α β : Type v}

@[simp] theorem ok_bind (a : α) (f : α → Except ε β) : (Except.ok a >>= f) = f a := rfl

@[simp] theorem error_bind (e : ε) (f : α → Except ε β) : (Except.error e >>= f) = Except.error e := rfl

@[simp] theorem pure_eq_ok (a : α) : (pure a : Except ε α) = .ok a := rfl

@[simp] theorem throw_eq_error (e : ε) : (throw e : Except ε α) = .error e := rfl

theorem bind_eq_ok {x : Except ε α} {f : α → Except ε β} {b : β} :
    (x >>= f) = .ok b ↔ ∃ a, x = .ok a ∧ f a = .ok b := by
  cases x with
  | error e => simp
  | ok a => simp

/-- `mapM` over steps that all succeed. -/
theorem mapM_eq_ok {l : List α} {f : α → Except ε β} {g : α → β} (h : ∀ a ∈ l, f a = .ok (g a)) :
    l.mapM f = .ok (l.map g) := by
  induction l with
  | nil => rfl
  | cons a l ih =>
    rw [List.mapM_cons, h a (by simp), ih fun x hx => h x (by simp [hx])]
    rfl

/-- An invariant of a `foldlM` run, indexed by the elements still to come: what holds before a
step with `a :: l` ahead holds after it with `l` ahead, so it holds at the end. -/
theorem foldlM_inv {f : β → α → Except ε β} (I : List α → β → Prop)
    (step : ∀ a l b b', I (a :: l) b → f b a = .ok b' → I l b') :
    ∀ {l : List α} {b r : β}, I l b → l.foldlM f b = .ok r → I [] r
  | [], _, _, hb, h => by cases h; exact hb
  | a :: l, b, _, hb, h => by
    rw [List.foldlM_cons, bind_eq_ok] at h
    obtain ⟨b', h₁, h₂⟩ := h
    exact foldlM_inv I step (step a l b b' hb h₁) h₂

end Except
