import Mathlib.Logic.Function.Basic
import Mathlib.Data.List.Basic

/-!
# Stores and runs of writes

A store maps keys to values, and a write replaces the value at one key (`Function.update`).  After a
run of writes each key holds what the last write to it put there, or what it held before the run if
no write touched it (`applyWrites_apply`).
-/

namespace Store

variable {α κ β : Type*} [DecidableEq κ]

/-- The store after a run of writes; write `w` puts `val w` at `key w`. -/
def applyWrites (key : α → κ) (val : α → β) (m : κ → β) (ws : List α) : κ → β :=
  ws.foldl (fun m w => Function.update m (key w) (val w)) m

variable (key : α → κ) (val : α → β)

@[simp] theorem applyWrites_nil (m : κ → β) : applyWrites key val m [] = m := rfl

@[simp] theorem applyWrites_cons (m : κ → β) (w : α) (ws : List α) :
    applyWrites key val m (w :: ws) = applyWrites key val (Function.update m (key w) (val w)) ws := rfl

/-- The last write to a key decides its value. -/
theorem applyWrites_apply (m : κ → β) (ws : List α) (k : κ) :
    applyWrites key val m ws k = (((ws.filter fun w => key w = k).getLast?).map val).getD (m k) := by
  induction ws generalizing m with
  | nil => rfl
  | cons w ws ih =>
    rw [applyWrites_cons, ih, List.filter_cons]
    by_cases hw : key w = k
    · -- `w` writes `k`: it decides unless a later write does
      subst hw
      cases hl : (ws.filter fun w' => key w' = key w).getLast? with
      | none => simp [List.getLast?_cons, hl]
      | some w' => simp [List.getLast?_cons, hl]
    · simp [hw, Function.update_of_ne (Ne.symm hw)]

/-- Runs whose writes agree write by write give the same store. -/
theorem applyWrites_congr {key' : α → κ} {val' : α → β} {ws : List α}
    (h : ∀ w ∈ ws, key w = key' w ∧ val w = val' w) (m : κ → β) :
    applyWrites key val m ws = applyWrites key' val' m ws := by
  induction ws generalizing m with
  | nil => rfl
  | cons w ws ih =>
    obtain ⟨hk, hv⟩ := h w (by simp)
    rw [applyWrites_cons, applyWrites_cons, hk, hv]
    exact ih (fun w' hw' => h w' (by simp [hw'])) _

theorem applyWrites_map {γ : Type*} (f : γ → α) (m : κ → β) (ws : List γ) :
    applyWrites key val m (ws.map f) = applyWrites (key ∘ f) (val ∘ f) m ws := by
  induction ws generalizing m with
  | nil => rfl
  | cons w ws ih => exact ih _

end Store
