import Mathlib.Logic.Function.Basic
import Mathlib.Data.List.Basic

/-!
# Maps keyed by lists

A trie stores a map from lists to values by sharing the common beginnings of its keys.  Two
operations on maps build the map of every node of such a trie:

* `under p m` is `m` with `p` put in front of every key (a path-compressed edge);
* `branch f` sends `a :: q` to `f a q` and the empty key to nothing (a fan-out on the first
  element).

The lemmas below say how `Function.update` moves through both, which keys each can hold, and when
two maps built by them are equal.
-/

namespace ListMap

variable {α β : Type*}

/-- The map whose keys starting with `a` are the keys of `f a`. -/
def branch (f : α → List α → Option β) : List α → Option β
  | [] => none
  | a :: q => f a q

/-- The map holding one value, at the empty key. -/
def single (b : β) : List α → Option β
  | [] => some b
  | _ :: _ => none

/-- The map holds at least two keys that differ in their first element. -/
def Forks (m : List α → Option β) : Prop :=
  ∃ q₁ q₂, m q₁ ≠ none ∧ m q₂ ≠ none ∧ q₁.head? ≠ q₂.head?

@[simp] theorem branch_nil (f : α → List α → Option β) : branch f [] = none := rfl

@[simp] theorem branch_cons (f : α → List α → Option β) (a : α) (q : List α) :
    branch f (a :: q) = f a q := rfl

theorem branch_injective : Function.Injective (branch : (α → List α → Option β) → _) := by
  intro f g h
  funext a q
  simpa using congrFun h (a :: q)

@[simp] theorem single_nil (b : β) : single b ([] : List α) = some b := rfl

@[simp] theorem single_cons (b : β) (a : α) (q : List α) : single b (a :: q) = none := rfl

theorem forks_branch {f : α → List α → Option β} {a b : α} (hab : a ≠ b) {q₁ q₂ : List α}
    (h₁ : f a q₁ ≠ none) (h₂ : f b q₂ ≠ none) : Forks (branch f) :=
  ⟨a :: q₁, b :: q₂, h₁, h₂, by simpa using hab⟩

variable [DecidableEq α]

/-- `m` with `p` in front of every key. -/
def under (p : List α) (m : List α → Option β) : List α → Option β :=
  fun q => if p <+: q then m (q.drop p.length) else none

/-! ### `under` -/

section Under

variable {p s q : List α} {m m' : List α → Option β}

@[simp] theorem under_nil (m : List α → Option β) : under [] m = m := by
  funext q
  simp [under]

@[simp] theorem under_apply_append (p q : List α) (m : List α → Option β) :
    under p m (p ++ q) = m q := by
  simp [under]

@[simp] theorem under_apply_self (p : List α) (m : List α → Option β) : under p m p = m [] := by
  simpa using under_apply_append p [] m

theorem under_apply_eq_none (h : ¬ p <+: q) : under p m q = none := by
  simp [under, h]

theorem prefix_of_under_ne_none (h : under p m q ≠ none) : p <+: q := by
  by_contra hp
  exact h (under_apply_eq_none hp)

theorem under_append (p s : List α) (m : List α → Option β) :
    under (p ++ s) m = under p (under s m) := by
  funext q
  by_cases hp : p <+: q
  · obtain ⟨r, rfl⟩ := hp
    simp [under, List.prefix_append_right_inj]
  · have hps : ¬ p ++ s <+: q := fun h => hp ((List.prefix_append p s).trans h)
    rw [under_apply_eq_none hp, under_apply_eq_none hps]

theorem update_under (p q : List α) (m : List α → Option β) (x : Option β) :
    Function.update (under p m) (p ++ q) x = under p (Function.update m q x) := by
  funext r
  by_cases hp : p <+: r
  · obtain ⟨t, rfl⟩ := hp
    simp [Function.update_apply]
  · have hne : r ≠ p ++ q := fun h => hp (h ▸ List.prefix_append p q)
    rw [Function.update_of_ne hne, under_apply_eq_none hp, under_apply_eq_none hp]

theorem update_under_self (p : List α) (m : List α → Option β) (x : Option β) :
    Function.update (under p m) p x = under p (Function.update m [] x) := by
  simpa using update_under p [] m x

/-- Updating a key that does not start with `p` changes nothing under `p`, if the new entry is
empty. -/
theorem update_under_none (h : ¬ p <+: q) (m : List α → Option β) :
    Function.update (under p m) q none = under p m := by
  funext r
  by_cases hr : r = q
  · subst hr
    rw [Function.update_self, under_apply_eq_none h]
  · exact Function.update_of_ne hr _ _

theorem under_injective (p : List α) : Function.Injective (under p : (List α → Option β) → _) := by
  intro m m' h
  funext q
  simpa using congrFun h (p ++ q)

end Under

/-! ### `branch` and `single` -/

section Branch

theorem update_branch (f : α → List α → Option β) (a : α) (q : List α) (x : Option β) :
    Function.update (branch f) (a :: q) x = branch (Function.update f a (Function.update (f a) q x)) := by
  funext r
  cases r with
  | nil => simp
  | cons b r =>
    by_cases hb : b = a
    · subst hb
      simp [Function.update_apply]
    · simp [hb]

/-- `under (a :: p)` is a branch with one live child. -/
theorem under_cons (a : α) (p : List α) (m : List α → Option β) :
    under (a :: p) m = branch (Function.update (fun _ _ => none) a (under p m)) := by
  funext q
  cases q with
  | nil => simp [under]
  | cons b q =>
    by_cases hb : b = a
    · subst hb
      simp [under]
    · simp [under, hb, Ne.symm hb]

theorem update_single (b c : β) : Function.update (single b : List α → Option β) [] (some c) = single c := by
  funext q
  cases q <;> simp [single]

/-- A value put at `p` in an empty map. -/
theorem under_single (p : List α) (b : β) :
    under p (single b) = Function.update (fun _ => none) p (some b) := by
  funext q
  by_cases hq : q = p
  · subst hq
    rw [under_apply_self, Function.update_self, single_nil]
  · rw [Function.update_of_ne hq]
    by_cases hp : p <+: q
    · obtain ⟨t, rfl⟩ := hp
      have ht : t ≠ [] := by rintro rfl; simp at hq
      obtain ⟨a, t, rfl⟩ := List.exists_cons_of_ne_nil ht
      simp [single_cons]
    · exact under_apply_eq_none hp

end Branch

/-! ### Keys that fork -/

section Forks

variable {p p' : List α} {m m' : List α → Option β}

/-- Below a non-empty edge every key starts alike. -/
theorem not_forks_under (hp : p ≠ []) : ¬ Forks (under p m) := by
  rintro ⟨q₁, q₂, h₁, h₂, hne⟩
  obtain ⟨a, p, rfl⟩ := List.exists_cons_of_ne_nil hp
  obtain ⟨t₁, rfl⟩ := prefix_of_under_ne_none h₁
  obtain ⟨t₂, rfl⟩ := prefix_of_under_ne_none h₂
  simp at hne

theorem Forks.of_update_ne_none {q : List α} {x : Option β} (h : Forks m) (hx : x ≠ none) :
    Forks (Function.update m q x) := by
  obtain ⟨q₁, q₂, h₁, h₂, hne⟩ := h
  refine ⟨q₁, q₂, ?_, ?_, hne⟩
  · by_cases h : q₁ = q <;> simp [h, h₁, hx]
  · by_cases h : q₂ = q <;> simp [h, h₂, hx]

/-- A map that forks still has a key after one key is removed. -/
theorem Forks.exists_update_none {q : List α} (h : Forks m) :
    ∃ r, Function.update m q none r ≠ none := by
  obtain ⟨q₁, q₂, h₁, h₂, hne⟩ := h
  by_cases h₁q : q₁ = q
  · subst h₁q
    have : q₂ ≠ q₁ := fun h => hne (by rw [h])
    exact ⟨q₂, by simpa [Function.update_apply, this] using h₂⟩
  · exact ⟨q₁, by simpa [Function.update_apply, h₁q] using h₁⟩

/-- Two edges over forking maps that give the same map are the same edge: each edge is the longest
beginning that all keys share. -/
theorem eq_of_under_eq (hm : Forks m) (hm' : Forks m') (h : under p m = under p' m') : p = p' := by
  obtain ⟨q₁, q₂, h₁, h₂, hne⟩ := hm
  have h₁' : under p' m' (p ++ q₁) ≠ none := by rw [← h]; simpa using h₁
  have h₂' : under p' m' (p ++ q₂) ≠ none := by rw [← h]; simpa using h₂
  have hp₁ := prefix_of_under_ne_none h₁'
  have hp₂ := prefix_of_under_ne_none h₂'
  rcases List.prefix_or_prefix_of_prefix hp₁ (List.prefix_append p q₁) with hpp | hpp
  · -- `p'` is a proper beginning of `p`: then `p'` forks inside `p`, where `m` cannot
    obtain ⟨t, rfl⟩ := hpp
    obtain ⟨r₁, r₂, g₁, g₂, hne'⟩ := hm'
    rcases t with _ | ⟨a, t⟩
    · simp
    · exfalso
      have e₁ : under (p' ++ a :: t) m (p' ++ r₁) ≠ none := by rw [h]; simpa using g₁
      have e₂ : under (p' ++ a :: t) m (p' ++ r₂) ≠ none := by rw [h]; simpa using g₂
      obtain ⟨u₁, hu₁⟩ := prefix_of_under_ne_none e₁
      obtain ⟨u₂, hu₂⟩ := prefix_of_under_ne_none e₂
      simp only [List.append_assoc, List.cons_append, List.append_cancel_left_eq] at hu₁ hu₂
      exact hne' (by rw [← hu₁, ← hu₂]; rfl)
  · -- `p` is a beginning of `p'`: if a proper one, the two keys of `m` would start alike
    obtain ⟨t, rfl⟩ := hpp
    rcases t with _ | ⟨a, t⟩
    · simp
    · exfalso
      obtain ⟨u₁, hu₁⟩ := hp₁
      obtain ⟨u₂, hu₂⟩ := hp₂
      simp only [List.append_assoc, List.cons_append, List.append_cancel_left_eq] at hu₁ hu₂
      exact hne (by rw [← hu₁, ← hu₂]; rfl)

/-- A value put at one key holds no other key. -/
theorem eq_of_under_single_ne_none {b : β} {q : List α} (h : under p (single b) q ≠ none) : q = p := by
  obtain ⟨t, rfl⟩ := prefix_of_under_ne_none h
  cases t with
  | nil => simp
  | cons a t => simp at h

/-- A map with an edge over a forking map holds more than one key. -/
theorem under_ne_under_single (hm : Forks m) (b : β) : under p' m ≠ under p (single b) := by
  intro h
  obtain ⟨q₁, q₂, h₁, h₂, hne⟩ := hm
  have e₁ : p' ++ q₁ = p := eq_of_under_single_ne_none (by rw [← h]; simpa using h₁)
  have e₂ : p' ++ q₂ = p := eq_of_under_single_ne_none (by rw [← h]; simpa using h₂)
  rw [← e₂, List.append_cancel_left_eq] at e₁
  exact hne (by rw [e₁])

end Forks

end ListMap
