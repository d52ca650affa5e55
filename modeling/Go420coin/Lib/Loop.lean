import Mathlib.Data.List.Basic

/-!
# Loops over a list with an invariant

A Go `for ... range` loop that updates a state is a `foldl`, or a `foldlM` in `Option` when a step
can panic.  The invariant is indexed by the elements still to come, so that it can say what holds of
an element once it has been visited: a step with `a :: l` ahead keeps it with `l` ahead
(`foldl_inv`), and in `Option` a step that keeps it also succeeds, so the whole loop succeeds
(`foldlM_some`); of a loop that succeeds, the invariant holds at its end (`foldlM_inv`).  A loop
whose steps each or a term into an observation of the state leaves the observation or-ed with all
the terms (`foldl_or_any`).
-/

namespace Loop

variable {α β : Type}

theorem foldl_inv {f : β → α → β} (I : List α → β → Prop) (step : ∀ a l b, I (a :: l) b → I l (f b a)) :
    ∀ {l : List α} {b : β}, I l b → I [] (l.foldl f b)
  | [], _, hb => hb
  | a :: l, b, hb => (foldl_inv I step (step a l b hb) : I [] (l.foldl f (f b a)))

theorem foldlM_some {f : β → α → Option β} (I : List α → β → Prop)
    (step : ∀ a l b, I (a :: l) b → ∃ b', f b a = some b' ∧ I l b') :
    ∀ {l : List α} {b : β}, I l b → ∃ r, l.foldlM f b = some r ∧ I [] r
  | [], b, hb => ⟨b, rfl, hb⟩
  | a :: _, _, hb => by
    obtain ⟨b', h₁, h₂⟩ := step _ _ _ hb
    obtain ⟨r, hr, hI⟩ := foldlM_some I step h₂
    exact ⟨r, by rw [List.foldlM_cons, h₁, Option.bind_eq_bind, Option.bind_some, hr], hI⟩

/-- An invariant of a `foldlM` run in `Option` that succeeds, indexed by the elements still to come. -/
theorem foldlM_inv {f : β → α → Option β} (I : List α → β → Prop)
    (step : ∀ a l b b', I (a :: l) b → f b a = some b' → I l b') :
    ∀ {l : List α} {b r : β}, I l b → l.foldlM f b = some r → I [] r
  | [], _, _, hb, h => by cases h; exact hb
  | a :: _, b, _, hb, h => by
    rw [List.foldlM_cons, Option.bind_eq_bind, Option.bind_eq_some_iff] at h
    obtain ⟨b', h₁, h₂⟩ := h
    exact foldlM_inv I step (step a _ b b' hb h₁) h₂

theorem foldl_preserves {f : β → α → β} (inv : β → Prop) :
    ∀ (l : List α), (∀ b, ∀ a ∈ l, inv b → inv (f b a)) → ∀ {b : β}, inv b → inv (l.foldl f b)
  | [], _, _, hb => hb
  | a :: l, hinv, b, hb =>
    foldl_preserves inv l (fun b' a' ha' => hinv b' a' (List.mem_cons_of_mem a ha')) (hinv b a List.mem_cons_self hb)

theorem foldl_or_any {f : β → α → β} (inv : β → Prop) (obs : β → Bool) (q : α → Bool) :
    ∀ (l : List α), (∀ b, ∀ a ∈ l, inv b → inv (f b a)) → (∀ b, ∀ a ∈ l, inv b → obs (f b a) = (obs b || q a)) →
      ∀ {b : β}, inv b → obs (l.foldl f b) = (obs b || l.any q)
  | [], _, _, _, _ => by rw [List.foldl_nil, List.any_nil, Bool.or_false]
  | a :: l, hinv, hobs, b, hb => by
    rw [List.foldl_cons,
      foldl_or_any inv obs q l (fun b' a' ha' => hinv b' a' (List.mem_cons_of_mem a ha'))
        (fun b' a' ha' => hobs b' a' (List.mem_cons_of_mem a ha')) (hinv b a List.mem_cons_self hb),
      hobs b a List.mem_cons_self hb, List.any_cons, Bool.or_assoc]

end Loop
