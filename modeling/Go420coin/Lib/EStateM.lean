import Mathlib.Logic.Basic

/-!
# Functions that write through pointers and may fail

A Go function that updates state through pointers and returns an error keeps the writes it made
before the error: `EStateM ε σ α`, whose error results carry the state.  These lemmas run the
monad's operations on a state, so that `simp` evaluates a `do` block step by step.  A call whose
error the caller does not read is `discardError`: its writes stay, and the caller goes on.
-/

namespace EStateM

variable {ε σ α β : Type}

@[simp] theorem bind_apply (x : EStateM ε σ α) (f : α → EStateM ε σ β) (s : σ) :
    (x >>= f) s = match x s with
      | .ok a s' => f a s'
      | .error e s' => .error e s' := rfl

@[simp] theorem get_apply (s : σ) : (get : EStateM ε σ σ) s = .ok s s := rfl

@[simp] theorem set_apply (s s' : σ) : (set s' : EStateM ε σ PUnit) s = .ok ⟨⟩ s' := rfl

@[simp] theorem modify_apply (f : σ → σ) (s : σ) : (modify f : EStateM ε σ PUnit) s = .ok ⟨⟩ (f s) := rfl

@[simp] theorem throw_apply (e : ε) (s : σ) : (throw e : EStateM ε σ α) s = .error e s := rfl

@[simp] theorem pure_apply (a : α) (s : σ) : (pure a : EStateM ε σ α) s = .ok a s := rfl

@[simp] theorem forM_nil_apply (f : β → EStateM ε σ PUnit) (s : σ) :
    ([] : List β).forM f s = .ok ⟨⟩ s := rfl

@[simp] theorem forM_cons_apply (b : β) (l : List β) (f : β → EStateM ε σ PUnit) (s : σ) :
    (b :: l).forM f s = (f b >>= fun _ => l.forM f) s := by
  simp only [List.forM]

/-- The state a run ends in, whether it returned or failed. -/
def Result.state : Result ε σ α → σ
  | .ok _ s => s
  | .error _ s => s

@[simp] theorem Result.state_ok (a : α) (s : σ) : (Result.ok a s : Result ε σ α).state = s := rfl

@[simp] theorem Result.state_error (e : ε) (s : σ) : (Result.error e s : Result ε σ α).state = s := rfl

/-- `x`, with its result and its error dropped and its writes kept. -/
def discardError (x : EStateM ε σ α) : EStateM ε σ PUnit := fun s => .ok ⟨⟩ (x s).state

@[simp] theorem discardError_apply (x : EStateM ε σ α) (s : σ) :
    discardError x s = .ok ⟨⟩ (x s).state := rfl

/-- A loop of calls whose errors are dropped returns, and keeps every reflexive and transitive
relation that each call keeps. -/
theorem forM_discardError {R : σ → σ → Prop} (hrefl : ∀ s, R s s)
    (htrans : ∀ s₁ s₂ s₃, R s₁ s₂ → R s₂ s₃ → R s₁ s₃) {f : β → EStateM ε σ α}
    (hf : ∀ b s, R s (f b s).state) :
    ∀ (l : List β) (s : σ), ∃ s', l.forM (fun b => discardError (f b)) s = .ok ⟨⟩ s' ∧ R s s'
  | [], s => ⟨s, rfl, hrefl s⟩
  | b :: l, s => by
    obtain ⟨s', h, hr⟩ := forM_discardError hrefl htrans hf l (f b s).state
    exact ⟨s', by simpa using h, htrans _ _ _ (hf b s) hr⟩

end EStateM
