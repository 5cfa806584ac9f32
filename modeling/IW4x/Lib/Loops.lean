import Mathlib.Data.List.Induction

/-!
# Loops that can fail

The rule of invariants for a loop over a list, of which every step may fail.
-/

namespace Loops

variable {σ α ε : Type*} {f : σ → α → Except ε σ}

/-- What holds before the loop, and is kept by every step, which does not fail, holds after it. It may
speak about the part of the list that the loop is through with. -/
theorem foldlM_ok {P : List α → σ → Prop} {s : σ} (start : P [] s)
    (keep : ∀ as a s, P as s → ∃ s', f s a = .ok s' ∧ P (as ++ [a]) s') (as : List α) :
    ∃ s', as.foldlM f s = .ok s' ∧ P as s' := by
  induction as using List.reverseRecOn with
  | nil => exact ⟨s, rfl, start⟩
  | append_singleton as a ih =>
    obtain ⟨s₁, hloop, hbefore⟩ := ih
    obtain ⟨s₂, hstep, hafter⟩ := keep as a s₁ hbefore
    refine ⟨s₂, ?_, hafter⟩
    rw [List.foldlM_append, hloop]
    change [a].foldlM f s₁ = .ok s₂
    rw [List.foldlM_cons, hstep]
    rfl

end Loops
