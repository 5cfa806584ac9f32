import Mathlib.Tactic

/-!
# Components that answer calls, and what they may answer

A component takes a state and a call to an answer and the next state. A specification has states of its
own and says which answers and next states it allows. A component refines a specification if states of
the two can be related so that every answer is one that the specification allows.
-/

namespace Refinements

variable {σ τ ι α : Type*}

def answers (step : σ → ι → α × σ) : σ → List ι → List α × σ
  | s, [] => ([], s)
  | s, i :: is =>
    let first := step s i
    let rest := answers step first.2 is
    (first.1 :: rest.1, rest.2)

theorem answers_map {step : σ → ι → α × σ} {step' : τ → ι → α × τ} (f : σ → τ)
    (h : ∀ s i, step' (f s) i = ((step s i).1, f (step s i).2)) (is : List ι) (s : σ) :
    answers step' (f s) is = ((answers step s is).1, f (answers step s is).2) := by
  induction is generalizing s with
  | nil => rfl
  | cons i is ih =>
    simp only [answers, h, ih]

inductive Allows (spec : τ → ι → α → τ → Prop) : τ → List ι → List α → τ → Prop
  | nil {a : τ} : Allows spec a [] [] a
  | cons {a b c : τ} {i : ι} {r : α} {is : List ι} {rs : List α} :
      spec a i r b → Allows spec b is rs c → Allows spec a (i :: is) (r :: rs) c

/-- Related states stay related, and what is answered is allowed. -/
def Simulates (step : σ → ι → α × σ) (spec : τ → ι → α → τ → Prop) (R : σ → τ → Prop) : Prop :=
  ∀ s a i, R s a → ∃ b, spec a i (step s i).1 b ∧ R (step s i).2 b

theorem Simulates.run {step : σ → ι → α × σ} {spec : τ → ι → α → τ → Prop} {R : σ → τ → Prop}
    (h : Simulates step spec R) (is : List ι) {s : σ} {a : τ} (hs : R s a) :
    ∃ b, Allows spec a is (answers step s is).1 b ∧ R (answers step s is).2 b := by
  induction is generalizing s a with
  | nil => exact ⟨a, .nil, hs⟩
  | cons i is ih =>
    obtain ⟨b, hspec, hb⟩ := h s a i hs
    obtain ⟨c, hrest, hc⟩ := ih hb
    exact ⟨c, .cons hspec hrest, hc⟩

theorem simulates_of_map {step : σ → ι → α × σ} {spec : τ → ι → α → τ → Prop} (f : σ → τ)
    (h : ∀ s i, spec (f s) i (step s i).1 (f (step s i).2)) :
    Simulates step spec fun s a => f s = a := by
  rintro s - i rfl
  exact ⟨f (step s i).2, h s i, rfl⟩

end Refinements
