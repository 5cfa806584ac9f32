import Mathlib.Tactic

/-!
# Variables that are initialised once

A call answers the value of the variable, if it has one. If it has none, the call makes an attempt,
which may change the world and may fail. An attempt that fails leaves the variable without a value, so
that the next call makes another one; the first that succeeds decides for all calls after it.
-/

namespace Once

/-- The variable, and the world that attempts change. -/
structure Cell (σ α : Type*) where
  value : Option α
  world : σ

variable {σ ι ε α : Type*} {attempt : ι → σ → Except ε α × σ} {s : Cell σ α} {i : ι} {a : α}

def call (attempt : ι → σ → Except ε α × σ) (s : Cell σ α) (i : ι) : Except ε α × Cell σ α :=
  match s.value with
  | some a => (.ok a, s)
  | none =>
    match attempt i s.world with
    | (.ok a, w) => (.ok a, ⟨some a, w⟩)
    | (.error e, w) => (.error e, ⟨none, w⟩)

theorem call_cases {r : Except ε α} {t : Cell σ α} (h : call attempt s i = (r, t)) :
    (∃ a, s.value = some a ∧ r = .ok a ∧ t = s) ∨
      s.value = none ∧ attempt i s.world = (r, t.world) ∧ t.value = r.toOption := by
  cases hvalue : s.value with
  | some a =>
    simp only [call, hvalue] at h
    obtain ⟨rfl, rfl⟩ := Prod.mk.inj h
    exact .inl ⟨a, rfl, rfl, rfl⟩
  | none =>
    simp only [call, hvalue] at h
    right
    rcases hattempt : attempt i s.world with ⟨e | a, w⟩
    all_goals
      simp only [hattempt] at h
      obtain ⟨rfl, rfl⟩ := Prod.mk.inj h
      exact ⟨rfl, rfl, rfl⟩

theorem value_of_call {t : Cell σ α} (h : call attempt s i = (.ok a, t)) : t.value = some a := by
  rcases call_cases h with ⟨b, hvalue, hb, rfl⟩ | ⟨-, -, hvalue⟩
  · rw [hvalue, Except.ok.inj hb]
  · exact hvalue

end Once
