import IW4x.Lib.Runs

/-!
# Runs on which notes are taken

What is asked of a step may be about the steps before it, of which the state keeps no trace. A system
that takes notes makes the same steps and writes down at each of them what is wanted later. The notes
are never read, so that both systems have the same runs.
-/

namespace Runs

variable {σ ι ε γ : Type*}

structure Noted (σ γ : Type*) where
  state : σ
  notes : γ

/-- How notes are taken of a step: from the state, the input, the next state and the events. -/
abbrev Note (σ ι ε γ : Type*) := σ → ι → σ → List ε → γ → γ

/-- The system that takes notes. -/
def noting (step : Step σ ι ε) (note : Note σ ι ε γ) : Step (Noted σ γ) ι ε := fun s i =>
  (step s.state i).map fun next => (⟨next.1, note s.state i next.1 next.2 s.notes⟩, next.2)

variable {step : Step σ ι ε} {note : Note σ ι ε γ}

theorem noting_eq_some_iff {s t : Noted σ γ} {i : ι} {ev : List ε} :
    noting step note s i = some (t, ev) ↔
      step s.state i = some (t.state, ev) ∧ t.notes = note s.state i t.state ev s.notes := by
  constructor
  · intro h
    obtain ⟨⟨u, ev'⟩, hstep, heq⟩ := Option.map_eq_some_iff.mp h
    obtain ⟨rfl, rfl⟩ := Prod.mk.inj heq
    exact ⟨hstep, rfl⟩
  · rintro ⟨hstep, hnotes⟩
    simp only [noting, hstep, Option.map_some]
    rw [← hnotes]

theorem Reaches.forget {ok : Noted σ γ → ι → Prop} {s₀ s : Noted σ γ} {tr : List ε}
    (h : Reaches (noting step note) ok s₀ tr s) : Reaches step always s₀.state tr s.state := by
  induction h with
  | start => exact .start
  | next _ _ hstep ih => exact .next ih trivial (noting_eq_some_iff.mp hstep).1

def keeping : Note σ ι ε (List ε) := fun _ _ _ ev past => past ++ ev

theorem Reaches.kept {ok : Noted σ (List ε) → ι → Prop} {s₀ : σ} {s : Noted σ (List ε)} {tr : List ε}
    (h : Reaches (noting step keeping) ok ⟨s₀, []⟩ tr s) : s.notes = tr := by
  induction h with
  | start => rfl
  | next _ _ hstep ih =>
    rw [(noting_eq_some_iff.mp hstep).2, ih]
    rfl

end Runs
