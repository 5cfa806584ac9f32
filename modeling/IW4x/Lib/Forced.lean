import IW4x.Lib.Runs

/-!
# Runs without a choice

A run can be taken from its first step on. Where one input at most is possible in each state, two runs
from one state that both come to an end are the same.
-/

namespace Runs

variable {σ ι ε : Type*} {step : Step σ ι ε} {ok : σ → ι → Prop}

theorem Reaches.head_induct {s t : σ} {tr : List ε} (h : Reaches step ok s tr t)
    {P : σ → List ε → Prop} (last : P t [])
    (first : ∀ s i u ev tr, ok s i → step s i = some (u, ev) → Reaches step ok u tr t → P u tr →
      P s (ev ++ tr)) : P s tr := by
  induction h generalizing P with
  | start => exact last
  | @next tr t i u ev _ hok hstep ih =>
    refine ih (P := fun s tr => P s (tr ++ ev)) ?_ ?_
    · have hsingle := first t i u ev [] hok hstep .start last
      rwa [List.append_nil] at hsingle
    · intro s j v ev' tr hok' hstep' hrun hp
      rw [List.append_assoc]
      exact first s j v ev' (tr ++ ev) hok' hstep' (hrun.next hok hstep) hp

theorem Reaches.first_cases {s t : σ} {tr : List ε} (h : Reaches step ok s tr t) :
    (tr = [] ∧ s = t) ∨ ∃ i u ev tr', ok s i ∧ step s i = some (u, ev) ∧
      Reaches step ok u tr' t ∧ tr = ev ++ tr' := by
  refine h.head_induct (P := fun s tr => (tr = [] ∧ s = t) ∨ ∃ i u ev tr', ok s i ∧
    step s i = some (u, ev) ∧ Reaches step ok u tr' t ∧ tr = ev ++ tr') (.inl ⟨rfl, rfl⟩) ?_
  intro s i u ev tr hok hstep hrun _
  exact .inr ⟨i, u, ev, tr, hok, hstep, hrun, rfl⟩

/-- No input is possible. -/
def Final (step : Step σ ι ε) (ok : σ → ι → Prop) (s : σ) : Prop :=
  ∀ i next, ok s i → step s i ≠ some next

/-- One input at most is possible. -/
def Forced (step : Step σ ι ε) (ok : σ → ι → Prop) : Prop :=
  ∀ s i j next next', ok s i → ok s j → step s i = some next → step s j = some next' → i = j

theorem Reaches.unique (hforced : Forced step ok) {s t t' : σ} {tr tr' : List ε}
    (h : Reaches step ok s tr t) (hfinal : Final step ok t) (h' : Reaches step ok s tr' t')
    (hfinal' : Final step ok t') : tr = tr' ∧ t = t' := by
  have hall : ∀ tr', Reaches step ok s tr' t' → tr = tr' ∧ t = t' := by
    refine h.head_induct (P := fun s tr => ∀ tr', Reaches step ok s tr' t' → tr = tr' ∧ t = t') ?_ ?_
    · intro tr' h'
      rcases h'.first_cases with ⟨rfl, rfl⟩ | ⟨i, u, ev, tr₂, hok, hstep, -, -⟩
      · exact ⟨rfl, rfl⟩
      · exact absurd hstep (hfinal i _ hok)
    · intro s i u ev tr hok hstep hrun ih tr' h'
      rcases h'.first_cases with ⟨rfl, rfl⟩ | ⟨j, u', ev', tr₂, hok', hstep', hrun', rfl⟩
      · exact absurd hstep (hfinal' i _ hok)
      · obtain rfl := hforced s i j _ _ hok hok' hstep hstep'
        obtain ⟨rfl, rfl⟩ := Prod.mk.inj (Option.some.inj (hstep.symm.trans hstep'))
        obtain ⟨rfl, rfl⟩ := ih _ hrun'
        exact ⟨rfl, rfl⟩
  exact hall tr' h'

end Runs
