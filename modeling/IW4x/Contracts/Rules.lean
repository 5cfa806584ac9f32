import IW4x.Contracts.Checks

/-!
# Rules for functions with checks

What is shown of a function once holds at every checking level: where its checks are met, it is built
to something that says nothing and does not end the process.
-/

namespace IW4x.Contracts

open Scopes

variable {σ ε : Type} {current : σ → Option Handler} {l : Level} {P Q R : σ → Prop}
  {E : σ → Thrown ε → Prop} {c d : Checked σ ε}

def Meets (current : σ → Option Handler) (l : Level) (P : σ → Prop) (c : Checked σ ε) (Q : σ → Prop)
    (E : σ → Thrown ε → Prop) : Prop :=
  Triple (fun _ => False) P (expand current l c) Q E

theorem Meets.conseq {P' Q' : σ → Prop} (h : Meets current l P c Q E) (pre : ∀ s, P' s → P s)
    (post : ∀ s, Q s → Q' s) : Meets current l P' c Q' E :=
  Triple.conseq h pre post fun _ _ he => he

theorem Meets.act {f : σ → σ} (h : ∀ s, P s → Q (f s)) :
    Meets current l P (.act fun s => (f s, none) : Checked σ ε) Q E :=
  Triple.act h

theorem Meets.seq (first : Meets current l P c R E) (second : Meets current l R d Q E) :
    Meets current l P (.seq c d) Q E :=
  Triple.seq first second

theorem Meets.branch {p : σ → Bool} (yes : ∀ s, P s → p s = true → Meets current l (· = s) c Q E)
    (no : ∀ s, P s → p s = false → Meets current l (· = s) d Q E) :
    Meets current l P (.branch p c d) Q E := by
  apply Triple.ask
  intro s hs
  split_ifs with hp
  · exact yes s hs hp
  · exact no s hs (by simpa using hp)

theorem Meets.loop {rounds : σ → ℕ} {p : σ → Bool} (measure : σ → ℕ)
    (left : ∀ s, P s → p s = true → 0 < measure s) (enough : ∀ s, P s → measure s ≤ rounds s)
    (body : ∀ k, Meets current l (fun s => P s ∧ p s = true ∧ measure s = k) c
      (fun s => P s ∧ measure s < k) E) :
    Meets current l P (.loop rounds p c) (fun s => P s ∧ p s = false) E := by
  apply Triple.ask
  intro s hs
  apply Triple.conseq (Triple.loop measure left body (rounds s)) _ (fun _ h => h) fun _ _ h => h
  rintro t rfl
  exact ⟨hs, fun _ => enough t hs⟩

theorem triple_contractCheck {v : Violation} {e : σ → Bool} (h : ∀ s, P s → e s = true) :
    Triple (fun _ => False) P (contractCheck current v e) P E := by
  apply Triple.ask
  intro s hs
  rw [if_pos (h s hs)]
  apply Triple.skip.conseq _ (fun _ h => h) fun _ _ h => h
  rintro t rfl
  exact hs

theorem Meets.invariant {v : Site} {e : σ → Bool} (entry : ∀ s, P s → e s = true)
    (exit : ∀ s, Q s → e s = true) (h : Meets current l P c Q E) :
    Meets current l P (.invariant v e c) Q E := by
  unfold Meets expand
  split_ifs
  · exact (triple_contractCheck entry).seq (h.onNormalExit (triple_contractCheck exit))
  · exact h

theorem Meets.sealing (h : Meets current l P c Q fun _ _ => False) :
    Meets current l P (.sealing c) Q E :=
  Triple.sealing h

end IW4x.Contracts
