import Mathlib.Data.List.Basic
import Mathlib.Tactic

/-!
# The last entry of a list that says something

Where a later operation overrides an earlier one, what stands at the end is what the last operation
says of those that say anything about it. The lemmas go by induction from the end of the list.
-/

namespace Lists

variable {α β : Type*} (f : α → Option β)

/-- What the last entry of a list says, of those that say anything. -/
def lastSome (l : List α) : Option β := l.reverse.findSome? f

@[simp] theorem lastSome_nil : lastSome f [] = none := rfl

theorem lastSome_concat (l : List α) (a : α) :
    lastSome f (l ++ [a]) = (f a).or (lastSome f l) := by
  cases h : f a <;> simp [lastSome, h]

variable {f}

theorem exists_of_lastSome {l : List α} {b : β} (h : lastSome f l = some b) :
    ∃ a ∈ l, f a = some b := by
  obtain ⟨a, ha, hb⟩ := List.exists_of_findSome?_eq_some h
  exact ⟨a, List.mem_reverse.mp ha, hb⟩

theorem lastSome_eq {l : List α} {b : β} (said : ∃ a ∈ l, f a = some b)
    (same : ∀ a ∈ l, ∀ c, f a = some c → c = b) : lastSome f l = some b := by
  induction l using List.reverseRecOn with
  | nil => simp at said
  | append_singleton l a ih =>
    rw [lastSome_concat]
    cases h : f a with
    | some c => rw [Option.some_or, same a (by simp) c h]
    | none =>
      rw [Option.none_or]
      obtain ⟨x, hx, hsaid⟩ := said
      refine ih ⟨x, ?_, hsaid⟩ fun y hy => same y (List.mem_append_left _ hy)
      rcases List.mem_append.mp hx with hx | hx
      · exact hx
      · obtain rfl := List.mem_singleton.mp hx
        rw [h] at hsaid
        cases hsaid

theorem foldl_eq_lastSome {σ : Type*} (step : σ → α → σ) (read : σ → β)
    (overrides : ∀ s a, read (step s a) = (f a).getD (read s)) (l : List α) (s : σ) :
    read (l.foldl step s) = (lastSome f l).getD (read s) := by
  induction l using List.reverseRecOn with
  | nil => rfl
  | append_singleton l a ih =>
    rw [List.foldl_concat, overrides, ih, lastSome_concat]
    cases f a <;> rfl

end Lists
