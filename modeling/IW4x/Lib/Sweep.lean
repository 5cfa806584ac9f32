import Mathlib.Data.List.Perm.Basic
import Mathlib.Tactic

/-!
# Sweeping an unordered array

An array whose order does not matter gives up an item by moving the last one into its place. A sweep
walks over such an array and offers every item to a consumer; an item that is accepted is removed,
and the one that took its place is offered next.
-/

namespace Sweep

variable {α σ : Type*}

/-- Remove the item at `i` by moving the last one there. -/
def swapRemove (l : List α) (i : ℕ) : List α :=
  match l.getLast? with
  | none => []
  | some last => (l.set i last).dropLast

theorem swapRemove_append_singleton (init : List α) (last : α) (i : ℕ) :
    swapRemove (init ++ [last]) i = init.set i last := by
  rcases Nat.lt_or_ge i init.length with hi | hi
  · simp [swapRemove, hi]
  · rw [List.set_eq_of_length_le hi]
    rcases hi.eq_or_lt with rfl | hi
    · simp [swapRemove]
    · have hlength : (init ++ [last]).length ≤ i := by
        simpa using hi
      simp [swapRemove, List.set_eq_of_length_le hlength]

/-- The item is gone and every other one stays. -/
theorem swapRemove_perm {l : List α} {i : ℕ} (hi : i < l.length) :
    l.Perm (l[i] :: swapRemove l i) := by
  induction l using List.reverseRecOn with
  | nil => simp at hi
  | append_singleton init last _ =>
    rw [swapRemove_append_singleton]
    rw [List.length_append, List.length_singleton] at hi
    rcases Nat.lt_succ_iff_lt_or_eq.mp hi with hi | rfl
    · have hset := List.set_eq_take_append_cons_drop (l := init) (i := i) (a := last)
      rw [if_pos hi] at hset
      have hsplit : init = init.take i ++ init[i] :: init.drop (i + 1) := by
        simp
      rw [List.getElem_append_left hi, hset]
      calc (init ++ [last]).Perm (last :: init) := List.perm_append_singleton _ _
        _ = last :: (init.take i ++ init[i] :: init.drop (i + 1)) := by rw [← hsplit]
        _ |>.Perm (last :: init[i] :: (init.take i ++ init.drop (i + 1))) :=
          List.perm_middle.cons _
        _ |>.Perm (init[i] :: last :: (init.take i ++ init.drop (i + 1))) := List.Perm.swap _ _ _
        _ |>.Perm (init[i] :: (init.take i ++ last :: init.drop (i + 1))) :=
          List.perm_middle.symm.cons _
    · rw [List.set_eq_of_length_le (Nat.le_refl _)]
      simp

theorem swapRemove_length {l : List α} {i : ℕ} (hi : i < l.length) :
    (swapRemove l i).length + 1 = l.length := by
  have h := (swapRemove_perm hi).length_eq
  rw [List.length_cons] at h
  exact h.symm

theorem take_swapRemove {l : List α} {i : ℕ} (hi : i < l.length) :
    (swapRemove l i).take i = l.take i := by
  induction l using List.reverseRecOn with
  | nil => simp at hi
  | append_singleton init last _ =>
    rw [List.length_append, List.length_singleton] at hi
    rw [swapRemove_append_singleton, List.take_set_of_le (Nat.le_refl i),
      List.take_append_of_le_length (by omega)]

/-- Walk over the array from `i` on, `n` items at most. -/
def sweep (accept : σ → α → Option σ) : ℕ → ℕ → List α → σ → List α × σ
  | 0, _, l, s => (l, s)
  | n + 1, i, l, s =>
    if h : i < l.length then
      match accept s l[i] with
      | none => sweep accept n (i + 1) l s
      | some s' => sweep accept n i (swapRemove l i) s'
    else (l, s)

/-- The consumer never accepts later what it refused once. -/
def Firm (accept : σ → α → Option σ) : Prop :=
  ∀ s s' a b, accept s a = none → accept s b = some s' → accept s' a = none

variable {accept : σ → α → Option σ}

theorem Firm.foldlM (firm : Firm accept) {a : α} {taken : List α} {s s' : σ}
    (refused : accept s a = none) (h : taken.foldlM accept s = some s') : accept s' a = none := by
  induction taken generalizing s with
  | nil =>
    simp only [List.foldlM_nil, Option.pure_def, Option.some.injEq] at h
    rwa [← h]
  | cons b taken ih =>
    simp only [List.foldlM_cons, Option.bind_eq_bind, Option.bind_eq_some_iff] at h
    obtain ⟨t, hb, ht⟩ := h
    exact ih (firm _ _ _ _ refused hb) ht

/-- A sweep keeps or hands over every item, and hands over all that the consumer still takes. -/
theorem sweep_spec (firm : Firm accept) {n i : ℕ} {l : List α} {s : σ} (hn : l.length ≤ i + n) :
    ∃ taken, l.Perm ((sweep accept n i l s).1 ++ taken) ∧
      taken.foldlM accept s = some (sweep accept n i l s).2 ∧
      (sweep accept n i l s).1.take i = l.take i ∧
      ∀ a ∈ (sweep accept n i l s).1.drop i, accept (sweep accept n i l s).2 a = none := by
  induction n generalizing i l s with
  | zero =>
    refine ⟨[], by simp [sweep], by simp [sweep], rfl, ?_⟩
    have hnil : l.drop i = [] := List.drop_eq_nil_of_le hn
    simp [sweep, hnil]
  | succ n ih =>
    by_cases hi : i < l.length
    · cases haccept : accept s l[i] with
      | none =>
        have hstep : sweep accept (n + 1) i l s = sweep accept n (i + 1) l s := by
          simp only [sweep, dif_pos hi, haccept]
        rw [hstep]
        obtain ⟨taken, hperm, hfold, htake, hrefused⟩ := ih (i := i + 1) (l := l) (s := s) (by omega)
        generalize sweep accept n (i + 1) l s = r at hperm hfold htake hrefused
        refine ⟨taken, hperm, hfold, ?_, ?_⟩
        · have h := congrArg (List.take i) htake
          simpa [List.take_take] using h
        · have hlength : i < r.1.length := by
            have h := congrArg List.length htake
            simp only [List.length_take] at h
            omega
          have hitem : r.1[i] = l[i] := by
            have h := congrArg (fun l => l[i]?) htake
            simpa [hi, hlength] using h
          rw [List.drop_eq_getElem_cons hlength, List.forall_mem_cons, hitem]
          exact ⟨firm.foldlM haccept hfold, hrefused⟩
      | some s' =>
        have hstep : sweep accept (n + 1) i l s = sweep accept n i (swapRemove l i) s' := by
          simp only [sweep, dif_pos hi, haccept]
        have hlength := swapRemove_length hi
        rw [hstep]
        obtain ⟨taken, hperm, hfold, htake, hrefused⟩ :=
          ih (i := i) (l := swapRemove l i) (s := s') (by omega)
        refine ⟨l[i] :: taken, ?_, ?_, ?_, hrefused⟩
        · calc l.Perm (l[i] :: swapRemove l i) := swapRemove_perm hi
            _ |>.Perm (l[i] :: ((sweep accept n i (swapRemove l i) s').1 ++ taken)) := hperm.cons _
            _ |>.Perm ((sweep accept n i (swapRemove l i) s').1 ++ l[i] :: taken) :=
              List.perm_middle.symm
        · simp only [List.foldlM_cons, haccept, Option.bind_eq_bind, Option.bind_some]
          exact hfold
        · rw [htake, take_swapRemove hi]
    · have hstep : sweep accept (n + 1) i l s = (l, s) := by
        simp only [sweep, dif_neg hi]
      rw [hstep]
      refine ⟨[], by simp, rfl, rfl, ?_⟩
      have hnil : l.drop i = [] := List.drop_eq_nil_of_le (Nat.le_of_not_lt hi)
      simp [hnil]

end Sweep
