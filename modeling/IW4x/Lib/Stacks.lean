import Mathlib.Tactic

/-!
# Threads and their call stacks

A program of several threads is a list of stacks of activations. Weighing the activations and
adding the weights up over all threads counts what the threads hold together; the lemmas below
say how that total moves when one thread moves.
-/

namespace Stacks

variable {φ : Type*}

def weight (w : φ → ℕ) (stack : List φ) : ℕ := (stack.map w).sum

/-- The weight of all stacks together. -/
def total (w : φ → ℕ) (threads : List (List φ)) : ℕ := (threads.map (weight w)).sum

@[simp] theorem weight_nil (w : φ → ℕ) : weight w [] = 0 := rfl

@[simp] theorem weight_cons (w : φ → ℕ) (f : φ) (stack : List φ) :
    weight w (f :: stack) = w f + weight w stack := by
  simp [weight]

@[simp] theorem weight_append (w : φ → ℕ) (front stack : List φ) :
    weight w (front ++ stack) = weight w front + weight w stack := by
  simp [weight]

theorem weight_perm (w : φ → ℕ) {stack stack' : List φ} (h : stack.Perm stack') :
    weight w stack = weight w stack' :=
  (h.map w).sum_eq

theorem weight_add (w v : φ → ℕ) (stack : List φ) :
    weight (fun f => w f + v f) stack = weight w stack + weight v stack := by
  induction stack with
  | nil => rfl
  | cons f stack ih =>
    simp only [weight_cons, ih]
    omega

theorem total_add (w v : φ → ℕ) (threads : List (List φ)) :
    total (fun f => w f + v f) threads = total w threads + total v threads := by
  induction threads with
  | nil => rfl
  | cons stack threads ih =>
    simp only [total, List.map_cons, List.sum_cons, weight_add] at ih ⊢
    omega

theorem weight_eq_zero_iff (w : φ → ℕ) (stack : List φ) :
    weight w stack = 0 ↔ ∀ f ∈ stack, w f = 0 := by
  simp [weight, List.sum_eq_zero_iff]

theorem le_weight (w : φ → ℕ) {stack : List φ} {f : φ} (h : f ∈ stack) : w f ≤ weight w stack :=
  List.le_sum_of_mem (List.mem_map_of_mem h)

theorem total_set (w : φ → ℕ) {threads : List (List φ)} {i : ℕ} {old : List φ}
    (h : threads[i]? = some old) (new : List φ) :
    total w (threads.set i new) + weight w old = total w threads + weight w new := by
  induction threads generalizing i with
  | nil => simp at h
  | cons s rest ih =>
    cases i with
    | zero =>
      have hs : s = old := by simpa using h
      subst hs
      simp [total]
      omega
    | succ i =>
      have hrest := ih (i := i) (by simpa using h)
      simp only [total, List.set_cons_succ, List.map_cons, List.sum_cons] at hrest ⊢
      omega

theorem weight_le_total (w : φ → ℕ) {threads : List (List φ)} {stack : List φ}
    (h : stack ∈ threads) : weight w stack ≤ total w threads :=
  List.le_sum_of_mem (List.mem_map_of_mem h)

theorem total_eq_zero_iff (w : φ → ℕ) (threads : List (List φ)) :
    total w threads = 0 ↔ ∀ stack ∈ threads, ∀ f ∈ stack, w f = 0 := by
  simp [total, List.sum_eq_zero_iff, weight_eq_zero_iff]

theorem weight_mono {w v : φ → ℕ} (h : ∀ f, w f ≤ v f) (stack : List φ) :
    weight w stack ≤ weight v stack := by
  induction stack with
  | nil => exact le_refl _
  | cons f stack ih =>
    have hf := h f
    simp only [weight_cons]
    omega

theorem total_mono {w v : φ → ℕ} (h : ∀ f, w f ≤ v f) (threads : List (List φ)) :
    total w threads ≤ total v threads := by
  induction threads with
  | nil => exact le_refl _
  | cons stack threads ih =>
    have hstack := weight_mono h stack
    simp only [total, List.map_cons, List.sum_cons] at ih ⊢
    omega

@[simp] theorem total_replicate_nil (w : φ → ℕ) (n : ℕ) : total w (List.replicate n []) = 0 := by
  simp [total]

/-- What holds of every activation still does when one thread puts others in the place of some, and
new threads are started. -/
theorem forall_set {P : φ → Prop} {threads : List (List φ)} {i : ℕ} {old rest : List φ}
    (hold : ∀ stack ∈ threads, ∀ f ∈ stack, P f) (h : threads[i]? = some (old ++ rest))
    (new : List φ) (spawned : List (List φ)) (hnew : ∀ f ∈ new, P f)
    (hspawned : ∀ stack ∈ spawned, ∀ f ∈ stack, P f) :
    ∀ stack ∈ threads.set i (new ++ rest) ++ spawned, ∀ f ∈ stack, P f := by
  intro stack hstack f hf
  rcases List.mem_append.mp hstack with hstack | hstack
  · rcases List.mem_or_eq_of_mem_set hstack with hstack | rfl
    · exact hold stack hstack f hf
    · rcases List.mem_append.mp hf with hf | hf
      · exact hnew f hf
      · exact hold _ (List.mem_of_getElem? h) f (List.mem_append_right old hf)
  · exact hspawned stack hstack f hf

/-- What holds of some activation still does, if one that is removed leaves another such in its
place. -/
theorem exists_set {P : φ → Prop} {threads : List (List φ)} {i : ℕ} {old rest : List φ}
    (hex : ∃ stack ∈ threads, ∃ f ∈ stack, P f) (h : threads[i]? = some (old ++ rest))
    (new : List φ) (spawned : List (List φ)) (heirs : (∃ f ∈ old, P f) → ∃ f ∈ new, P f) :
    ∃ stack ∈ threads.set i (new ++ rest) ++ spawned, ∃ f ∈ stack, P f := by
  obtain ⟨stack, hstack, f, hf, hp⟩ := hex
  have hi : i < threads.length := (List.getElem?_eq_some_iff.mp h).1
  have hset : new ++ rest ∈ threads.set i (new ++ rest) ++ spawned :=
    List.mem_append_left _ (List.mem_set hi (new ++ rest))
  obtain ⟨j, hj⟩ := List.mem_iff_getElem?.mp hstack
  by_cases hij : i = j
  · subst hij
    obtain rfl : stack = old ++ rest := Option.some.inj (hj.symm.trans h)
    rcases List.mem_append.mp hf with hf | hf
    · obtain ⟨g, hg, hp⟩ := heirs ⟨f, hf, hp⟩
      exact ⟨_, hset, g, List.mem_append_left _ hg, hp⟩
    · exact ⟨_, hset, f, List.mem_append_right _ hf, hp⟩
  · refine ⟨stack, List.mem_append_left _ ?_, f, hf, hp⟩
    rw [List.mem_iff_getElem?]
    exact ⟨j, by rw [List.getElem?_set_ne hij, hj]⟩

theorem none_of_any {p : φ → Bool} {l : List φ} (h : l.any p = false) : ∀ x ∈ l, p x = false := by
  intro x hx
  rw [← Bool.not_eq_true]
  exact List.any_eq_false.mp h x hx

theorem none_of_any_each {κ : Type*} {p : κ → φ → Bool} {l : List φ}
    (h : ∀ k, l.any (p k) = false) : ∀ x ∈ l, ∀ k, p k x = false :=
  fun x hx k => none_of_any (h k) x hx

@[simp] theorem total_append (w : φ → ℕ) (threads spawned : List (List φ)) :
    total w (threads ++ spawned) = total w threads + total w spawned := by
  simp [total]

end Stacks
