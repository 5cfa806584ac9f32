import Mathlib.Tactic

/-!
# Worlds of objects that each have a life of their own

An event is about one object, or about none. An object allows an event or not, as its state says, and
the event takes it into another state. A world has a state for every object. It accepts a list of
events if and only if every object accepts those that are about it: nothing else is shared.
-/

namespace Objects

/-- What the objects of a world have in common. -/
structure Protocol (κ σ ε : Type*) where
  about : ε → Option κ
  allows : σ → ε → Bool
  after : σ → ε → σ

namespace Protocol

variable {κ σ ε : Type*} (p : Protocol κ σ ε)

/-- One object, at an event that is about it. -/
def next (x : σ) (e : ε) : Option σ :=
  if p.allows x e then some (p.after x e) else none

/-- One object, at the events that are about it. -/
def course (x : σ) (ev : List ε) : Option σ := ev.foldlM p.next x

@[simp] theorem course_nil (x : σ) : p.course x [] = some x := rfl

theorem course_cons (x : σ) (e : ε) (ev : List ε) :
    p.course x (e :: ev) = (p.next x e).bind fun y => p.course y ev :=
  List.foldlM_cons

theorem course_still {ev : List ε} {x : σ}
    (still : ∀ e ∈ ev, p.allows x e = true ∧ p.after x e = x) : p.course x ev = some x := by
  induction ev with
  | nil => rfl
  | cons e ev ih =>
    obtain ⟨hallows, hafter⟩ := still e List.mem_cons_self
    have hnext : p.next x e = some x := by simp [next, hallows, hafter]
    rw [course_cons, hnext, Option.bind_some]
    exact ih fun e' he' => still e' (List.mem_cons_of_mem e he')

variable [DecidableEq κ]

/-- The world, at an event. -/
def step (w : κ → σ) (e : ε) : Option (κ → σ) :=
  match p.about e with
  | none => some w
  | some k => (p.next (w k) e).map (Function.update w k)

def run (w : κ → σ) (ev : List ε) : Option (κ → σ) := ev.foldlM p.step w

/-- The events that are about an object. -/
def share (k : κ) (ev : List ε) : List ε := ev.filter fun e => p.about e = some k

@[simp] theorem run_nil (w : κ → σ) : p.run w [] = some w := rfl

theorem run_cons (w : κ → σ) (e : ε) (ev : List ε) :
    p.run w (e :: ev) = (p.step w e).bind fun v => p.run v ev :=
  List.foldlM_cons

theorem run_append (w : κ → σ) (tr ev : List ε) :
    p.run w (tr ++ ev) = (p.run w tr).bind fun v => p.run v ev :=
  List.foldlM_append

@[simp] theorem share_nil (k : κ) : p.share k ([] : List ε) = [] := rfl

theorem share_cons_of_about {k : κ} {e : ε} (h : p.about e = some k) (ev : List ε) :
    p.share k (e :: ev) = e :: p.share k ev :=
  List.filter_cons_of_pos (by simp [h])

theorem share_cons_of_ne {k : κ} {e : ε} (h : p.about e ≠ some k) (ev : List ε) :
    p.share k (e :: ev) = p.share k ev :=
  List.filter_cons_of_neg (by simp [h])

/-- A world accepts what each of its objects accepts. -/
theorem run_eq_some_iff (w w' : κ → σ) (ev : List ε) :
    p.run w ev = some w' ↔ ∀ k, p.course (w k) (p.share k ev) = some (w' k) := by
  induction ev generalizing w with
  | nil =>
    rw [run_nil, Option.some.injEq, funext_iff]
    simp
  | cons e ev ih =>
    rw [run_cons]
    cases habout : p.about e with
    | none =>
      have hshare : ∀ k, p.share k (e :: ev) = p.share k ev := fun k =>
        p.share_cons_of_ne (by simp [habout]) ev
      simp only [step, habout, Option.bind_some, hshare]
      exact ih w
    | some k =>
      cases hnext : p.next (w k) e with
      | none =>
        constructor
        · intro h
          simp [step, habout, hnext] at h
        · intro h
          have hk := h k
          rw [p.share_cons_of_about habout, course_cons, hnext] at hk
          cases hk
      | some x =>
        simp only [step, habout, hnext, Option.map_some, Option.bind_some]
        rw [ih]
        -- the first event moves the object that it is about, and no other sees it
        apply forall_congr'
        intro j
        by_cases hj : j = k
        · subst hj
          rw [Function.update_self, p.share_cons_of_about habout, course_cons, hnext,
            Option.bind_some]
        · have hne : p.about e ≠ some j := by
            rw [habout]
            exact fun heq => hj (Option.some.inj heq).symm
          rw [Function.update_of_ne hj, p.share_cons_of_ne hne]

theorem run_silent {ev : List ε} (silent : ∀ e ∈ ev, p.about e = none) (w : κ → σ) :
    p.run w ev = some w := by
  rw [run_eq_some_iff]
  intro k
  have hshare : p.share k ev = [] := by
    rw [share, List.filter_eq_nil_iff]
    intro e he
    simp [silent e he]
  rw [hshare, course_nil]

theorem run_single {ev : List ε} {k : κ} {x : σ} {w : κ → σ} (about : ∀ e ∈ ev, p.about e = some k)
    (accepts : p.course (w k) ev = some x) : p.run w ev = some (Function.update w k x) := by
  rw [run_eq_some_iff]
  intro j
  by_cases hj : j = k
  · subst hj
    have hshare : p.share j ev = ev := List.filter_eq_self.mpr fun e he => by simp [about e he]
    rw [hshare, Function.update_self, accepts]
  · have hshare : p.share j ev = [] := by
      rw [share, List.filter_eq_nil_iff]
      intro e he
      simp [about e he, Ne.symm hj]
    rw [hshare, course_nil, Function.update_of_ne hj]

end Protocol

end Objects
