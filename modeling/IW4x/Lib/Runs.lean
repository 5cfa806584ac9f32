import Mathlib.Data.List.Basic
import Mathlib.Tactic

/-!
# Runs of a system that is driven by inputs

A step takes a state and an input to a new state and the events the step makes known, or is
not possible. Runs are finite lists of inputs. `Reaches` collects the traces and states of the
runs whose every step meets a condition; `execute` computes one run, so that a concrete run is
evaluated rather than derived step by step.
-/

namespace Runs

variable {σ ι ε : Type*}

/-- One step of a system: `none` where the input is not possible in the state. -/
abbrev Step (σ ι ε : Type*) := σ → ι → Option (σ × List ε)

/-- Execute a list of inputs, collecting the events in order. -/
def execute (step : Step σ ι ε) : σ → List ι → Option (σ × List ε)
  | s, [] => some (s, [])
  | s, i :: is =>
    match step s i with
    | none => none
    | some (t, ev) => (execute step t is).map fun last => (last.1, ev ++ last.2)

/-- Some run from `s₀`, every step of which meets `ok`, makes the trace known and ends in the
state. Steps are added at the end, as an invariant that speaks about the trace needs them. -/
inductive Reaches (step : Step σ ι ε) (ok : σ → ι → Prop) (s₀ : σ) : List ε → σ → Prop
  | start : Reaches step ok s₀ [] s₀
  | next {tr s i t ev} : Reaches step ok s₀ tr s → ok s i → step s i = some (t, ev) →
      Reaches step ok s₀ (tr ++ ev) t

/-- The condition that every step meets. -/
def always : σ → ι → Prop := fun _ _ => True

variable {step : Step σ ι ε} {ok : σ → ι → Prop} {s₀ : σ}

/-- The rule of invariants: what holds at the start and is kept by every step that meets the
condition holds at the end of every run. -/
theorem Reaches.invariant {P : List ε → σ → Prop} (start : P [] s₀)
    (keep : ∀ tr s i t ev, P tr s → ok s i → step s i = some (t, ev) → P (tr ++ ev) t)
    {tr : List ε} {s : σ} (h : Reaches step ok s₀ tr s) : P tr s := by
  induction h with
  | start => exact start
  | next _ hok hstep ih => exact keep _ _ _ _ _ ih hok hstep

theorem Reaches.state_invariant {P : σ → Prop} (start : P s₀)
    (keep : ∀ s i t ev, P s → ok s i → step s i = some (t, ev) → P t)
    {tr : List ε} {s : σ} (h : Reaches step ok s₀ tr s) : P s :=
  h.invariant (P := fun _ s => P s) start fun _ s i t ev hp hok hs => keep s i t ev hp hok hs

theorem Reaches.mono {ok' : σ → ι → Prop} (weaker : ∀ s i, ok s i → ok' s i)
    {tr : List ε} {s : σ} (h : Reaches step ok s₀ tr s) : Reaches step ok' s₀ tr s := by
  induction h with
  | start => exact .start
  | next _ hok hstep ih => exact .next ih (weaker _ _ hok) hstep

theorem Reaches.trans {tr tr' : List ε} {s t : σ} (h : Reaches step ok s₀ tr s)
    (h' : Reaches step ok s tr' t) : Reaches step ok s₀ (tr ++ tr') t := by
  induction h' with
  | start => simpa using h
  | next _ hok hstep ih => simpa [List.append_assoc] using Reaches.next ih hok hstep

theorem Reaches.split {tr a b : List ε} {e : ε} {s : σ} (h : Reaches step ok s₀ tr s)
    (htrace : tr = a ++ e :: b) :
    ∃ tr₁ s₁ i ev₁ ev₂ s₂ tr₂, Reaches step ok s₀ tr₁ s₁ ∧ ok s₁ i ∧
      step s₁ i = some (s₂, ev₁ ++ e :: ev₂) ∧ Reaches step ok s₂ tr₂ s ∧
      a = tr₁ ++ ev₁ ∧ b = ev₂ ++ tr₂ := by
  induction h generalizing b with
  | start => simp at htrace
  | @next tr s i t ev h hok hstep ih =>
    rcases List.append_eq_append_iff.mp htrace with ⟨c, rfl, hev⟩ | ⟨c, rfl, hb⟩
    · exact ⟨tr, s, i, c, b, t, [], h, hok, hev ▸ hstep, .start, rfl, by simp⟩
    · cases c with
      | nil =>
        obtain rfl : ev = e :: b := by simpa using hb.symm
        exact ⟨_, s, i, [], b, t, [], h, hok, hstep, .start, by simp, by simp⟩
      | cons e' c =>
        obtain ⟨rfl, rfl⟩ := List.cons.inj hb
        obtain ⟨tr₁, s₁, j, ev₁, ev₂, s₂, tr₂, h₁, hok₁, hstep₁, h₂, rfl, rfl⟩ := ih rfl
        exact ⟨tr₁, s₁, j, ev₁, ev₂, s₂, tr₂ ++ ev, h₁, hok₁, hstep₁, .next h₂ hok hstep, rfl,
          by simp⟩

theorem split_append {P : List ε → ε → Prop} {tr ev : List ε}
    (old : ∀ a e b, tr = a ++ e :: b → P a e)
    (new : ∀ a e b, ev = a ++ e :: b → P (tr ++ a) e) :
    ∀ a e b, tr ++ ev = a ++ e :: b → P a e := by
  intro a e b h
  rcases List.append_eq_append_iff.mp h with ⟨c, rfl, hev⟩ | ⟨c, rfl, hb⟩
  · exact new c e b hev
  · cases c with
    | nil =>
      have hnew := new [] e b (by simpa using hb.symm)
      simpa using hnew
    | cons e' c =>
      obtain ⟨rfl, -⟩ := List.cons.inj hb
      exact old a e c rfl

/-- A property of every input of a run in the state it meets. -/
def Along (step : Step σ ι ε) (P : σ → ι → Prop) : σ → List ι → Prop
  | _, [] => True
  | s, i :: is => P s i ∧ ∀ t ev, step s i = some (t, ev) → Along step P t is

theorem Along.imp {P Q : σ → ι → Prop} (h : ∀ s i, P s i → Q s i) :
    ∀ {is : List ι} {s : σ}, Along step P s is → Along step Q s is := by
  intro is
  induction is with
  | nil => intro s _; trivial
  | cons i is ih =>
    rintro s ⟨hp, hrest⟩
    exact ⟨h s i hp, fun t ev hs => ih (hrest t ev hs)⟩

theorem Along.last {P : σ → ι → Prop} : ∀ {is : List ι} {i : ι} {s t : σ} {tr : List ε},
    Along step P s (is ++ [i]) → execute step s is = some (t, tr) → P t i := by
  intro is i
  induction is with
  | nil =>
    intro s t tr along hrun
    obtain ⟨rfl, -⟩ := Prod.mk.inj (Option.some.inj hrun)
    exact along.1
  | cons j is ih =>
    intro s t tr along hrun
    cases hs : step s j with
    | none => simp [execute, hs] at hrun
    | some next =>
      obtain ⟨m, ev⟩ := next
      simp only [execute, hs, Option.map_eq_some_iff] at hrun
      obtain ⟨⟨t', tr'⟩, hrest, heq⟩ := hrun
      obtain ⟨rfl, -⟩ := Prod.mk.inj heq
      exact ih (along.2 m ev hs) hrest

/-- A run computes whether its inputs have a property that can be decided. -/
instance Along.decidable (step : Step σ ι ε) (P : σ → ι → Prop) [∀ s i, Decidable (P s i)] :
    ∀ (is : List ι) (s : σ), Decidable (Along step P s is)
  | [], _ => isTrue trivial
  | i :: is, s =>
    match hs : step s i with
    | none => decidable_of_iff (P s i) ⟨fun hp => ⟨hp, fun t ev h => by simp [hs] at h⟩, And.left⟩
    | some (t, _) =>
      have := Along.decidable step P is t
      decidable_of_iff (P s i ∧ Along step P t is)
        ⟨fun ⟨hp, hrest⟩ => ⟨hp, fun t' ev' h => by
          rw [hs] at h
          cases h
          exact hrest⟩, fun ⟨hp, hrest⟩ => ⟨hp, hrest _ _ hs⟩⟩

/-- A computed run reaches its end. -/
theorem reaches_of_execute : ∀ (is : List ι) {s t : σ} {tr : List ε},
    execute step s is = some (t, tr) → Along step ok s is → Reaches step ok s tr t := by
  intro is
  induction is with
  | nil =>
    intro s t tr h _
    simp only [execute, Option.some.injEq, Prod.mk.injEq] at h
    obtain ⟨rfl, rfl⟩ := h
    exact .start
  | cons i is ih =>
    intro s t tr h halong
    cases hs : step s i with
    | none => simp [execute, hs] at h
    | some next =>
      obtain ⟨m, ev⟩ := next
      simp only [execute, hs, Option.map_eq_some_iff] at h
      obtain ⟨⟨t', tr'⟩, hrest, heq⟩ := h
      simp only [Prod.mk.injEq] at heq
      obtain ⟨rfl, rfl⟩ := heq
      have hfirst : Reaches step ok s ev m := by
        simpa using Reaches.next (.start : Reaches step ok s [] s) halong.1 hs
      exact hfirst.trans (ih hrest (halong.2 m ev hs))

theorem along_of_forall {P : σ → ι → Prop} : ∀ (is : List ι) (s : σ), (∀ i ∈ is, ∀ s, P s i) →
    Along step P s is := by
  intro is
  induction is with
  | nil => intro s _; trivial
  | cons i is ih =>
    intro s hall
    exact ⟨hall i List.mem_cons_self s,
      fun t ev _ => ih t fun j hj => hall j (List.mem_cons_of_mem _ hj)⟩

theorem execute_append {is js : List ι} {s u : σ} {tr : List ε}
    (h : execute step s (is ++ js) = some (u, tr)) :
    ∃ t tr₁ tr₂, execute step s is = some (t, tr₁) ∧ execute step t js = some (u, tr₂) ∧
      tr = tr₁ ++ tr₂ := by
  induction is generalizing s tr with
  | nil => exact ⟨s, [], tr, rfl, h, rfl⟩
  | cons i is ih =>
    cases hs : step s i with
    | none => simp [execute, hs] at h
    | some next =>
      obtain ⟨m, ev⟩ := next
      simp only [List.cons_append, execute, hs, Option.map_eq_some_iff] at h
      obtain ⟨⟨t', tr'⟩, hrest, heq⟩ := h
      obtain ⟨rfl, rfl⟩ := Prod.mk.inj heq
      obtain ⟨t, tr₁, tr₂, hfirst, hlast, rfl⟩ := ih hrest
      exact ⟨t, ev ++ tr₁, tr₂, by simp [execute, hs, hfirst], hlast, by simp⟩

theorem execute_concat {is : List ι} {i : ι} {s u : σ} {tr : List ε}
    (h : execute step s (is ++ [i]) = some (u, tr)) :
    ∃ t tr₁ ev, execute step s is = some (t, tr₁) ∧ step t i = some (u, ev) ∧ tr = tr₁ ++ ev := by
  obtain ⟨t, tr₁, tr₂, hfirst, hlast, rfl⟩ := execute_append h
  cases hs : step t i with
  | none => simp [execute, hs] at hlast
  | some next =>
    obtain ⟨u', ev⟩ := next
    simp only [execute, hs, Option.map_some, Option.some.injEq, Prod.mk.injEq,
      List.append_nil] at hlast
    obtain ⟨rfl, rfl⟩ := hlast
    exact ⟨t, tr₁, ev, hfirst, hs, rfl⟩

theorem execute_isSome {is : List ι} (h : ∀ i ∈ is, ∀ s, (step s i).isSome = true) (s : σ) :
    (execute step s is).isSome = true := by
  induction is generalizing s with
  | nil => rfl
  | cons i is ih =>
    obtain ⟨⟨t, ev⟩, hs⟩ := Option.isSome_iff_exists.mp (h i List.mem_cons_self s)
    simp only [execute, hs, Option.isSome_map]
    exact ih (fun j hj => h j (List.mem_cons_of_mem _ hj)) t

theorem along_always : ∀ (is : List ι) (s : σ), Along step always s is := by
  intro is
  induction is with
  | nil => intro s; trivial
  | cons i is ih => intro s; exact ⟨trivial, fun t ev _ => ih t⟩

theorem reaches_of_run {is : List ι} {t : σ} {tr : List ε}
    (h : execute step s₀ is = some (t, tr)) : Reaches step always s₀ tr t :=
  reaches_of_execute is h (along_always is s₀)

theorem along_congr {P Q : σ → ι → Prop} {s₀ : σ}
    (h : ∀ tr s i, Reaches step always s₀ tr s → (P s i ↔ Q s i)) (is : List ι) :
    Along step P s₀ is ↔ Along step Q s₀ is := by
  have hall : ∀ (is : List ι) (tr : List ε) (s : σ), Reaches step always s₀ tr s →
      (Along step P s is ↔ Along step Q s is) := by
    intro is
    induction is with
    | nil => exact fun _ _ _ => Iff.rfl
    | cons i is ih =>
      intro tr s hreach
      refine and_congr (h tr s i hreach) ?_
      constructor
      · exact fun hrest t ev hstep => (ih _ t (hreach.next trivial hstep)).mp (hrest t ev hstep)
      · exact fun hrest t ev hstep => (ih _ t (hreach.next trivial hstep)).mpr (hrest t ev hstep)
  exact hall is [] s₀ .start

/-- What follows of the inputs in the states that such a run can reach. -/
theorem Along.imp_reached {P Q : σ → ι → Prop} {s₀ : σ}
    (h : ∀ tr s i, Reaches step P s₀ tr s → P s i → Q s i) {is : List ι}
    (along : Along step P s₀ is) : Along step Q s₀ is := by
  have hall : ∀ (is : List ι) (tr : List ε) (s : σ), Reaches step P s₀ tr s →
      Along step P s is → Along step Q s is := by
    intro is
    induction is with
    | nil => exact fun _ _ _ _ => trivial
    | cons i is ih =>
      intro tr s hreach ⟨hp, hrest⟩
      exact ⟨h tr s i hreach hp,
        fun t ev hstep => ih _ t (hreach.next hp hstep) (hrest t ev hstep)⟩
  exact hall is [] s₀ .start along

/-- The trace made `x` known, and since then nothing that ends it. -/
def Since (x : ε) (stop : ε → Prop) (tr : List ε) : Prop :=
  ∃ a b, tr = a ++ x :: b ∧ ∀ y ∈ b, ¬ stop y

theorem not_since_nil (x : ε) (stop : ε → Prop) : ¬ Since x stop [] := by
  rintro ⟨a, b, h, -⟩
  simp at h

theorem Since.mem {x : ε} {stop : ε → Prop} {tr : List ε} (h : Since x stop tr) : x ∈ tr := by
  obtain ⟨a, b, rfl, -⟩ := h
  simp

theorem since_append {x : ε} {stop : ε → Prop} {tr ev : List ε} :
    Since x stop (tr ++ ev) ↔ Since x stop ev ∨ (Since x stop tr ∧ ∀ y ∈ ev, ¬ stop y) := by
  constructor
  · rintro ⟨a, b, h, hb⟩
    rcases List.append_eq_append_iff.mp h with ⟨c, rfl, rfl⟩ | ⟨c, rfl, hc⟩
    · exact .inl ⟨c, b, rfl, hb⟩
    · cases c with
      | nil => exact .inl ⟨[], b, by simpa using hc.symm, hb⟩
      | cons y c =>
        obtain ⟨rfl, rfl⟩ := List.cons.inj hc
        exact .inr ⟨⟨a, c, rfl, fun y hy => hb y (List.mem_append_left _ hy)⟩,
          fun y hy => hb y (List.mem_append_right _ hy)⟩
  · rintro (⟨a, b, rfl, hb⟩ | ⟨⟨a, b, rfl, hb⟩, hev⟩)
    · exact ⟨tr ++ a, b, by simp, hb⟩
    · refine ⟨a, b ++ ev, by simp, ?_⟩
      intro y hy
      rcases List.mem_append.mp hy with hy | hy
      · exact hb y hy
      · exact hev y hy

theorem since_singleton {x y : ε} {stop : ε → Prop} : Since x stop [y] ↔ y = x := by
  constructor
  · rintro ⟨a, b, h, -⟩
    cases a with
    | nil => exact (List.cons.inj h).1
    | cons z a => simp at h
  · rintro rfl
    exact ⟨[], [], rfl, by simp⟩

theorem since_cons {x y : ε} {stop : ε → Prop} {ev : List ε} :
    Since x stop (y :: ev) ↔ Since x stop ev ∨ (y = x ∧ ∀ z ∈ ev, ¬ stop z) := by
  rw [← List.singleton_append, since_append, since_singleton]

theorem since_append_of_quiet {x : ε} {stop : ε → Prop} {tr ev : List ε} (hx : x ∉ ev)
    (hstop : ∀ y ∈ ev, ¬ stop y) : Since x stop (tr ++ ev) ↔ Since x stop tr := by
  rw [since_append]
  constructor
  · rintro (h | h)
    · exact absurd h.mem hx
    · exact h.1
  · intro h
    exact .inr ⟨h, hstop⟩

end Runs
