import Mathlib.Data.List.Count
import Mathlib.Data.Set.Insert
import Mathlib.Logic.Function.Basic

/-!
# Owners and what they hold

Each owner holds one resource at most. Where every resource that exists is held by one owner, and
owners hold nothing else, a resource that is released did exist, is released once, and none is lost:
what was acquired and not released yet is what exists.
-/

namespace Ownership

variable {O R : Type*}

/-- Who holds which resource, and which resources exist. -/
@[ext]
structure Holdings (O R : Type*) where
  held : O → Option R
  live : Set R

/-- Every resource is held, by one owner, and nothing else is. -/
structure Exact (s : Holdings O R) : Prop where
  inside : ∀ o r, s.held o = some r → r ∈ s.live
  unique : ∀ o o' r, s.held o = some r → s.held o' = some r → o = o'
  covered : ∀ r ∈ s.live, ∃ o, s.held o = some r

namespace Holdings

variable [DecidableEq O] (s : Holdings O R)

def release (o : O) : Holdings O R where
  held := Function.update s.held o none
  live := {r | r ∈ s.live ∧ s.held o ≠ some r}

/-- The owner holds a new resource. -/
def acquire (o : O) (r : R) : Holdings O R where
  held := Function.update s.held o (some r)
  live := insert r s.live

/-- One owner takes over what another holds. -/
def transfer (source target : O) : Holdings O R where
  held := Function.update (Function.update s.held target (s.held source)) source none
  live := s.live

end Holdings

theorem exact_empty : Exact (⟨fun _ => none, ∅⟩ : Holdings O R) where
  inside := fun _ _ h => nomatch h
  unique := fun _ _ _ h => nomatch h
  covered := fun _ h => h.elim

variable {s : Holdings O R}

theorem Exact.nothing_left (h : Exact s) (none_held : ∀ o, s.held o = none) : s.live = ∅ := by
  apply Set.eq_empty_iff_forall_notMem.mpr
  intro r hr
  obtain ⟨o, ho⟩ := h.covered r hr
  rw [none_held o] at ho
  cases ho

inductive Event (R : Type*) where
  | acquired (r : R)
  | released (r : R)
  /-- A resource is released, or used, that does not exist. -/
  | fault
  deriving DecidableEq

structure Kept [DecidableEq R] (tr : List (Event R)) (s : Holdings O R) : Prop extends Exact s where
  quiet : .fault ∉ tr
  /-- Of a resource that exists one acquisition is open. -/
  open_one : ∀ r ∈ s.live, tr.count (.acquired r) = tr.count (.released r) + 1
  closed : ∀ r ∉ s.live, tr.count (.acquired r) = tr.count (.released r)

theorem kept_empty [DecidableEq R] : Kept [] (⟨fun _ => none, ∅⟩ : Holdings O R) where
  toExact := exact_empty
  quiet := List.not_mem_nil
  open_one := fun _ h => h.elim
  closed := fun _ _ => rfl

/-! ## What is done with resources -/

variable [DecidableEq O]

theorem Exact.release (h : Exact s) (o : O) : Exact (s.release o) := by
  have hother {p : O} {r : R} (hp : (s.release o).held p = some r) : p ≠ o ∧ s.held p = some r := by
    by_cases hpo : p = o
    · subst hpo
      simp [Holdings.release] at hp
    · refine ⟨hpo, ?_⟩
      simpa [Holdings.release, hpo] using hp
  constructor
  · intro p r hp
    obtain ⟨hne, hheld⟩ := hother hp
    exact ⟨h.inside p r hheld, fun ho => hne (h.unique p o r hheld ho)⟩
  · intro p q r hp hq
    exact h.unique p q r (hother hp).2 (hother hq).2
  · rintro r ⟨hr, hne⟩
    obtain ⟨p, hp⟩ := h.covered r hr
    have hpo : p ≠ o := fun heq => hne (heq ▸ hp)
    exact ⟨p, by simpa [Holdings.release, hpo] using hp⟩

theorem Exact.acquire (h : Exact s) {o : O} {r : R} (empty : s.held o = none) (fresh : r ∉ s.live) :
    Exact (s.acquire o r) := by
  have hcases {p : O} {t : R} (hp : (s.acquire o r).held p = some t) :
      (p = o ∧ t = r) ∨ (p ≠ o ∧ s.held p = some t ∧ t ≠ r) := by
    by_cases hpo : p = o
    · subst hpo
      simp only [Holdings.acquire, Function.update_self, Option.some.injEq] at hp
      exact .inl ⟨rfl, hp.symm⟩
    · have hheld : s.held p = some t := by simpa [Holdings.acquire, hpo] using hp
      exact .inr ⟨hpo, hheld, fun heq => fresh (heq ▸ h.inside p t hheld)⟩
  constructor
  · intro p t hp
    rcases hcases hp with ⟨-, rfl⟩ | ⟨-, hheld, -⟩
    · exact Set.mem_insert t _
    · exact Set.mem_insert_of_mem r (h.inside p t hheld)
  · intro p q t hp hq
    rcases hcases hp with ⟨rfl, rfl⟩ | ⟨-, hheld, hne⟩
    · rcases hcases hq with ⟨rfl, -⟩ | ⟨-, -, hne⟩
      · rfl
      · exact absurd rfl hne
    · rcases hcases hq with ⟨rfl, rfl⟩ | ⟨-, hheld', -⟩
      · exact absurd rfl hne
      · exact h.unique p q t hheld hheld'
  · intro t ht
    rcases Set.mem_insert_iff.mp ht with rfl | ht
    · exact ⟨o, by simp [Holdings.acquire]⟩
    · obtain ⟨p, hp⟩ := h.covered t ht
      have hpo : p ≠ o := by
        rintro rfl
        rw [empty] at hp
        cases hp
      exact ⟨p, by simpa [Holdings.acquire, hpo] using hp⟩

theorem Exact.transfer (h : Exact s) {source target : O} (apart : source ≠ target)
    (empty : s.held target = none) : Exact (s.transfer source target) := by
  have hcases {p : O} {r : R} (hp : (s.transfer source target).held p = some r) :
      p ≠ source ∧ s.held (if p = target then source else p) = some r := by
    by_cases hps : p = source
    · subst hps
      simp [Holdings.transfer] at hp
    · refine ⟨hps, ?_⟩
      by_cases hpt : p = target
      · subst hpt
        simpa [Holdings.transfer, hps] using hp
      · simpa [Holdings.transfer, hps, hpt] using hp
  constructor
  · intro p r hp
    exact h.inside _ r (hcases hp).2
  · intro p q r hp hq
    obtain ⟨hps, hheld⟩ := hcases hp
    obtain ⟨hqs, hheld'⟩ := hcases hq
    have hsame := h.unique _ _ r hheld hheld'
    split_ifs at hsame with hpt hqt hqt
    · exact hpt.trans hqt.symm
    · exact absurd hsame.symm hqs
    · exact absurd hsame hps
    · exact hsame
  · intro r hr
    obtain ⟨p, hp⟩ := h.covered r hr
    have hpt : p ≠ target := by
      rintro rfl
      rw [empty] at hp
      cases hp
    by_cases hps : p = source
    · subst hps
      refine ⟨target, ?_⟩
      simpa [Holdings.transfer, apart.symm] using hp
    · refine ⟨p, ?_⟩
      simpa [Holdings.transfer, hps, hpt] using hp

variable [DecidableEq R] {tr : List (Event R)}

theorem Kept.release (h : Kept tr s) {o : O} {r : R} (hheld : s.held o = some r) :
    Kept (tr ++ [.released r]) (s.release o) where
  toExact := h.toExact.release o
  quiet := by simpa using h.quiet
  open_one := by
    rintro t ⟨ht, hne⟩
    have hrt : r ≠ t := fun heq => hne (heq ▸ hheld)
    simp [h.open_one t ht, hrt]
  closed := by
    intro t ht
    by_cases hrt : r = t
    · subst hrt
      simp [h.open_one r (h.inside o r hheld)]
    · have hout : t ∉ s.live := fun hin => ht ⟨hin, fun ho => hrt (Option.some.inj (hheld.symm.trans ho))⟩
      simp [h.closed t hout, hrt]

theorem Kept.acquire (h : Kept tr s) {o : O} {r : R} (empty : s.held o = none)
    (fresh : r ∉ s.live) : Kept (tr ++ [.acquired r]) (s.acquire o r) where
  toExact := h.toExact.acquire empty fresh
  quiet := by simpa using h.quiet
  open_one := by
    intro t ht
    by_cases hrt : r = t
    · subst hrt
      simp [h.closed r fresh]
    · have hin : t ∈ s.live := (Set.mem_insert_iff.mp ht).resolve_left fun heq => hrt heq.symm
      simp [h.open_one t hin, hrt]
  closed := by
    intro t ht
    have hrt : r ≠ t := fun heq => ht (heq ▸ Set.mem_insert r _)
    have hout : t ∉ s.live := fun hin => ht (Set.mem_insert_of_mem r hin)
    simp [h.closed t hout, hrt]

theorem Kept.transfer (h : Kept tr s) {source target : O} (apart : source ≠ target)
    (empty : s.held target = none) : Kept tr (s.transfer source target) where
  toExact := h.toExact.transfer apart empty
  quiet := h.quiet
  open_one := h.open_one
  closed := h.closed

end Ownership
