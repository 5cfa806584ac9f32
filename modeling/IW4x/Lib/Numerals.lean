import Mathlib.Data.Nat.Digits.Lemmas
import Mathlib.Tactic

/-!
# Numerals

A numeral is a list of digits with the highest one first, as it is written and read. Its value is
that of `Nat.ofDigits` on the reversed list.
-/

namespace Numerals

variable {B : ℕ}

/-- The number that the digits write. -/
def value (B : ℕ) (l : List ℕ) : ℕ := Nat.ofDigits B l.reverse

/-- The `n` lowest digits of a number. -/
def lowDigits (B n v : ℕ) : List ℕ := (List.range n).map fun i => v / B ^ (n - 1 - i) % B

@[simp] theorem value_nil : value B [] = 0 := rfl

theorem value_append (l m : List ℕ) : value B (l ++ m) = value B l * B ^ m.length + value B m := by
  simp only [value, List.reverse_append, Nat.ofDigits_append, List.length_reverse]
  ring

theorem value_cons (d : ℕ) (l : List ℕ) : value B (d :: l) = d * B ^ l.length + value B l := by
  have h := value_append (B := B) [d] l
  simpa [value] using h

theorem value_concat (l : List ℕ) (d : ℕ) : value B (l ++ [d]) = value B l * B + d := by
  have h := value_append (B := B) l [d]
  simpa [value] using h

theorem value_lt (hB : 1 < B) {l : List ℕ} (fits : ∀ d ∈ l, d < B) : value B l < B ^ l.length := by
  have h := Nat.ofDigits_lt_base_pow_length hB (l := l.reverse) (by simpa using fits)
  simpa [value] using h

/-- Where one character stands for each digit, and in the same order, numerals of one length are
ordered as their numbers are. -/
theorem map_lt_map_iff {α : Type*} [LT α] {f : ℕ → α}
    (hf : ∀ d < B, ∀ e < B, (f d < f e ↔ d < e) ∧ (f d = f e ↔ d = e)) {l m : List ℕ}
    (hlength : l.length = m.length) (hl : ∀ d ∈ l, d < B) (hm : ∀ d ∈ m, d < B) :
    l.map f < m.map f ↔ value B l < value B m := by
  induction l generalizing m with
  | nil =>
    obtain rfl := List.length_eq_zero_iff.mp hlength.symm
    simp
  | cons d l ih =>
    cases m with
    | nil => simp at hlength
    | cons e m =>
      have hlengths : l.length = m.length := Nat.succ.inj hlength
      have hd := hl d List.mem_cons_self
      have he := hm e List.mem_cons_self
      have hlower := fun x hx => hl x (List.mem_cons_of_mem d hx)
      have hlower' := fun x hx => hm x (List.mem_cons_of_mem e hx)
      have hB : 1 < B ∨ B = 1 := by omega
      rw [List.map_cons, List.map_cons, List.cons_lt_cons_iff, (hf d hd e he).1, (hf d hd e he).2,
        ih hlengths hlower hlower', value_cons, value_cons, hlengths]
      rcases hB with hB | rfl
      · have hvalue := hlengths ▸ value_lt hB hlower
        have hvalue' := value_lt hB hlower'
        rcases lt_trichotomy d e with hde | rfl | hde
        · have hstep : (d + 1) * B ^ m.length ≤ e * B ^ m.length := Nat.mul_le_mul_right _ hde
          rw [Nat.succ_mul] at hstep
          omega
        · omega
        · have hstep : (e + 1) * B ^ m.length ≤ d * B ^ m.length := Nat.mul_le_mul_right _ hde
          rw [Nat.succ_mul] at hstep
          omega
      · obtain rfl : d = 0 := by omega
        obtain rfl : e = 0 := by omega
        simp

@[simp] theorem lowDigits_length (n v : ℕ) : (lowDigits B n v).length = n := by simp [lowDigits]

theorem lowDigits_lt (hB : 0 < B) {n v d : ℕ} (hd : d ∈ lowDigits B n v) : d < B := by
  obtain ⟨i, -, rfl⟩ := List.mem_map.mp hd
  exact Nat.mod_lt _ hB

theorem lowDigits_succ (n v : ℕ) : lowDigits B (n + 1) v = lowDigits B n (v / B) ++ [v % B] := by
  rw [lowDigits, List.range_succ, List.map_append]
  congr 1
  · apply List.map_congr_left
    intro i hi
    have hexponent : n + 1 - 1 - i = n - 1 - i + 1 := by
      have := List.mem_range.mp hi
      omega
    rw [hexponent, Nat.pow_succ', Nat.div_div_eq_div_mul]
  · simp

theorem value_lowDigits (n v : ℕ) : value B (lowDigits B n v) = v % B ^ n := by
  induction n generalizing v with
  | zero => simp [lowDigits, Nat.mod_one]
  | succ n ih =>
    rw [lowDigits_succ, value_concat, ih, Nat.pow_succ', Nat.mod_mul]
    ring

theorem drop_lowDigits {m n : ℕ} (hmn : m ≤ n) (v : ℕ) :
    (lowDigits B n v).drop (n - m) = lowDigits B m v := by
  apply List.ext_getElem
  · simp
    omega
  · intro i hi _
    have hexponent : n - 1 - (n - m + i) = m - 1 - i := by
      rw [List.length_drop, lowDigits_length] at hi
      omega
    simp [lowDigits, hexponent]

theorem lowDigits_cons (n v : ℕ) :
    lowDigits B (n + 1) v = v / B ^ n % B :: lowDigits B n v := by
  have hdrop := drop_lowDigits (B := B) (Nat.le_succ n) v
  rw [← hdrop, lowDigits, List.range_succ_eq_map, List.map_cons]
  simp

theorem lowDigits_of_lt (hB : 0 < B) {m n v : ℕ} (hmn : m ≤ n) (hv : v < B ^ m) :
    lowDigits B n v = List.replicate (n - m) 0 ++ lowDigits B m v := by
  induction n, hmn using Nat.le_induction with
  | base => simp
  | succ n hmn ih =>
    have hzero : v / B ^ n = 0 :=
      Nat.div_eq_of_lt (lt_of_lt_of_le hv (Nat.pow_le_pow_right hB hmn))
    rw [lowDigits_cons, hzero, ih, Nat.succ_sub hmn, List.replicate_succ, Nat.zero_mod]
    rfl

end Numerals
