import IW4x.Lib.Numerals
import Mathlib.Order.CompletePartialOrder

/-!
# Raw memory

Memory is a map from addresses to bytes. A list is written from an address on, and what is outside
of it stays. Spans that follow each other do not meet and leave nothing out.
-/

namespace RawMemory

abbrev Mem := ℕ → UInt8

/-- The addresses of `n` bytes from `a` on. -/
def span (a n : ℕ) : Set ℕ := Set.Ico a (a + n)

def write (m : Mem) (a : ℕ) (l : List UInt8) : Mem := fun x =>
  if a ≤ x then (l[x - a]?).getD (m x) else m x

/-- The list is in memory from the address on. -/
def Holds (m : Mem) (a : ℕ) (l : List UInt8) : Prop := ∀ i (h : i < l.length), m (a + i) = l[i]

/-- Nothing is different outside of the addresses. -/
def Changes (s : Set ℕ) (m m' : Mem) : Prop := ∀ x, x ∉ s → m' x = m x

/-- The `n` bytes from the address on. -/
def read (m : Mem) (a n : ℕ) : List UInt8 := (List.range n).map fun i => m (a + i)

/-- A number in `k` bytes, the lowest first. -/
def littleEndian (k v : ℕ) : List UInt8 := (Numerals.lowDigits 256 k v).reverse.map UInt8.ofNat

/-- The number in the `k` bytes from the address on. -/
def word (m : Mem) (a k : ℕ) : ℕ :=
  Nat.ofDigits 256 ((List.range k).map fun i => (m (a + i)).toNat)

@[simp] theorem mem_span {a n x : ℕ} : x ∈ span a n ↔ a ≤ x ∧ x < a + n := Set.mem_Ico

theorem span_subset {a b n k : ℕ} (hlow : b ≤ a) (hhigh : a + n ≤ b + k) : span a n ⊆ span b k :=
  Set.Ico_subset_Ico hlow hhigh

theorem span_disjoint {a b n k : ℕ} (apart : a + n ≤ b ∨ b + k ≤ a) :
    Disjoint (span a n) (span b k) := by
  apply Set.disjoint_left.mpr
  intro x hx hx'
  rw [mem_span] at hx hx'
  omega

@[simp] theorem littleEndian_length (k v : ℕ) : (littleEndian k v).length = k := by
  simp [littleEndian]

/-! ## Writing -/

theorem write_changes (m : Mem) (a : ℕ) (l : List UInt8) :
    Changes (span a l.length) m (write m a l) := by
  intro x hx
  rw [mem_span] at hx
  rw [write]
  split_ifs with ha
  · rw [List.getElem?_eq_none (by omega), Option.getD_none]
  · rfl

theorem write_holds (m : Mem) (a : ℕ) (l : List UInt8) : Holds (write m a l) a l := by
  intro i hi
  rw [write, if_pos (Nat.le_add_right a i), Nat.add_sub_cancel_left, List.getElem?_eq_getElem hi,
    Option.getD_some]

theorem write_nil (m : Mem) (a : ℕ) : write m a [] = m := by
  funext x
  simp [write]

theorem write_write (m : Mem) (a : ℕ) (l l' : List UInt8) :
    write (write m a l) (a + l.length) l' = write m a (l ++ l') := by
  funext x
  simp only [write]
  by_cases ha : a ≤ x
  · rw [if_pos ha, if_pos ha, List.getElem?_append]
    by_cases hlt : x - a < l.length
    · rw [if_neg (by omega), if_pos hlt]
    · have hindex : x - (a + l.length) = x - a - l.length := by omega
      rw [if_pos (by omega), if_neg hlt, hindex, List.getElem?_eq_none (not_lt.mp hlt),
        Option.getD_none]
  · rw [if_neg (by omega), if_neg ha, if_neg ha]

theorem Changes.refl (s : Set ℕ) (m : Mem) : Changes s m m := fun _ _ => rfl

theorem Changes.mono {s t : Set ℕ} {m m' : Mem} (h : Changes s m m') (hst : s ⊆ t) :
    Changes t m m' := fun x hx => h x fun hs => hx (hst hs)

theorem write_within (m : Mem) {a b n : ℕ} {l : List UInt8} (hlow : b ≤ a)
    (hhigh : a + l.length ≤ b + n) : Changes (span b n) m (write m a l) :=
  (write_changes m a l).mono (span_subset hlow hhigh)

theorem Changes.trans {s : Set ℕ} {m m' m'' : Mem} (h : Changes s m m') (h' : Changes s m' m'') :
    Changes s m m'' := by
  intro x hx
  rw [h' x hx, h x hx]

theorem Holds.kept {s : Set ℕ} {m m' : Mem} {a : ℕ} {l : List UInt8} (h : Holds m a l)
    (changes : Changes s m m') (apart : Disjoint s (span a l.length)) : Holds m' a l := by
  intro i hi
  have hout : a + i ∉ s := fun hs =>
    Set.disjoint_left.mp apart hs (mem_span.mpr ⟨by omega, by omega⟩)
  rw [changes _ hout, h i hi]

theorem Holds.beside {m : Mem} {a b : ℕ} {l l' : List UInt8} (h : Holds m a l)
    (apart : b + l'.length ≤ a ∨ a + l.length ≤ b) : Holds (write m b l') a l := by
  exact h.kept (write_changes m b l') (span_disjoint apart)

theorem holds_append {m : Mem} {a : ℕ} {l l' : List UInt8} :
    Holds m a (l ++ l') ↔ Holds m a l ∧ Holds m (a + l.length) l' := by
  constructor
  · intro h
    constructor
    · intro i hi
      rw [h i (by rw [List.length_append]; omega), List.getElem_append_left hi]
    · intro i hi
      rw [Nat.add_assoc, h (l.length + i) (by rw [List.length_append]; omega),
        List.getElem_append_right (by omega)]
      simp
  · rintro ⟨h, h'⟩ i hi
    rcases Nat.lt_or_ge i l.length with hlt | hge
    · rw [h i hlt, List.getElem_append_left hlt]
    · have hrest := h' (i - l.length) (by rw [List.length_append] at hi; omega)
      rw [List.getElem_append_right hge, ← hrest, Nat.add_assoc, Nat.add_sub_cancel' hge]

theorem Holds.read {m : Mem} {a : ℕ} {l : List UInt8} (h : Holds m a l) :
    RawMemory.read m a l.length = l := by
  apply List.ext_getElem
  · simp [RawMemory.read]
  · intro i hi hi'
    simp only [RawMemory.read, List.getElem_map, List.getElem_range]
    exact h i hi'

theorem Holds.word {m : Mem} {a k v : ℕ} (h : Holds m a (littleEndian k v)) :
    word m a k = v % 256 ^ k := by
  have hdigits : ((List.range k).map fun i => (m (a + i)).toNat) =
      (Numerals.lowDigits 256 k v).reverse := by
    apply List.ext_getElem
    · simp
    · intro i hi hi'
      have hk : i < k := by simpa using hi
      have hbyte := h i (by simpa using hk)
      have hlt : (Numerals.lowDigits 256 k v).reverse[i] < 256 := by
        apply Numerals.lowDigits_lt (by norm_num)
        exact List.mem_reverse.mp (List.getElem_mem hi')
      simp only [List.getElem_map, List.getElem_range, hbyte, littleEndian, UInt8.toNat_ofNat']
      exact Nat.mod_eq_of_lt hlt
  rw [RawMemory.word, hdigits, ← Numerals.value_lowDigits]
  rfl

/-! ## Spans that follow each other -/

/-- Spans of the lengths, each from the end of the one before. -/
def tiles : ℕ → List ℕ → List (Set ℕ)
  | _, [] => []
  | a, n :: ns => span a n :: tiles (a + n) ns

theorem tiles_above {a : ℕ} {ns : List ℕ} {s : Set ℕ} (hs : s ∈ tiles a ns) {x : ℕ} (hx : x ∈ s) :
    a ≤ x := by
  induction ns generalizing a with
  | nil => cases hs
  | cons n ns ih =>
    rcases List.mem_cons.mp hs with rfl | hs
    · exact (mem_span.mp hx).1
    · exact (Nat.le_add_right a n).trans (ih hs)

theorem tiles_pairwise (a : ℕ) (ns : List ℕ) : (tiles a ns).Pairwise Disjoint := by
  induction ns generalizing a with
  | nil => exact .nil
  | cons n ns ih =>
    refine .cons ?_ (ih (a + n))
    intro s hs
    apply Set.disjoint_left.mpr
    intro x hx hx'
    have habove := tiles_above hs hx'
    have hbelow := (mem_span.mp hx).2
    omega

theorem mem_tiles {a x : ℕ} {ns : List ℕ} :
    (∃ s ∈ tiles a ns, x ∈ s) ↔ a ≤ x ∧ x < a + ns.sum := by
  induction ns generalizing a with
  | nil => simp [tiles]
  | cons n ns ih =>
    simp only [tiles, List.exists_mem_cons_iff, ih, mem_span, List.sum_cons]
    omega

end RawMemory
