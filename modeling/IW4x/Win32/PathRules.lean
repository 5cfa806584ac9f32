import Mathlib.Data.List.DropRight
import Mathlib.Tactic

/-!
# The last component of a path

Both slashes separate, a colon names a stream of a file, and the dots and spaces that a component
ends in are stripped. What is left of a component is the name of a file in the directory before it,
unless nothing is left.
-/

namespace IW4x.Win32

/-- `/` and `\`. -/
def isSeparator (u : UInt16) : Bool := u == 0x2F || u == 0x5C

/-- A dot or a space. -/
def isStripped (u : UInt16) : Bool := u == 0x2E || u == 0x20

/-- What a component of a path stands for. -/
inductive Denoted where
  /-- The directory that the component is looked up in. -/
  | itself
  | parent
  | file (name : List UInt16)
  /-- A stream of some file. -/
  | stream
  deriving DecidableEq

def component (w : List UInt16) : Denoted :=
  if 0x3A ∈ w then .stream
  else if w = [0x2E, 0x2E] then .parent
  else if w.rdropWhile isStripped = [] then .itself
  else .file (w.rdropWhile isStripped)

/-- A directory, however many separators it is written with at its end. -/
def directory (d : List UInt16) : List UInt16 := d.rdropWhile isSeparator

/-- The directory of the last component, and what the component stands for there. -/
def denoted (p : List UInt16) : List UInt16 × Denoted :=
  (directory (p.rdropWhile fun u => !isSeparator u),
    component (p.rtakeWhile fun u => !isSeparator u))

/-- A directory that a component can be put right behind. -/
def Joins (d : List UInt16) : Prop := ∀ h : d ≠ [], isSeparator (d.getLast h) = true

/-! ## Taking a path apart -/

theorem rdropWhile_append {α : Type*} (q : α → Bool) (l w : List α) (h : ∀ a ∈ w, q a = true) :
    (l ++ w).rdropWhile q = l.rdropWhile q := by
  induction w using List.reverseRecOn with
  | nil => rw [List.append_nil]
  | append_singleton w a ih =>
    rw [← List.append_assoc, List.rdropWhile_concat_pos _ _ _ (h a (by simp))]
    apply ih
    intro b hb
    exact h b (List.mem_append_left _ hb)

theorem rtakeWhile_append {α : Type*} (q : α → Bool) (l w : List α) (h : ∀ a ∈ w, q a = true) :
    (l ++ w).rtakeWhile q = l.rtakeWhile q ++ w := by
  induction w using List.reverseRecOn with
  | nil => simp
  | append_singleton w a ih =>
    rw [← List.append_assoc, List.rtakeWhile_concat_pos _ _ _ (h a (by simp)), ih,
      List.append_assoc]
    intro b hb
    exact h b (List.mem_append_left _ hb)

theorem denoted_append {d w : List UInt16} (joins : Joins d)
    (plain : ∀ u ∈ w, isSeparator u = false) : denoted (d ++ w) = (directory d, component w) := by
  have hplain : ∀ u ∈ w, (!isSeparator u) = true := by
    intro u hu
    simp [plain u hu]
  have hkept : d.rdropWhile (fun u => !isSeparator u) = d := by
    apply List.rdropWhile_eq_self_iff.mpr
    intro hd
    simp [joins hd]
  have hnone : d.rtakeWhile (fun u => !isSeparator u) = [] := by
    apply List.rtakeWhile_eq_nil_iff.mpr
    intro hd
    simp [joins hd]
  rw [denoted, rdropWhile_append _ _ _ hplain, rtakeWhile_append _ _ _ hplain, hkept, hnone,
    List.nil_append]

/-! ## What a component stands for -/

/-- A component that names no stream is the file of its own name where nothing is stripped. -/
theorem component_self {w : List UInt16} (hne : w ≠ []) (colon : 0x3A ∉ w) :
    component w = .file w ↔ ∀ u, w.getLast? = some u → isStripped u = false := by
  have hlast : (∀ u, w.getLast? = some u → isStripped u = false) ↔
      isStripped (w.getLast hne) = false := by
    rw [List.getLast?_eq_some_getLast hne]
    simp
  rw [hlast]
  constructor
  · intro hself
    simp only [component, if_neg colon] at hself
    split_ifs at hself with hparent hstripped
    have hkept := List.rdropWhile_eq_self_iff.mp (Denoted.file.inj hself) hne
    simpa using hkept
  · intro hkept
    have hwhole : w.rdropWhile isStripped = w := by
      apply List.rdropWhile_eq_self_iff.mpr
      intro _
      simp [hkept]
    have hparent : w ≠ [0x2E, 0x2E] := by
      rintro rfl
      simp [isStripped] at hkept
    rw [component, if_neg colon, if_neg hparent, hwhole, if_neg hne]

theorem component_stays {w : List UInt16} (colon : 0x3A ∉ w) (parent : w ≠ [0x2E, 0x2E]) :
    component w = .itself ∨ ∃ name, component w = .file name := by
  rw [component, if_neg colon, if_neg parent]
  split_ifs
  · exact .inl rfl
  · exact .inr ⟨_, rfl⟩

end IW4x.Win32
