import IW4x.Gdk.BlobNames
import IW4x.Win32.PathRules

/-!
# Names as children of their directory

A container is created, and a blob stored, under the path of its name in a directory. `storable`
keeps any name from leaving the directory. What it lets through is stripped of the dots and spaces
that it ends in, so that a name need not be the one of its own file, nor of any.
-/

namespace IW4x.Gdk

open Unicode Win32

section

variable (skip : Bytes → ℕ)

/-- The path of the name stands for a file of just that name in the directory. -/
def NamesChild (d : Path) (n : Bytes) : Prop :=
  ∃ cs, n = utf8 cs ∧ denoted (d.append skip n).value = (directory d.value, .file (utf16 cs))

/-- Two names are those of children of the directory, and of one file only if they differ in no more
than the case of letters, which `fold` takes away. -/
structure ChildNames (fold : UInt16 → UInt16) (d : Path) (a b : Bytes) : Prop where
  first : NamesChild skip d a
  second : NamesChild skip d b
  apart : ∀ dir dir' f g, denoted (d.append skip a).value = (dir, .file f) →
    denoted (d.append skip b).value = (dir', .file g) → f.map fold = g.map fold →
      ∃ cs ds, a = utf8 cs ∧ b = utf8 ds ∧ (utf16 cs).map fold = (utf16 ds).map fold

/-- The name is a string in UTF-8 that ends in neither a dot nor a space. -/
def Unstripped (n : Bytes) : Prop :=
  ∃ cs, n = utf8 cs ∧ ∀ c, cs.getLast? = some c → c ≠ '.' ∧ c ≠ ' '

end

variable (skip : Bytes → ℕ)

theorem not_reserved {n : Bytes} (h : storable n = true) {u : UInt16} (hu : u ∈ convert skip n)
    (ascii : u.toNat < 128) : UInt8.ofNat u.toNat ∉ reserved := by
  simp only [storable, decide_eq_true_eq] at h
  exact h.2.2.2 _ (mem_convert skip hu ascii)

theorem not_separator {n : Bytes} (h : storable n = true) :
    ∀ u ∈ convert skip n, isSeparator u = false := by
  intro u hu
  by_contra hsep
  simp only [isSeparator, Bool.not_eq_false, Bool.or_eq_true, beq_iff_eq] at hsep
  rcases hsep with rfl | rfl
  · exact not_reserved skip h hu (by decide) (by decide)
  · exact not_reserved skip h hu (by decide) (by decide)

theorem not_colon {n : Bytes} (h : storable n = true) : 0x3A ∉ convert skip n := fun hu =>
  not_reserved skip h hu (by decide) (by decide)

theorem convert_ne_dots {n : Bytes} (h : storable n = true) : convert skip n ≠ [0x2E, 0x2E] := by
  intro hdots
  have ascii : ∀ u ∈ convert skip n, u.toNat < 128 := by simp [hdots]
  have hname := eq_of_convert_ascii skip ascii
  rw [hdots] at hname
  simp only [storable, decide_eq_true_eq] at h
  exact h.2.2.1 (hname.trans (by decide +kernel))

theorem joins_separator (d : Wide) : Joins (d ++ separator d) := by
  intro hne
  unfold separator at hne ⊢
  split_ifs at hne ⊢ with h
  · simp [isSeparator, backslash]
  · simp only [List.append_nil] at hne ⊢
    have hlast : d.getLast? = some backslash := by
      by_contra hopen
      exact h ⟨hne, hopen⟩
    rw [List.getLast?_eq_some_getLast hne] at hlast
    rw [Option.some.inj hlast]
    decide

theorem directory_separator (d : Wide) : directory (d ++ separator d) = directory d := by
  apply rdropWhile_append
  intro u hu
  unfold separator at hu
  split_ifs at hu
  · rw [List.mem_singleton.mp hu]
    decide
  · cases hu

theorem denoted_storable {d : Path} {n : Bytes} (h : storable n = true)
    (whole : (d.append skip n).whole = true) :
    denoted (d.append skip n).value = (directory d.value, component (convert skip n)) := by
  have hne : n ≠ [] := by
    rintro rfl
    simp [storable] at h
  rw [d.append_of_whole skip hne whole, under,
    denoted_append (joins_separator d.value) (not_separator skip h), directory_separator]

theorem storable_stays {d : Path} {n : Bytes} (h : storable n = true)
    (whole : (d.append skip n).whole = true) :
    denoted (d.append skip n).value = (directory d.value, .itself) ∨
      ∃ name, denoted (d.append skip n).value = (directory d.value, .file name) := by
  rw [denoted_storable skip h whole]
  rcases component_stays (not_colon skip h) (convert_ne_dots skip h) with hself | ⟨name, hname⟩
  · exact .inl (by rw [hself])
  · exact .inr ⟨name, by rw [hname]⟩

/-- Three dots are stripped to the directory. -/
example : denoted (saves.append (fun _ => 1) (utf8 "...".toList)).value =
    (directory saves.value, .itself) := by
  decide +kernel

/-- A string ends in neither a dot nor a space just where its units do not. -/
theorem last_unstripped (cs : List Char) :
    (∀ u, (utf16 cs).getLast? = some u → isStripped u = false) ↔
      ∀ c, cs.getLast? = some c → c ≠ '.' ∧ c ≠ ' ' := by
  constructor
  · intro hunits c hc
    constructor
    · rintro rfl
      have hlast := (utf16_last (u := 0x2E) (by decide)).mpr ⟨_, hc, rfl⟩
      exact absurd (hunits _ hlast) (by decide)
    · rintro rfl
      have hlast := (utf16_last (u := 0x20) (by decide)).mpr ⟨_, hc, rfl⟩
      exact absurd (hunits _ hlast) (by decide)
  · intro hchars u hu
    by_contra hstripped
    simp only [isStripped, Bool.not_eq_false, Bool.or_eq_true, beq_iff_eq] at hstripped
    rcases hstripped with rfl | rfl
    · obtain ⟨c, hc, hnat⟩ := (utf16_last (by decide)).mp hu
      exact (hchars c hc).1 (Char.toNat_inj.mp hnat)
    · obtain ⟨c, hc, hnat⟩ := (utf16_last (by decide)).mp hu
      exact (hchars c hc).2 (Char.toNat_inj.mp hnat)

theorem namesChild_iff {d : Path} {n : Bytes} (h : storable n = true)
    (whole : (d.append skip n).whole = true) : NamesChild skip d n ↔ Unstripped n := by
  have hdenoted := denoted_storable skip h whole
  have hcolon := not_colon skip h
  have hne : convert skip n ≠ [] := by
    apply convert_ne_nil
    rintro rfl
    simp [storable] at h
  constructor
  · rintro ⟨cs, rfl, hchild⟩
    rw [hdenoted, convert_utf8] at hchild
    rw [convert_utf8] at hcolon hne
    have hself := (component_self hne hcolon).mp (Prod.mk.inj hchild).2
    exact ⟨cs, rfl, (last_unstripped cs).mp hself⟩
  · rintro ⟨cs, rfl, hlast⟩
    rw [convert_utf8] at hcolon hne
    refine ⟨cs, rfl, ?_⟩
    rw [hdenoted, convert_utf8, (component_self hne hcolon).mpr ((last_unstripped cs).mpr hlast)]

/-- Storable names are those of children of the directory if and only if nothing is stripped. -/
theorem childNames_iff (fold : UInt16 → UInt16) {d : Path} {a b : Bytes} (ha : storable a = true)
    (hb : storable b = true) (wholeA : (d.append skip a).whole = true)
    (wholeB : (d.append skip b).whole = true) :
    ChildNames skip fold d a b ↔ Unstripped a ∧ Unstripped b := by
  constructor
  · intro children
    exact ⟨(namesChild_iff skip ha wholeA).mp children.first,
      (namesChild_iff skip hb wholeB).mp children.second⟩
  · rintro ⟨hua, hub⟩
    have hfirst := (namesChild_iff skip ha wholeA).mpr hua
    have hsecond := (namesChild_iff skip hb wholeB).mpr hub
    refine ⟨hfirst, hsecond, ?_⟩
    intro dir dir' f g hf hg hsame
    obtain ⟨cs, hcs, hfile⟩ := hfirst
    obtain ⟨ds, hds, hfile'⟩ := hsecond
    rw [hfile] at hf
    rw [hfile'] at hg
    obtain rfl := Denoted.file.inj (Prod.mk.inj hf).2
    obtain rfl := Denoted.file.inj (Prod.mk.inj hg).2
    exact ⟨cs, ds, hcs, hds, hsame⟩

theorem childNames_iff_settings :
    ChildNames (fun _ => 1) id saves (utf8 "one".toList) (utf8 "two".toList) :=
  (childNames_iff (fun _ => 1) id one_storable two_storable (by decide +kernel)
    (by decide +kernel)).mpr
    ⟨⟨"one".toList, rfl, by simp⟩, ⟨"two".toList, rfl, by simp⟩⟩

/-- A name that ends in a dot is that of the file without it. -/
theorem childNames_stripped :
    ¬ ∀ (skip : Bytes → ℕ) (fold : UInt16 → UInt16) (d : Path) (a b : Bytes), storable a = true →
      storable b = true → (d.append skip a).whole = true → (d.append skip b).whole = true →
        ChildNames skip fold d a b := by
  intro claim
  have children := claim (fun _ => 1) id saves (utf8 "a".toList) (utf8 "a.".toList)
    (by decide +kernel) (by decide +kernel) (by decide +kernel) (by decide +kernel)
  obtain ⟨cs, ds, hcs, hds, hsame⟩ := children.apart (directory saves.value)
    (directory saves.value) (wide "a") (wide "a") (by decide +kernel) (by decide +kernel) rfl
  rw [List.map_id, List.map_id] at hsame
  have heq : utf8 "a".toList = utf8 "a.".toList := by
    rw [hcs, hds, utf16_injective hsame]
  revert heq
  decide +kernel

end IW4x.Gdk
