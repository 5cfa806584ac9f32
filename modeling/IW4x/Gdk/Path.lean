import IW4x.Lib.Unicode

/-!
# Paths and files

A path has room for 511 units and drops what does not fit, which only `whole` tells. The file system
below it knows files by their exact paths; whether a call of it succeeds is for the caller of the
model to say, within what the path allows.
-/

namespace IW4x.Gdk

open Unicode

/-- The units of a wide string. -/
abbrev Wide := List UInt16

/-- The bytes of a string in UTF-8, or of a file. -/
abbrev Bytes := List UInt8

def backslash : UInt16 := 0x5C

/-- `text<N>`: what was written, as far as it fits before the terminator. -/
def text (limit : ℕ) (written : Bytes) : Bytes := written.take (limit - 1)

/-- The units of an ASCII literal. -/
def wide (s : String) : Wide := utf16 s.toList

structure Path where
  value : Wide
  truncated : Bool
  fits : value.length < 512

namespace Path

def capacity : ℕ := 512

variable (skip : Bytes → ℕ)

/-- A path that holds nothing. -/
def empty : Path := ⟨[], false, by decide⟩

def whole (p : Path) : Bool := !p.truncated

def extend (p : Path) (w : Wide) : Path where
  value := p.value ++ w.take (511 - p.value.length)
  truncated := p.truncated || decide (511 - p.value.length < w.length)
  fits := by
    have := p.fits
    simp only [List.length_append, List.length_take]
    omega

/-- `extend`, with a text in UTF-8. `MultiByteToWideChar` fails where its output does not fit. -/
def extendText (p : Path) (t : Bytes) : Path :=
  if t = [] then p
  else
    let w := convert skip t
    if w = [] ∨ capacity < w.length then { p with truncated := true } else p.extend w

/-- The separator that `append` puts first. -/
def separated (p : Path) : Path :=
  if p.value ≠ [] ∧ p.value.getLast? ≠ some backslash then p.extend [backslash] else p

/-- `append`, with a text in UTF-8. -/
def append (p : Path) (t : Bytes) : Path := p.separated.extendText skip t

/-- `append`, with wide characters. -/
def appendWide (p : Path) (w : Wide) : Path := p.separated.extend w

end Path

/-- What `append` puts between a directory and a name. -/
def separator (d : Wide) : Wide :=
  if d ≠ [] ∧ d.getLast? ≠ some backslash then [backslash] else []

/-- The path of a name in a directory, of any length. -/
def under (d name : Wide) : Wide := d ++ separator d ++ name

/-! ## Files -/

/-- What the file system holds: the files by their paths, and the directories. -/
structure FileSystem where
  files : Wide → Option Bytes
  directory : Wide → Bool

namespace FileSystem

/-- A path that a file can be opened by. A directory is no file, and a path that ends in a separator
names none. -/
def mayOpen (fs : FileSystem) (p : Wide) : Bool :=
  decide (p ≠ [] ∧ p.getLast? ≠ some backslash) && !fs.directory p

def put (fs : FileSystem) (p : Wide) (data : Bytes) : FileSystem :=
  { fs with files := Function.update fs.files p (some data) }

def remove (fs : FileSystem) (p : Wide) : FileSystem :=
  { fs with files := Function.update fs.files p none }

def makeDirectory (fs : FileSystem) (p : Wide) : FileSystem :=
  { fs with directory := Function.update fs.directory p true }

/-- `CreateFileW` with `CREATE_ALWAYS`. -/
def createAlways (fs : FileSystem) (p : Wide) (ok : Bool) : Option FileSystem :=
  if fs.mayOpen p ∧ ok then some (fs.put p []) else none

/-- `MoveFileExW` with `MOVEFILE_REPLACE_EXISTING`. -/
def moveReplace (fs : FileSystem) (src dst : Wide) (ok : Bool) : Option FileSystem :=
  match fs.files src with
  | none => none
  | some data => if fs.mayOpen dst ∧ ok then some ((fs.remove src).put dst data) else none

/-- `CreateFileW` with `OPEN_EXISTING`, and the whole content: `none` where it fails, and an empty
answer within where there is no such file. -/
def openRead (fs : FileSystem) (p : Wide) (ok : Bool) : Option (Option Bytes) :=
  if fs.mayOpen p ∧ ok then some (fs.files p) else none

@[simp] theorem put_files_self (fs : FileSystem) (p : Wide) (data : Bytes) :
    (fs.put p data).files p = some data := by
  simp [put]

theorem put_files_of_ne (fs : FileSystem) {p q : Wide} (data : Bytes) (h : q ≠ p) :
    (fs.put p data).files q = fs.files q := by
  simp [put, h]

@[simp] theorem remove_files_self (fs : FileSystem) (p : Wide) : (fs.remove p).files p = none := by
  simp [remove]

theorem remove_files_of_ne (fs : FileSystem) {p q : Wide} (h : q ≠ p) :
    (fs.remove p).files q = fs.files q := by
  simp [remove, h]

@[simp] theorem put_directory (fs : FileSystem) (p : Wide) (data : Bytes) :
    (fs.put p data).directory = fs.directory := rfl

@[simp] theorem remove_directory (fs : FileSystem) (p : Wide) :
    (fs.remove p).directory = fs.directory := rfl

@[simp] theorem put_mayOpen (fs : FileSystem) (p q : Wide) (data : Bytes) :
    (fs.put p data).mayOpen q = fs.mayOpen q := rfl

theorem createAlways_eq_some {fs fs' : FileSystem} {p : Wide} {ok : Bool}
    (h : fs.createAlways p ok = some fs') : fs.mayOpen p = true ∧ ok = true ∧ fs' = fs.put p [] := by
  unfold createAlways at h
  split_ifs at h with hmay
  exact ⟨hmay.1, hmay.2, (Option.some.inj h).symm⟩

theorem moveReplace_put (fs : FileSystem) (src dst : Wide) (data : Bytes) (ok : Bool) :
    (fs.put src data).moveReplace src dst ok =
      if (fs.mayOpen dst && ok) = true then some (((fs.put src data).remove src).put dst data)
      else none := by
  simp only [moveReplace, put_files_self, Bool.and_eq_true]
  rfl

end FileSystem

/-- `file::write`: what of the data is written, and whether it all is. The answers are those of
`WriteFile`, a number of bytes or a failure; after them every call writes what it is asked to. -/
def writeFile : List (Option ℕ) → Bytes → Bytes × Bool
  | [], data => (data, true)
  | _ :: _, [] => ([], true)
  | none :: _, _ :: _ => ([], false)
  | some w :: answers, b :: data =>
    let n := min w (min (b :: data).length 0x10000000)
    if n = 0 then ([], false)
    else
      let rest := writeFile answers ((b :: data).drop n)
      ((b :: data).take n ++ rest.1, rest.2)

theorem writeFile_true {answers : List (Option ℕ)} {data : Bytes}
    (h : (writeFile answers data).2 = true) : (writeFile answers data).1 = data := by
  induction answers generalizing data with
  | nil => rfl
  | cons a answers ih =>
    cases data with
    | nil => rfl
    | cons b data =>
      cases a with
      | none => simp [writeFile] at h
      | some w =>
        simp only [writeFile] at h ⊢
        split_ifs at h ⊢ with hzero
        dsimp only at h ⊢
        rw [ih h, List.take_append_drop]

/-! ## What a path comes to -/

namespace Path

variable (skip : Bytes → ℕ)

theorem extend_value (p : Path) (w : Wide) : (p.extend w).value = (p.value ++ w).take 511 := by
  have := p.fits
  rw [List.take_append, List.take_of_length_le (by omega)]
  rfl

theorem take_append_take {α : Type*} (n : ℕ) (v w : List α) :
    (v.take n ++ w).take n = (v ++ w).take n := by
  rcases Nat.le_total v.length n with h | h
  · rw [List.take_of_length_le h]
  · rw [List.take_append_of_le_length (by simp [h]), List.take_append_of_le_length h,
      List.take_take, Nat.min_self]

theorem separated_value (p : Path) :
    p.separated.value = (p.value ++ separator p.value).take 511 := by
  unfold separated separator
  split_ifs with h
  · exact p.extend_value _
  · have := p.fits
    rw [List.append_nil, List.take_of_length_le (by omega)]

theorem append_value (p : Path) {t : Bytes} (h : t ≠ []) (short : t.length ≤ capacity) :
    (p.append skip t).value = (under p.value (convert skip t)).take 511 := by
  have hlength := convert_length_le skip t
  have hconverted : ¬ (convert skip t = [] ∨ capacity < (convert skip t).length) := by
    rintro (hnil | hlong)
    · exact convert_ne_nil skip h hnil
    · omega
  rw [append, extendText, if_neg h]
  dsimp only
  rw [if_neg hconverted, extend_value, separated_value, take_append_take, under]

theorem extend_of_whole {p : Path} {w : Wide} (h : (p.extend w).whole = true) :
    p.whole = true ∧ (p.extend w).value = p.value ++ w := by
  simp only [whole, extend, Bool.not_eq_true', Bool.or_eq_false_iff,
    decide_eq_false_iff_not, not_lt] at h ⊢
  exact ⟨h.1, by rw [List.take_of_length_le h.2]⟩

theorem separated_of_whole {p : Path} (h : p.separated.whole = true) :
    p.separated.value = p.value ++ separator p.value := by
  unfold separated at h ⊢
  unfold separator
  split_ifs at h ⊢ with hsep
  · exact (extend_of_whole h).2
  · exact (List.append_nil _).symm

theorem append_of_whole {p : Path} {t : Bytes} (h : t ≠ [])
    (whole : (p.append skip t).whole = true) :
    (p.append skip t).value = under p.value (convert skip t) := by
  rw [append, extendText, if_neg h] at whole ⊢
  dsimp only at whole ⊢
  split_ifs at whole ⊢ with hconverted
  · simp [Path.whole] at whole
  · obtain ⟨hseparated, hvalue⟩ := extend_of_whole whole
    rw [hvalue, separated_of_whole hseparated, under]

theorem appendWide_value (p : Path) (w : Wide) :
    (p.appendWide w).value = (under p.value w).take 511 := by
  rw [appendWide, extend_value, separated_value, take_append_take, under]

end Path

end IW4x.Gdk
