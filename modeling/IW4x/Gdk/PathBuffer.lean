import Mathlib.Data.List.DropRight
import IW4x.Gdk.Path

/-!
# The buffer of a path

A path is an array of 512 units, of which the first `size` are its value and the next one ends it.
Each operation writes within the array. As long as nothing was dropped, the value is the one that the
same operations build without a limit; and what was dropped is known until the path is cleared.
-/

namespace IW4x.Gdk

open Unicode

def colon : UInt16 := 0x3A
def slash : UInt16 := 0x2F

/-- A path as the source has it. A value of another length than that of the array cannot be built, so
that no operation writes past its end. -/
structure PathBuffer where
  /-- `value_`. -/
  value : Wide
  /-- `size_`. -/
  size : ℕ
  /-- `truncated_`. -/
  truncated : Bool
  room : value.length = 512
  fits : size < 512
  ended : value[size]? = some 0

/-- `MultiByteToWideChar` for UTF-8, with the bytes from a pointer, their number and the room for the
units; `none` where it fails. It fails where its output does not fit. -/
structure Conversion where
  call : Bytes → ℤ → ℕ → Option Wide
  units : Bytes → Wide
  call_eq : ∀ t room, t ≠ [] → t.length < 2 ^ 31 → 0 < room →
    call t t.length room = if (units t).length ≤ room then some (units t) else none

/-- What `wcslen` counts. -/
def wideString (w : Wide) : Wide := w.takeWhile (· ≠ 0)

/-- An array with the list from a place on. -/
def overwrite (v : Wide) (i : ℕ) (l : Wide) : Wide := v.take i ++ l ++ v.drop (i + l.length)

theorem overwrite_length {v : Wide} {i : ℕ} {l : Wide} (h : i + l.length ≤ v.length) :
    (overwrite v i l).length = v.length := by
  simp only [overwrite, List.length_append, List.length_take, List.length_drop]
  omega

theorem overwrite_take {v : Wide} {i : ℕ} {l : Wide} (h : i ≤ v.length) :
    (overwrite v i l).take (i + l.length) = v.take i ++ l := by
  have hlength : (v.take i ++ l).length = i + l.length := by
    rw [List.length_append, List.length_take, Nat.min_eq_left h]
  rw [overwrite, ← hlength, List.take_left]

theorem overwrite_before {v : Wide} {i : ℕ} {l : Wide} (h : i ≤ v.length) :
    (overwrite v i l).take i = v.take i := by
  rw [overwrite, List.append_assoc]
  exact List.take_left' (by rw [List.length_take, Nat.min_eq_left h])

theorem overwrite_end {v : Wide} {i : ℕ} (h : i < v.length) : (overwrite v i [0])[i]? = some 0 := by
  rw [overwrite, List.append_assoc, List.getElem?_append_right (by simp)]
  simp [Nat.min_eq_left h.le]

namespace PathBuffer

/-- The first loop of `to_directory`: the size up to the last separator. -/
def toSeparator (v : Wide) : ℕ → ℕ
  | 0 => 0
  | n + 1 => if v[n]? ≠ some backslash then toSeparator v n else n + 1

/-- The second loop of `to_directory`: the size without the separators at the end, the first unit
apart. -/
def dropSeparators (v : Wide) : ℕ → ℕ
  | 0 => 0
  | 1 => 1
  | n + 2 => if v[n + 1]? = some backslash then dropSeparators v (n + 1) else n + 2

theorem toSeparator_le (v : Wide) (n : ℕ) : toSeparator v n ≤ n := by
  induction n with
  | zero => exact le_rfl
  | succ n ih =>
    rw [toSeparator]
    split_ifs
    · exact ih.trans n.le_succ
    · exact le_rfl

theorem dropSeparators_le (v : Wide) (n : ℕ) : dropSeparators v n ≤ n := by
  induction n with
  | zero => exact le_rfl
  | succ n ih =>
    cases n with
    | zero => exact le_rfl
    | succ n =>
      rw [dropSeparators]
      split_ifs
      · exact ih.trans (Nat.le_succ _)
      · exact le_rfl

def view (p : PathBuffer) : Wide := p.value.take p.size

def whole (p : PathBuffer) : Bool := !p.truncated

def clear (p : PathBuffer) : PathBuffer where
  value := overwrite p.value 0 [0]
  size := 0
  truncated := false
  room := by
    have := p.room
    rw [overwrite_length (by simp; omega), p.room]
  fits := by decide
  ended := overwrite_end (by have := p.room; omega)

/-- A path over an array that holds anything. -/
def empty (garbage : Wide) (h : garbage.length = 512) : PathBuffer where
  value := overwrite garbage 0 [0]
  size := 0
  truncated := false
  room := by rw [overwrite_length (by simp; omega), h]
  fits := by decide
  ended := overwrite_end (by omega)

/-- `extend`, with so many wide characters, and what it answers. -/
def extendUnits (p : PathBuffer) (w : Option Wide) : PathBuffer × Bool :=
  match w with
  | none => (p, p.whole)
  | some w =>
    if w.length = 0 then (p, p.whole)
    else
      let room := 512 - p.size - 1
      let n := if w.length > room then room else w.length
      have hlength : (w.take n).length = n := by
        rw [List.length_take]
        dsimp only [n]
        split_ifs <;> omega
      have hn : p.size + n < 512 := by
        have := p.fits
        dsimp only [n, room]
        split_ifs <;> omega
      have hroom : (overwrite p.value p.size (w.take n)).length = 512 := by
        rw [overwrite_length (by rw [hlength, p.room]; omega), p.room]
      let q : PathBuffer :=
        { value := overwrite (overwrite p.value p.size (w.take n)) (p.size + n) [0]
          size := p.size + n
          truncated := p.truncated || decide (w.length > room)
          room := by rw [overwrite_length (by rw [hroom, List.length_singleton]; omega), hroom]
          fits := hn
          ended := overwrite_end (by rw [hroom]; exact hn) }
      (q, q.whole)

def extend (p : PathBuffer) (w : Option Wide) : PathBuffer × Bool :=
  match w with
  | none => (p, p.whole)
  | some w => p.extendUnits (some (wideString w))

/-- `extend`, with a text in UTF-8. -/
def extendText (conv : Conversion) (p : PathBuffer) (t : Bytes) : PathBuffer × Bool :=
  if t = [] then (p, p.whole)
  else
    match conv.call t (BitVec.ofNat 32 t.length).toInt 512 with
    | none => ({ p with truncated := true }, false)
    | some [] => ({ p with truncated := true }, false)
    | some w => p.extendUnits (some w)

/-- The separator that `append` puts first. -/
def separated (p : PathBuffer) : PathBuffer :=
  if p.size ≠ 0 ∧ p.value[p.size - 1]? ≠ some backslash then (p.extendUnits (some [backslash])).1
  else p

def append (p : PathBuffer) (w : Option Wide) : PathBuffer × Bool := p.separated.extend w

/-- `append`, with a text in UTF-8. -/
def appendText (conv : Conversion) (p : PathBuffer) (t : Bytes) : PathBuffer × Bool :=
  p.separated.extendText conv t

def toDirectory (p : PathBuffer) : PathBuffer :=
  let n := dropSeparators p.value (toSeparator p.value p.size)
  have hn : n < 512 :=
    lt_of_le_of_lt ((dropSeparators_le _ _).trans (toSeparator_le _ _)) p.fits
  { value := overwrite p.value n [0]
    size := n
    truncated := p.truncated
    room := by rw [overwrite_length (by rw [p.room, List.length_singleton]; omega), p.room]
    fits := hn
    ended := overwrite_end (by rw [p.room]; exact hn) }

end PathBuffer

/-! ## Operations -/

inductive PathOp where
  | extend (w : Option Wide)
  | extendUnits (w : Option Wide)
  | extendText (t : Bytes)
  | append (w : Option Wide)
  | appendText (t : Bytes)
  | clear
  | toDirectory

namespace PathOp

/-- The number of units of the piece that is put behind the path. -/
def length : PathOp → ℕ
  | .extend w | .extendUnits w | .append w => (w.getD []).length
  | .extendText t | .appendText t => t.length
  | .clear | .toDirectory => 0

def run (conv : Conversion) (p : PathBuffer) : PathOp → PathBuffer
  | .extend w => (p.extend w).1
  | .extendUnits w => (p.extendUnits w).1
  | .extendText t => (p.extendText conv t).1
  | .append w => (p.append w).1
  | .appendText t => (p.appendText conv t).1
  | .clear => p.clear
  | .toDirectory => p.toDirectory

end PathOp

/-- The directory of a path: what comes before the last separator, without the separators at its end
but for the first unit. -/
def directoryOf (v : Wide) : Wide :=
  let d := v.rdropWhile (· ≠ backslash)
  let e := d.rdropWhile (· = backslash)
  if e = [] then d.take 1 else e

/-- The operation on a path without a limit. -/
def PathOp.unbounded (units : Bytes → Wide) (v : Wide) : PathOp → Wide
  | .extend w => v ++ wideString (w.getD [])
  | .extendUnits w => v ++ w.getD []
  | .extendText t => v ++ if t = [] then [] else units t
  | .append w => under v (wideString (w.getD []))
  | .appendText t => under v (if t = [] then [] else units t)
  | .clear => []
  | .toDirectory => directoryOf v

/-! ## One operation -/

namespace PathBuffer

variable {p : PathBuffer} {w : Wide}

theorem view_length (p : PathBuffer) : p.view.length = p.size := by
  have hroom := p.room
  have hfits := p.fits
  rw [view, List.length_take]
  omega

theorem extendUnits_view (p : PathBuffer) (w : Wide) :
    (p.extendUnits (some w)).1.view = p.view ++ w.take (511 - p.size) := by
  have hroom := p.room
  have hfits := p.fits
  by_cases hw : w.length = 0
  · obtain rfl := List.length_eq_zero_iff.mp hw
    simp [extendUnits]
  · simp only [extendUnits, hw, if_false, view]
    have hn : (if w.length > 512 - p.size - 1 then 512 - p.size - 1 else w.length) =
        min w.length (511 - p.size) := by
      split_ifs <;> omega
    have htake : w.take (min w.length (511 - p.size)) = w.take (511 - p.size) := by
      rw [List.take_eq_take_iff]
      omega
    have hlength : (w.take (511 - p.size)).length = min w.length (511 - p.size) := by
      rw [List.length_take, Nat.min_comm]
    have hwritten : (overwrite p.value p.size (w.take (511 - p.size))).length = 512 := by
      rw [overwrite_length (by omega), hroom]
    rw [hn, htake, ← hlength, overwrite_before (by omega), overwrite_take (by omega)]

theorem extendUnits_whole (p : PathBuffer) (w : Wide) :
    (p.extendUnits (some w)).1.whole = (p.whole && decide (w.length ≤ 511 - p.size)) := by
  by_cases hw : w.length = 0
  · simp [extendUnits, hw]
  · have hroom : 512 - p.size - 1 = 511 - p.size := by omega
    simp only [extendUnits, hw, if_false, whole, Bool.not_or, hroom, gt_iff_lt, ← decide_not, not_lt]

/-- Where nothing is missing after an operation, nothing was before it, and the piece is all there. -/
def Adds (p q : PathBuffer) (piece : Wide) : Prop :=
  q.whole = true → p.whole = true ∧ q.view = p.view ++ piece

theorem Adds.refl (p : PathBuffer) : Adds p p [] := fun h => ⟨h, (List.append_nil _).symm⟩

theorem Adds.trans {q r : PathBuffer} {a b : Wide} (h : Adds p q a) (h' : Adds q r b) :
    Adds p r (a ++ b) := by
  intro hwhole
  obtain ⟨hq, hview⟩ := h' hwhole
  obtain ⟨hp, hfirst⟩ := h hq
  exact ⟨hp, by rw [hview, hfirst, List.append_assoc]⟩

theorem extendUnits_adds (p : PathBuffer) (w : Option Wide) :
    Adds p (p.extendUnits w).1 (w.getD []) := by
  cases w with
  | none => exact Adds.refl p
  | some w =>
    intro hwhole
    rw [extendUnits_whole, Bool.and_eq_true, decide_eq_true_eq] at hwhole
    exact ⟨hwhole.1, by rw [extendUnits_view, List.take_of_length_le hwhole.2, Option.getD_some]⟩

theorem extend_adds (p : PathBuffer) (w : Option Wide) :
    Adds p (p.extend w).1 (wideString (w.getD [])) := by
  cases w with
  | none => exact Adds.refl p
  | some w => exact extendUnits_adds p (some (wideString w))

theorem length_int {t : Bytes} (ht : t.length < 2 ^ 31) :
    (BitVec.ofNat 32 t.length).toInt = t.length := by
  have hnat : (BitVec.ofNat 32 t.length).toNat = t.length := Nat.mod_eq_of_lt (by omega)
  rw [BitVec.toInt_eq_toNat_of_lt (by omega), hnat]

theorem extendText_adds (conv : Conversion) (p : PathBuffer) {t : Bytes} (ht : t.length < 2 ^ 31) :
    Adds p (p.extendText conv t).1 (if t = [] then [] else conv.units t) := by
  by_cases hnil : t = []
  · rw [if_pos hnil, extendText, if_pos hnil]
    exact Adds.refl p
  · rw [if_neg hnil, extendText, if_neg hnil, length_int ht,
      conv.call_eq t 512 hnil ht (by norm_num)]
    have hfailed (piece : Wide) : Adds p { p with truncated := true } piece := by
      intro hwhole
      simp [whole] at hwhole
    split_ifs with hfits
    · cases hunits : conv.units t with
      | nil => exact hfailed _
      | cons u us => exact extendUnits_adds p (some (u :: us))
    · exact hfailed _

theorem separates_iff (p : PathBuffer) :
    (p.size ≠ 0 ∧ p.value[p.size - 1]? ≠ some backslash) ↔
      (p.view ≠ [] ∧ p.view.getLast? ≠ some backslash) := by
  have hlast : p.value[p.size - 1]? = p.view.getLast? ∨ p.size = 0 := by
    have hroom := p.room
    have hfits := p.fits
    rcases Nat.eq_zero_or_pos p.size with hzero | hpos
    · exact .inr hzero
    · left
      rw [List.getLast?_eq_getElem?, view_length, view, List.getElem?_take_of_lt (by omega)]
  have hempty : p.size ≠ 0 ↔ p.view ≠ [] := by
    rw [← view_length, ne_eq, ne_eq, List.length_eq_zero_iff]
  constructor
  · rintro ⟨hsize, hback⟩
    exact ⟨hempty.mp hsize, hlast.resolve_right hsize ▸ hback⟩
  · rintro ⟨hne, hback⟩
    have hsize := hempty.mpr hne
    exact ⟨hsize, hlast.resolve_right hsize ▸ hback⟩

theorem separated_adds (p : PathBuffer) : Adds p p.separated (separator p.view) := by
  rw [separated, separator]
  by_cases hsep : p.size ≠ 0 ∧ p.value[p.size - 1]? ≠ some backslash
  · rw [if_pos hsep, if_pos ((separates_iff p).mp hsep)]
    exact extendUnits_adds p (some [backslash])
  · rw [if_neg hsep, if_neg (hsep ∘ (separates_iff p).mpr)]
    exact Adds.refl p

/-! ## The directory -/

theorem take_toSeparator (v : Wide) {n : ℕ} (hn : n ≤ v.length) :
    v.take (toSeparator v n) = (v.take n).rdropWhile (· ≠ backslash) := by
  induction n with
  | zero => simp [toSeparator]
  | succ n ih =>
    have hlast : v.take (n + 1) = v.take n ++ [v[n]] := (List.take_concat_get' v n hn).symm
    have hget : v[n]? = some v[n] := List.getElem?_eq_getElem hn
    rw [toSeparator, hget]
    by_cases hback : v[n] = backslash
    · rw [if_neg (by simp [hback]), hlast, List.rdropWhile_concat_neg _ _ _ (by simp [hback])]
    · rw [if_pos (by simpa using hback), hlast,
        List.rdropWhile_concat_pos _ _ _ (by simpa using hback), ih (by omega)]

theorem take_dropSeparators (v : Wide) {n : ℕ} (hn : n ≤ v.length) :
    v.take (dropSeparators v n) =
      if (v.take n).rdropWhile (· = backslash) = [] then (v.take n).take 1
      else (v.take n).rdropWhile (· = backslash) := by
  induction n with
  | zero => simp [dropSeparators]
  | succ n ih =>
    have hlast : v.take (n + 1) = v.take n ++ [v[n]] := (List.take_concat_get' v n hn).symm
    have hget : v[n]? = some v[n] := List.getElem?_eq_getElem hn
    cases n with
    | zero =>
      by_cases hback : v[0] = backslash
      · simp [dropSeparators, hlast, hback]
      · rw [hlast, List.rdropWhile_concat_neg _ _ _ (by simpa using hback)]
        simpa [dropSeparators] using hlast
    | succ n =>
      rw [dropSeparators, hget]
      by_cases hback : v[n + 1] = backslash
      · rw [if_pos (by rw [hback]), hlast, List.rdropWhile_concat_pos _ _ _ (by simpa using hback),
          ih (by omega), List.take_append_of_le_length (by rw [List.length_take]; omega)]
      · rw [if_neg (by simpa using hback), hlast,
          List.rdropWhile_concat_neg _ _ _ (by simpa using hback),
          if_neg (List.append_ne_nil_of_right_ne_nil _ (List.cons_ne_nil _ _))]

theorem toDirectory_view (p : PathBuffer) : p.toDirectory.view = directoryOf p.view := by
  have hroom := p.room
  have hfits := p.fits
  have hfirst := toSeparator_le p.value p.size
  have hsecond := dropSeparators_le p.value (toSeparator p.value p.size)
  have hview : p.toDirectory.view =
      p.value.take (dropSeparators p.value (toSeparator p.value p.size)) := by
    have hn : dropSeparators p.value (toSeparator p.value p.size) ≤ p.value.length := by omega
    exact overwrite_before hn
  rw [hview, take_dropSeparators _ (by omega), take_toSeparator _ (by omega)]
  rfl

theorem clear_view (p : PathBuffer) : p.clear.view = [] := rfl

/-! ## Any operation -/

/-- An operation after which nothing is missing, but for `clear`, was done on a path of which nothing
was, and did all that it does without a limit. -/
theorem run_adds (conv : Conversion) (p : PathBuffer) {op : PathOp} (hop : op ≠ .clear)
    (hshort : op.length < 2 ^ 31) (hwhole : (op.run conv p).whole = true) :
    p.whole = true ∧ (op.run conv p).view = op.unbounded conv.units p.view := by
  cases op with
  | extend w => exact extend_adds p w hwhole
  | extendUnits w => exact extendUnits_adds p w hwhole
  | extendText t => exact extendText_adds conv p hshort hwhole
  | append w =>
    obtain ⟨hp, hview⟩ := (separated_adds p).trans (extend_adds p.separated w) hwhole
    exact ⟨hp, by rw [PathOp.unbounded, under, List.append_assoc]; exact hview⟩
  | appendText t =>
    obtain ⟨hp, hview⟩ := (separated_adds p).trans (extendText_adds conv p.separated hshort) hwhole
    exact ⟨hp, by rw [PathOp.unbounded, under, List.append_assoc]; exact hview⟩
  | clear => exact absurd rfl hop
  | toDirectory => exact ⟨hwhole, p.toDirectory_view⟩

end PathBuffer

/-! ## The path without its array -/

theorem Path.eq_of {p q : Path} (hvalue : p.value = q.value) (hcut : p.truncated = q.truncated) :
    p = q := by
  cases p
  cases q
  simp_all

/-- The conversion of UTF-8, with replacements for what is none. -/
def Conversion.ofConvert (skip : Bytes → ℕ) : Conversion where
  call t n room :=
    if n = t.length ∧ (convert skip t).length ≤ room then some (convert skip t) else none
  units := convert skip
  call_eq := by simp

@[simp] theorem Conversion.ofConvert_units (skip : Bytes → ℕ) :
    (Conversion.ofConvert skip).units = convert skip := rfl

namespace PathBuffer

def toPath (p : PathBuffer) : Path where
  value := p.view
  truncated := p.truncated
  fits := by
    rw [view_length]
    exact p.fits

@[simp] theorem toPath_value (p : PathBuffer) : p.toPath.value = p.view := rfl

theorem extendUnits_toPath (p : PathBuffer) (w : Wide) :
    (p.extendUnits (some w)).1.toPath = p.toPath.extend w := by
  apply Path.eq_of
  · have hlength := p.view_length
    simp only [toPath, Path.extend, extendUnits_view, hlength]
  · have hwhole := p.extendUnits_whole w
    have hlength := p.view_length
    simp only [whole] at hwhole
    simp only [toPath, Path.extend, hlength]
    rcases Nat.lt_or_ge (511 - p.size) w.length with hlong | hfits
    · simpa [hlong, Nat.not_le.mpr hlong] using hwhole
    · simpa [hfits, Nat.not_lt.mpr hfits] using hwhole

theorem separated_toPath (p : PathBuffer) : p.separated.toPath = p.toPath.separated := by
  rw [separated, Path.separated, toPath_value]
  by_cases hsep : p.size ≠ 0 ∧ p.value[p.size - 1]? ≠ some backslash
  · rw [if_pos hsep, if_pos ((separates_iff p).mp hsep)]
    exact extendUnits_toPath p [backslash]
  · rw [if_neg hsep, if_neg (hsep ∘ (separates_iff p).mpr)]

theorem appendText_toPath (skip : Bytes → ℕ) (p : PathBuffer) {t : Bytes} (ht : t.length < 2 ^ 31) :
    (p.appendText (.ofConvert skip) t).1.toPath = p.toPath.append skip t := by
  rw [appendText, Path.append, ← separated_toPath]
  generalize p.separated = q
  by_cases hnil : t = []
  · rw [extendText, Path.extendText, if_pos hnil, if_pos hnil]
  · rw [extendText, Path.extendText, if_neg hnil, if_neg hnil, length_int ht,
      (Conversion.ofConvert skip).call_eq t 512 hnil ht (by norm_num), Conversion.ofConvert_units]
    have hne := convert_ne_nil skip hnil
    simp only [Path.capacity, hne, false_or]
    by_cases hfits : (convert skip t).length ≤ 512
    · rw [if_pos hfits, if_neg (by omega)]
      cases hunits : convert skip t with
      | nil => exact absurd hunits hne
      | cons u us => exact extendUnits_toPath q (u :: us)
    · rw [if_neg hfits, if_pos (by omega)]
      rfl

end PathBuffer

/-! ## Runs -/

/-- A path after the operations, in order. -/
def runPath (conv : Conversion) (p : PathBuffer) (ops : List PathOp) : PathBuffer :=
  ops.foldl (PathOp.run conv) p

variable {conv : Conversion} {p : PathBuffer} {ops : List PathOp}

theorem runPath_lost (hshort : ∀ op ∈ ops, op.length < 2 ^ 31) (hclear : PathOp.clear ∉ ops)
    (hlost : p.whole = false) : (runPath conv p ops).whole = false := by
  induction ops generalizing p with
  | nil => exact hlost
  | cons op ops ih =>
    have hop : op ≠ .clear := fun heq => hclear (heq ▸ List.mem_cons_self)
    have hnext : (op.run conv p).whole = false := by
      rw [← Bool.not_eq_true]
      intro hwhole
      have hp := (PathBuffer.run_adds conv p hop (hshort op List.mem_cons_self) hwhole).1
      rw [hp] at hlost
      exact absurd hlost (by decide)
    exact ih (fun o ho => hshort o (List.mem_cons_of_mem op ho))
      (fun hmem => hclear (List.mem_cons_of_mem op hmem)) hnext

theorem runPath_whole {v : Wide} (hshort : ∀ op ∈ ops, op.length < 2 ^ 31)
    (hstart : p.whole = true → p.view = v) (hwhole : (runPath conv p ops).whole = true) :
    (runPath conv p ops).view = ops.foldl (PathOp.unbounded conv.units) v := by
  induction ops generalizing p v with
  | nil => exact hstart hwhole
  | cons op ops ih =>
    apply ih (fun o ho => hshort o (List.mem_cons_of_mem op ho)) _ hwhole
    intro hnext
    by_cases hop : op = .clear
    · subst hop
      rfl
    · obtain ⟨hp, hview⟩ := PathBuffer.run_adds conv p hop (hshort op List.mem_cons_self) hnext
      rw [hview, hstart hp]

/-- After any operations on a path it has room for the terminator and ends with it; where nothing is
missing it is the path without a limit; and once an operation did not add all it should have,
something is missing until the path is cleared. -/
theorem path_knows_loss (conv : Conversion) (garbage : Wide) (hgarbage : garbage.length = 512)
    (ops : List PathOp) (hshort : ∀ op ∈ ops, op.length < 2 ^ 31) :
    let p := runPath conv (.empty garbage hgarbage) ops
    p.size < 512 ∧ p.value[p.size]? = some 0 ∧
      (p.whole = true → p.view = ops.foldl (PathOp.unbounded conv.units) []) ∧
      ∀ before op after, ops = before ++ op :: after → PathOp.clear ∉ after →
        (op.run conv (runPath conv (.empty garbage hgarbage) before)).view ≠
          op.unbounded conv.units (runPath conv (.empty garbage hgarbage) before).view →
        p.whole = false := by
  intro p
  refine ⟨p.fits, p.ended, runPath_whole hshort fun _ => rfl, ?_⟩
  intro before op after hops hclear hloss
  have hop : op.length < 2 ^ 31 := hshort op (hops ▸ by simp)
  have hafter : ∀ o ∈ after, o.length < 2 ^ 31 := fun o ho => hshort o (hops ▸ by simp [ho])
  have hp : p = runPath conv (op.run conv (runPath conv (.empty garbage hgarbage) before)) after := by
    simp only [p, hops, runPath, List.foldl_append, List.foldl_cons]
  rw [hp]
  apply runPath_lost hafter hclear
  rw [← Bool.not_eq_true]
  intro hwhole
  by_cases heq : op = .clear
  · subst heq
    exact hloss rfl
  · exact hloss (PathBuffer.run_adds conv _ heq hop hwhole).2

/-- Two names are appended and the second is taken off again. -/
theorem path_knows_loss_names :
    let p := runPath (.ofConvert fun _ => 1) (.empty (List.replicate 512 0) List.length_replicate)
      [.append (some (wide "a")), .append (some (wide "b")), .toDirectory]
    p.size < 512 ∧ p.view = wide "a" := by
  obtain ⟨hsize, -, hview, -⟩ := path_knows_loss (.ofConvert fun _ => 1) (List.replicate 512 0)
    List.length_replicate [.append (some (wide "a")), .append (some (wide "b")), .toDirectory]
    (by decide)
  exact ⟨hsize, (hview rfl).trans (by decide)⟩

end IW4x.Gdk
