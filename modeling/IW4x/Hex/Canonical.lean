import IW4x.Hex.Dump

/-!
# The canonical dump

A line has the offset of its octets, their digits in a column of fixed width, and their characters
between bars. The width of the offset field is chosen once, from the offset past the last octet,
which is a sum modulo the width of a `size_t`.
-/

namespace IW4x.Hex

def printable (b : Octet) : Ch := if 0x20 ≤ b ∧ b < 0x7f then b else ch '.'

/-- The loop of `offset_width`, which takes a digit in every pass. -/
def widthFrom : ℕ → BitVec 64 → ℕ → ℕ
  | 0, _, w => w
  | passes + 1, last, w => if 16 ≤ last then widthFrom passes (last >>> 4) (w + 1) else w

def offsetWidth (last : BitVec 64) : ℕ :=
  let w := widthFrom 15 last 1
  if w ≤ 8 then 8 else (w + 3) / 4 * 4

/-- What a pass over column `j` adds before its two characters. -/
def spaces (o : HexDumpOptions) (j : ℕ) : List Ch :=
  if j ≠ 0 then
    ch ' ' :: if o.group ≠ 0 ∧ j % o.group.toNat = 0 then [ch ' '] else []
  else []

/-- The two characters: the digits of an octet, or blank past the end of the line. -/
def cell (c : HexCase) : Option Octet → List Ch
  | some v => [hexAlphabet c (v >>> 4).toNat, hexAlphabet c (v &&& 0x0f).toNat]
  | none => [ch ' ', ch ' ']

/-- The loop over the columns in `canonical_hex_dumper::dump`. -/
def hexColumn (o : HexDumpOptions) (l : List Octet) : List Ch :=
  let e := if o.ascii then o.columns.toNat else l.length
  (List.range e).flatMap fun j => spaces o j ++ cell o.digitCase l[j]?

def offsetField (o : HexDumpOptions) (w : ℕ) (off : Unsigned 8) : Except Contract (List Ch) :=
  match Integers.toHexChars 16 off o.digitCase with
  | .tooLarge => .error .assertion
  | .written ob => do
    require .assertion (w ≤ 16)
    return ob.drop (16 - w) ++ "  ".toList.map ch

def printableColumn (l : List Octet) : List Ch :=
  "  |".toList.map ch ++ l.map printable ++ [ch '|']

/-- One line of `canonical_hex_dumper::dump`. -/
def canonicalLine (o : HexDumpOptions) (w i : ℕ) (l : List Octet) : Except Contract (List Ch) := do
  let off := o.offset + BitVec.ofNat 64 i
  let field ← if o.offsets then offsetField o w off else .ok []
  return field ++ hexColumn o l ++ (if o.ascii then printableColumn l else []) ++ annotate o off ++
    newline

/-- `canonical_hex_dumper::dump`. -/
def canonicalDump (o : HexDumpOptions) (b : Span) : Except Contract (List Ch) := do
  require .precondition (o.valid = true)
  let w := offsetWidth (o.offset + BitVec.ofNat 64 b.octets.length)
  dumpLines b.octets o.columns.toNat (canonicalLine o w) b.octets.length 0

/-- A line shows its offset in full, in a field of `w` digits, and its octets in a column that is
read back pair by pair and ends at the opening bar, which is in column `bar`. -/
structure Shows (w bar offset : ℕ) (l : List Octet) (line : List Ch) : Prop where
  parts : ∃ field column, line = field ++ "  ".toList.map ch ++ column ++ printableColumn l ∧
    (∀ c ∈ field, hexDigitP c = true) ∧ field.length = w ∧ Integers.numeral field = offset ∧
    Relaxed [ch ' '] l column
  opening : line.idxOf (ch '|') = bar

/-- A dump whose lines show the rows of the octets, the first of them at `offset`. -/
def Canonical (offset cols : ℕ) (b : List Octet) (text : List Ch) : Prop :=
  ∃ (w bar : ℕ) (rows : List (List Octet)) (lines : List (List Ch)),
    Rows cols b rows ∧ text = (lines.map (· ++ newline)).flatten ∧
    lines.length = rows.length ∧
    ∀ k l line, rows[k]? = some l → lines[k]? = some line →
      Shows w bar (offset + k * cols) l line

/-! ## The offset field -/

theorem widthFrom_spec (passes : ℕ) {last : BitVec 64} (hlast : last.toNat < 16 ^ (passes + 1))
    (w : ℕ) :
    ∃ more ≤ passes, widthFrom passes last w = w + more ∧ last.toNat < 16 ^ (more + 1) := by
  induction passes generalizing last w with
  | zero => exact ⟨0, le_rfl, rfl, hlast⟩
  | succ passes ih =>
    have hle : (16 : BitVec 64) ≤ last ↔ 16 ≤ last.toNat := by simp [BitVec.le_def]
    by_cases hdigit : 16 ≤ last.toNat
    · have hshift : (last >>> 4).toNat = last.toNat / 16 := by
        rw [BitVec.toNat_ushiftRight, Nat.shiftRight_eq_div_pow]
      have hnext : (last >>> 4).toNat < 16 ^ (passes + 1) := by
        rw [Nat.pow_succ] at hlast
        omega
      obtain ⟨more, hmore, hwidth, hroom⟩ := ih hnext (w + 1)
      refine ⟨more + 1, by omega, ?_, ?_⟩
      · rw [widthFrom, if_pos (hle.mpr hdigit), hwidth]
        omega
      · rw [Nat.pow_succ 16 (more + 1)]
        omega
    · refine ⟨0, Nat.zero_le _, ?_, by omega⟩
      rw [widthFrom, if_neg (fun h => hdigit (hle.mp h)), Nat.add_zero]

theorem offsetWidth_spec (last : BitVec 64) :
    8 ≤ offsetWidth last ∧ offsetWidth last ≤ 16 ∧ last.toNat < 16 ^ offsetWidth last := by
  obtain ⟨more, hmore, hwidth, hroom⟩ := widthFrom_spec 15 last.isLt 1
  have hle : more + 1 ≤ offsetWidth last := by
    simp only [offsetWidth, hwidth]
    split_ifs <;> omega
  refine ⟨?_, ?_, lt_of_lt_of_le hroom (Nat.pow_le_pow_right (by norm_num) hle)⟩
  · simp only [offsetWidth, hwidth]
    split_ifs <;> omega
  · simp only [offsetWidth, hwidth]
    split_ifs <;> omega

theorem drop_digitsFrom {w : ℕ} (hw : w ≤ 16) (c : HexCase) (v : Unsigned 8) :
    (Integers.digitsFrom c 16 v).drop (16 - w) = Integers.digitsFrom c w v := by
  rw [Integers.digitsFrom_eq (by decide), Integers.digitsFrom_eq (by decide), ← List.map_drop,
    Numerals.drop_lowDigits hw]

theorem offsetField_eq {o : HexDumpOptions} {w : ℕ} (hw : w ≤ 16) (off : Unsigned 8) :
    offsetField o w off = .ok (Integers.digitsFrom o.digitCase w off ++ "  ".toList.map ch) := by
  have hdigits : Integers.toHexChars 16 off o.digitCase =
      .written (Integers.digitsFrom o.digitCase 16 off) := rfl
  simp only [offsetField, hdigits, require_of hw, drop_digitsFrom hw]
  rfl

/-! ## The digits -/

variable {o : HexDumpOptions}

theorem spaces_blank (o : HexDumpOptions) (j : ℕ) : ∀ c ∈ spaces o j, c ∈ [ch ' '] := by
  intro c hc
  simp only [spaces] at hc
  split_ifs at hc <;> simp_all

theorem cell_length (c : HexCase) (v : Option Octet) : (cell c v).length = 2 := by
  cases v <;> rfl

theorem relaxed_cell (c : HexCase) (v : Octet) : Relaxed [ch ' '] [v] (cell c (some v)) :=
  relaxed_encodeOctets [ch ' '] c [v]

theorem relaxed_columns (c : HexCase) {before : ℕ → List Ch}
    (blank : ∀ j, ∀ x ∈ before j, x ∈ [ch ' ']) {l : List Octet} {e : ℕ} (he : l.length ≤ e) :
    Relaxed [ch ' '] l ((List.range e).flatMap fun j => before j ++ cell c l[j]?) := by
  induction e generalizing before l with
  | zero =>
    rw [List.eq_nil_of_length_eq_zero (Nat.le_zero.mp he)]
    exact .done
  | succ e ih =>
    rw [List.range_succ_eq_map, List.flatMap_cons, List.flatMap_map, List.append_assoc]
    refine relaxed_skip (blank 0) ?_
    cases l with
    | nil =>
      have hrest := ih (fun j => blank j.succ) (l := []) (Nat.zero_le e)
      have hblank : ∀ x ∈ cell c none, x ∈ [ch ' '] := by simp [cell]
      exact relaxed_skip hblank hrest
    | cons v l =>
      have hrest := ih (fun j => blank j.succ) (l := l) (by simpa using he)
      exact (relaxed_cell c v).append hrest

theorem relaxed_hexColumn (hascii : o.ascii = true) {l : List Octet}
    (hl : l.length ≤ o.columns.toNat) : Relaxed [ch ' '] l (hexColumn o l) := by
  have h := relaxed_columns o.digitCase (spaces_blank o) hl
  simpa [hexColumn, hascii] using h

/-- The characters of the digits of a full line. -/
def columnWidth (o : HexDumpOptions) : ℕ :=
  ((List.range o.columns.toNat).map fun j => (spaces o j).length + 2).sum

theorem hexColumn_length (hascii : o.ascii = true) (l : List Octet) :
    (hexColumn o l).length = columnWidth o := by
  simp [hexColumn, columnWidth, hascii, List.length_flatMap, cell_length]

/-! ## Lines -/

/-- What a line is, with both columns and no annotation. -/
def lineText (o : HexDumpOptions) (w : ℕ) (off : BitVec 64) (l : List Octet) : List Ch :=
  Integers.digitsFrom (w := 8) o.digitCase w off ++ "  ".toList.map ch ++ hexColumn o l ++
    printableColumn l

theorem canonicalLine_eq (hoffsets : o.offsets = true) (hascii : o.ascii = true)
    (hnone : o.annotate = none) {w : ℕ} (hw : w ≤ 16) (i : ℕ) (l : List Octet) :
    canonicalLine o w i l = .ok (lineText o w (o.offset + BitVec.ofNat 64 i) l ++ newline) := by
  simp only [canonicalLine, hoffsets, hascii, annotate, hnone, if_true, offsetField_eq hw, lineText,
    List.append_nil, bind, Except.bind, pure, Except.pure]

theorem bar_no_digit : hexDigitP (ch '|') = false := by decide

/-- The opening bar is the first of the line. -/
theorem lineText_bar (w : ℕ) (off : BitVec 64) {l : List Octet}
    (hcolumn : Relaxed [ch ' '] l (hexColumn o l)) :
    (lineText o w off l).idxOf (ch '|') = w + (hexColumn o l).length + 4 := by
  have hblank : ∀ c ∈ [ch ' '], hexDigitP c = false := by decide
  have hbefore : ch '|' ∉ Integers.digitsFrom (w := 8) o.digitCase w off ++ "  ".toList.map ch ++
      hexColumn o l ++ [ch ' ', ch ' '] := by
    have hfield : ch '|' ∉ Integers.digitsFrom (w := 8) o.digitCase w off := by
      intro hmem
      have := Integers.digitsFrom_digits (w := 8) (by decide) _ hmem
      rw [bar_no_digit] at this
      cases this
    have hdigits : ch '|' ∉ hexColumn o l := by
      intro hmem
      rcases (hcolumn.scan hblank).1 _ hmem with h | h
      · rw [bar_no_digit] at h
        cases h
      · exact absurd h (by decide)
    simp only [List.mem_append, not_or]
    exact ⟨⟨⟨hfield, by decide⟩, hdigits⟩, by decide⟩
  have hline : lineText o w off l = (Integers.digitsFrom (w := 8) o.digitCase w off ++
      "  ".toList.map ch ++ hexColumn o l ++ [ch ' ', ch ' ']) ++
        ch '|' :: (l.map printable ++ [ch '|']) := by
    simp [lineText, printableColumn]
  rw [hline, List.idxOf_append_of_notMem hbefore, List.idxOf_cons_self]
  simp
  omega

theorem lineText_shows (hascii : o.ascii = true) {w : ℕ} {off : BitVec 64}
    (hroom : off.toNat < 16 ^ w) {l : List Octet} (hl : l.length ≤ o.columns.toNat) :
    Shows w (w + columnWidth o + 4) off.toNat l (lineText o w off l) := by
  have hcolumn := relaxed_hexColumn hascii hl
  refine ⟨⟨Integers.digitsFrom (w := 8) o.digitCase w off, hexColumn o l, rfl,
    Integers.digitsFrom_digits (by decide), Integers.digitsFrom_length _ _ _, ?_, hcolumn⟩, ?_⟩
  · rw [Integers.numeral_digitsFrom (by decide), Nat.mod_eq_of_lt hroom]
  · rw [lineText_bar w off hcolumn, hexColumn_length hascii]

/-! ## The dump -/

def dumpWidth (o : HexDumpOptions) (b : Span) : ℕ :=
  offsetWidth (o.offset + BitVec.ofNat 64 b.octets.length)

/-- The lines of a dump, without their ends. -/
def dumpedLines (o : HexDumpOptions) (b : Span) (rows : List (List Octet)) : List (List Ch) :=
  rows.mapIdx fun k l =>
    lineText o (dumpWidth o b) (o.offset + BitVec.ofNat 64 (k * o.columns.toNat)) l

theorem canonicalDump_rows (hvalid : o.valid = true) (hoffsets : o.offsets = true)
    (hascii : o.ascii = true) (hnone : o.annotate = none) (b : Span) :
    ∃ rows, Rows o.columns.toNat b.octets rows ∧
      canonicalDump o b = .ok ((dumpedLines o b rows).map (· ++ newline)).flatten := by
  have hwidth := (offsetWidth_spec (o.offset + BitVec.ofNat 64 b.octets.length)).2.1
  obtain ⟨rows, hrows, hdump⟩ := dumpLines_rows b.bounded (columns_pos hvalid) o.columns.isLt
    (fun i l _ _ => canonicalLine_eq hoffsets hascii hnone hwidth i l)
    (Nat.le_add_left b.octets.length 0)
  rw [List.drop_zero] at hrows
  have hlines : (dumpedLines o b rows).map (· ++ newline) = rows.mapIdx fun k l =>
      lineText o (dumpWidth o b) (o.offset + BitVec.ofNat 64 (0 + k * o.columns.toNat)) l ++
        newline :=
    List.ext_getElem (by simp [dumpedLines]) (by simp [dumpedLines])
  refine ⟨rows, hrows, ?_⟩
  rw [canonicalDump, require_of hvalid, hlines]
  exact hdump

theorem toNat_offset {off : BitVec 64} {n : ℕ} (h : off.toNat + n < 2 ^ 64) :
    (off + BitVec.ofNat 64 n).toNat = off.toNat + n := by
  rw [BitVec.toNat_add, BitVec.toNat_ofNat]
  omega

theorem canonical_nil (offset cols : ℕ) : Canonical offset cols [] [] :=
  ⟨0, 0, [], [], rows_nil cols, rfl, rfl, by simp⟩

/-- As long as the offset past the last octet is one, all lines show their rows. -/
theorem dumpedLines_canonical (hvalid : o.valid = true) (hascii : o.ascii = true) {b : Span}
    (hsum : o.offset.toNat + b.octets.length < 2 ^ 64) {rows : List (List Octet)}
    (hrows : Rows o.columns.toNat b.octets rows) :
    Canonical o.offset.toNat o.columns.toNat b.octets
      ((dumpedLines o b rows).map (· ++ newline)).flatten := by
  have hroom := (offsetWidth_spec (o.offset + BitVec.ofNat 64 b.octets.length)).2.2
  rw [toNat_offset hsum] at hroom
  refine ⟨dumpWidth o b, dumpWidth o b + columnWidth o + 4, rows, dumpedLines o b rows, hrows, rfl,
    by simp [dumpedLines], ?_⟩
  intro k l line hl hline
  obtain ⟨hwithin, hpos, hfits⟩ := hrows.bounds (columns_pos hvalid) hl
  obtain rfl : lineText o (dumpWidth o b) (o.offset + BitVec.ofNat 64 (k * o.columns.toNat)) l =
      line := by
    simpa [dumpedLines, hl] using hline
  have hoffset : (o.offset + BitVec.ofNat 64 (k * o.columns.toNat)).toNat =
      o.offset.toNat + k * o.columns.toNat := toNat_offset (by omega)
  have hfield : (o.offset + BitVec.ofNat 64 (k * o.columns.toNat)).toNat < 16 ^ dumpWidth o b := by
    rw [hoffset]
    exact lt_of_le_of_lt (by omega) hroom
  have hshows := lineText_shows hascii hfield hfits
  rwa [hoffset] at hshows

theorem Canonical.first {offset cols : ℕ} {b : List Octet} (hb : b ≠ []) {text : List Ch}
    (h : Canonical offset cols b text) : Integers.numeral (Integers.leadingRun text) = offset := by
  obtain ⟨w, bar, rows, lines, hrows, rfl, hlength, hshows⟩ := h
  obtain ⟨l, rows, rfl⟩ := hrows.exists_cons hb
  obtain ⟨line, lines, rfl⟩ : ∃ line rest, lines = line :: rest := by
    cases lines with
    | nil => cases hlength
    | cons line rest => exact ⟨line, rest, rfl⟩
  obtain ⟨field, column, hline, hdigits, -, hvalue, -⟩ := (hshows 0 l line rfl rfl).parts
  have htext : ((line :: lines).map (· ++ newline)).flatten =
      field ++ ch ' ' :: (ch ' ' :: (column ++ printableColumn l ++ newline ++
        (lines.map (· ++ newline)).flatten)) := by
    simp [hline]
  have hstop : hexDigitP (ch ' ') = false := by decide
  rw [htext, Integers.leadingRun_append hdigits (by simpa using hstop), hvalue]
  omega

theorem dumpedLines_first {b : Span} (hb : b.octets ≠ []) {rows : List (List Octet)}
    (hrows : Rows o.columns.toNat b.octets rows) :
    Integers.numeral (Integers.leadingRun ((dumpedLines o b rows).map (· ++ newline)).flatten) =
      o.offset.toNat % 16 ^ dumpWidth o b := by
  obtain ⟨l, rows, rfl⟩ := hrows.exists_cons hb
  have htext : ∃ rest, ((dumpedLines o b (l :: rows)).map (· ++ newline)).flatten =
      Integers.digitsFrom (w := 8) o.digitCase (dumpWidth o b) o.offset ++ ch ' ' :: rest := by
    simp [dumpedLines, lineText]
  obtain ⟨rest, htext⟩ := htext
  have hstop : hexDigitP (ch ' ') = false := by decide
  rw [htext, Integers.leadingRun_append (Integers.digitsFrom_digits (by decide))
    (by simpa using hstop), Integers.numeral_digitsFrom (by decide)]

/-- A canonical dump shows all that it dumps if and only if the offset past the last octet does not
wrap around, or there is nothing to dump. -/
theorem canonical_dump_iff {o : HexDumpOptions} (hvalid : o.valid = true)
    (hoffsets : o.offsets = true) (hascii : o.ascii = true) (hnone : o.annotate = none) (b : Span)
    (hsum : o.offset.toNat + b.octets.length ≤ 2 ^ 64) :
    (∃ text, canonicalDump o b = .ok text ∧
        Canonical o.offset.toNat o.columns.toNat b.octets text) ↔
      o.offset.toNat + b.octets.length < 2 ^ 64 ∨ b.octets = [] := by
  obtain ⟨rows, hrows, hdump⟩ := canonicalDump_rows hvalid hoffsets hascii hnone b
  constructor
  · rintro ⟨text, htext, hcanonical⟩
    by_contra hneither
    obtain ⟨htop, hb⟩ := not_or.mp hneither
    rw [hdump, Except.ok.injEq] at htext
    have hbounded := b.bounded
    have hwraps : o.offset + BitVec.ofNat 64 b.octets.length = 0 := by
      apply BitVec.eq_of_toNat_eq
      rw [BitVec.toNat_add, BitVec.toNat_ofNat]
      simp
      omega
    have hwidth : dumpWidth o b = 8 := by
      rw [dumpWidth, hwraps]
      rfl
    -- the field has room for less than the offset of the first line
    have hfirst := dumpedLines_first (o := o) hb hrows
    rw [htext, hcanonical.first hb, hwidth] at hfirst
    have hlt := Nat.mod_lt o.offset.toNat (show 16 ^ 8 > 0 by norm_num)
    omega
  · rintro (hlt | hnil)
    · exact ⟨_, hdump, dumpedLines_canonical hvalid hascii hlt hrows⟩
    · have hempty : canonicalDump o b = .ok [] := by
        rw [canonicalDump, require_of hvalid, hnil]
        rfl
      rw [hnil]
      exact ⟨[], hempty, canonical_nil _ _⟩

/-- Two lines whose offsets need more than eight digits. -/
theorem canonical_dump_iff_wide :
    ∃ text, canonicalDump { offset := 0xffffffffffffff00, columns := 2 }
        ⟨[0x41, 0x42, 0x0a], by decide⟩ = .ok text ∧
      Canonical 0xffffffffffffff00 2 [0x41, 0x42, 0x0a] text :=
  (canonical_dump_iff (o := { offset := 0xffffffffffffff00, columns := 2 }) (by decide) rfl rfl rfl
    ⟨[0x41, 0x42, 0x0a], by decide⟩ (by decide)).mpr (.inl (by decide))

/-- The last octet of the range is shown at an offset of eight digits. -/
theorem canonical_dump_truncates :
    ¬ ∀ (o : HexDumpOptions) (b : Span), o.valid = true → o.offsets = true → o.ascii = true →
      o.annotate = none → o.offset.toNat + b.octets.length ≤ 2 ^ 64 →
      ∃ text, canonicalDump o b = .ok text ∧
        Canonical o.offset.toNat o.columns.toNat b.octets text := by
  intro claim
  obtain ⟨text, htext, hcanonical⟩ := claim { offset := 0xffffffffffffffff } ⟨[0x41], by decide⟩
    (by decide) rfl rfl rfl (by decide)
  have hfirst := hcanonical.first (by decide)
  have hdump : canonicalDump { offset := 0xffffffffffffffff } ⟨[0x41], by decide⟩ =
      .ok ("ffffffff  41                                                |A|\n".toList.map ch) := by
    decide +kernel
  rw [hdump, Except.ok.injEq] at htext
  rw [← htext] at hfirst
  exact absurd hfirst (by decide +kernel)

end IW4x.Hex
