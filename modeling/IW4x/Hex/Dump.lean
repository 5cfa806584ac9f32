import IW4x.Hex.Relaxed
import IW4x.Hex.Integers

/-!
# Dumps

A dumper writes the octets of a span line by line. The lines of the plain one are digits alone and
are read back by the relaxed decoder.
-/

namespace IW4x.Hex

/-- A span of octets, which are no more than a `ptrdiff_t` can count. -/
structure Span where
  octets : List Octet
  bounded : octets.length < 2 ^ 63

structure HexDumpOptions where
  offset : BitVec 64 := 0
  annotate : Option (BitVec 64 → List Ch) := none
  /-- Octets per line. -/
  columns : BitVec 16 := 16
  /-- Extra space every so many, 0 for none. -/
  group : BitVec 8 := 8
  digitCase : HexCase := .lower
  offsets : Bool := true
  ascii : Bool := true

def HexDumpOptions.valid (o : HexDumpOptions) : Bool := o.columns ≠ 0

def hexDefaultIgnored : List Ch := " \t\r\n:-_".toList.map ch

def newline : List Ch := [ch '\n']

def annotate (o : HexDumpOptions) (off : BitVec 64) : List Ch :=
  match o.annotate with
  | none => []
  | some f =>
    let n := f off
    if n = [] then [] else "  ; ".toList.map ch ++ n

/-- The loop over the lines of all dumpers, `for (size_t i (0); i < b.size (); i += cols)`, whose
body has the index and the octets of its line. Every pass takes at least one octet, as in
`encodeGroups`. -/
def dumpLines (b : List Octet) (cols : ℕ) (body : ℕ → List Octet → Except Contract (List Ch)) :
    ℕ → ℕ → Except Contract (List Ch)
  | 0, _ => .ok []
  | passes + 1, i =>
    if i < b.length then do
      let n := min cols (b.length - i)
      let line ← body i ((b.drop i).take n)
      let rest ← dumpLines b cols body passes ((i + cols) % 2 ^ 64)
      return line ++ rest
    else return []

/-- One line of `plain_hex_dumper::dump`. -/
def plainLine (t : Target) (o : HexDumpOptions) (i : ℕ) (l : List Octet) :
    Except Contract (List Ch) := do
  let s ← hexEncode t l { digitCase := o.digitCase, separator := 0, group := 1, prefixed := false }
  return s ++ annotate o (o.offset + BitVec.ofNat 64 i) ++ newline

/-- `plain_hex_dumper::dump`. -/
def plainDump (t : Target) (o : HexDumpOptions) (b : Span) : Except Contract (List Ch) := do
  require .precondition (o.valid = true)
  dumpLines b.octets o.columns.toNat (plainLine t o) b.octets.length 0

/-! ## Lines -/

/-- The octets in rows of `cols`, of which the last may be shorter but has one. -/
structure Rows (cols : ℕ) (b : List Octet) (rows : List (List Octet)) : Prop where
  joined : rows.flatten = b
  full : ∀ r ∈ rows.dropLast, r.length = cols
  last : ∀ r ∈ rows.getLast?, 0 < r.length ∧ r.length ≤ cols

theorem rows_nil (cols : ℕ) : Rows cols [] [] := ⟨rfl, by simp, by simp⟩

theorem rows_singleton {cols : ℕ} {b : List Octet} (hb : 0 < b.length) (fits : b.length ≤ cols) :
    Rows cols b [b] :=
  ⟨by simp, by simp, by simpa using ⟨hb, fits⟩⟩

theorem Rows.exists_cons {cols : ℕ} {b : List Octet} {rows : List (List Octet)}
    (h : Rows cols b rows) (hb : b ≠ []) : ∃ l rest, rows = l :: rest := by
  cases rows with
  | nil => exact absurd h.joined.symm hb
  | cons l rest => exact ⟨l, rest, rfl⟩

theorem Rows.cons {cols : ℕ} {b : List Octet} {rows : List (List Octet)} (h : Rows cols b rows)
    {r : List Octet} (hr : r.length = cols) (hb : b ≠ []) : Rows cols (r ++ b) (r :: rows) := by
  obtain ⟨r', rows, rfl⟩ := h.exists_cons hb
  refine ⟨by simpa using h.joined, ?_, by simpa using h.last⟩
  rw [List.dropLast_cons_cons]
  intro r'' hmem
  rcases List.mem_cons.mp hmem with rfl | hmem
  · exact hr
  · exact h.full r'' hmem

theorem Rows.tail {cols : ℕ} {b r : List Octet} {rows : List (List Octet)}
    (h : Rows cols b (r :: rows)) : Rows cols rows.flatten rows := by
  cases rows with
  | nil => exact rows_nil cols
  | cons r' rows =>
    obtain ⟨-, hfull, hlast⟩ := h
    rw [List.dropLast_cons_cons] at hfull
    exact ⟨rfl, fun r hr => hfull r (List.mem_cons_of_mem _ hr), by simpa using hlast⟩

/-- A row lies within the octets, behind `k` full ones. -/
theorem Rows.bounds {cols : ℕ} (hcols : 0 < cols) {b : List Octet} {rows : List (List Octet)}
    (h : Rows cols b rows) {k : ℕ} {l : List Octet} (hk : rows[k]? = some l) :
    k * cols + l.length ≤ b.length ∧ 0 < l.length ∧ l.length ≤ cols := by
  induction rows generalizing b k with
  | nil => cases hk
  | cons r rows ih =>
    have hlength : b.length = r.length + rows.flatten.length := by
      rw [← h.joined, List.flatten_cons, List.length_append]
    have hfirst : 0 < r.length ∧ r.length ≤ cols ∧ (rows ≠ [] → r.length = cols) := by
      cases rows with
      | nil => simpa using h.last r (by simp)
      | cons r' rows =>
        have := h.full r (by simp)
        simp [this, hcols]
    cases k with
    | zero =>
      obtain rfl : r = l := by simpa using hk
      exact ⟨by omega, hfirst.1, hfirst.2.1⟩
    | succ k =>
      rw [List.getElem?_cons_succ] at hk
      obtain ⟨hwithin, hpos, hfits⟩ := ih h.tail hk
      have hne : rows ≠ [] := by
        rintro rfl
        cases hk
      have hcolumns := hfirst.2.2 hne
      refine ⟨?_, hpos, hfits⟩
      rw [Nat.succ_mul]
      omega

variable {b : List Octet} {cols : ℕ} {body : ℕ → List Octet → Except Contract (List Ch)}

theorem dumpLines_end (passes : ℕ) {i : ℕ} (hi : b.length ≤ i) :
    dumpLines b cols body passes i = .ok [] := by
  cases passes with
  | zero => rfl
  | succ passes => exact if_neg (by omega)

/-- As long as the body writes a line, the loop writes one for every row. -/
theorem dumpLines_rows (hb : b.length < 2 ^ 63) (hcols : 0 < cols) (hcols' : cols < 2 ^ 16)
    {line : ℕ → List Octet → List Ch}
    (hbody : ∀ i l, i < b.length → l.length ≤ cols → body i l = .ok (line i l)) {passes i : ℕ}
    (hpasses : b.length ≤ i + passes) :
    ∃ rows, Rows cols (b.drop i) rows ∧
      dumpLines b cols body passes i =
        .ok (rows.mapIdx fun k r => line (i + k * cols) r).flatten := by
  induction passes generalizing i with
  | zero =>
    refine ⟨[], ?_, rfl⟩
    rw [List.drop_eq_nil_of_le (by omega)]
    exact rows_nil cols
  | succ passes ih =>
    by_cases hi : i < b.length
    · have hnext : (i + cols) % 2 ^ 64 = i + cols := Nat.mod_eq_of_lt (by omega)
      have hrest : (b.drop i).length = b.length - i := List.length_drop
      have hline := hbody i ((b.drop i).take (min cols (b.length - i))) hi (by
        rw [List.length_take]
        omega)
      rw [dumpLines, if_pos hi, hnext]
      simp only [hline]
      by_cases hlast : b.length ≤ i + cols
      · refine ⟨[b.drop i], rows_singleton (by omega) (by omega), ?_⟩
        rw [dumpLines_end passes hlast, List.take_of_length_le (by omega)]
        simp [bind, Except.bind, pure, Except.pure]
      · obtain ⟨rows, hrows, hdump⟩ := ih (i := i + cols) (by omega)
        have htake : ((b.drop i).take cols).length = cols := by
          rw [List.length_take]
          omega
        have hsplit : (b.drop i).take cols ++ b.drop (i + cols) = b.drop i := by
          rw [← List.drop_drop, List.take_append_drop]
        refine ⟨(b.drop i).take cols :: rows, ?_, ?_⟩
        · have hcons := hrows.cons htake (by
            intro hnil
            have hzero := congrArg List.length hnil
            rw [List.length_drop, List.length_nil] at hzero
            omega)
          rwa [hsplit] at hcons
        · rw [hdump, show min cols (b.length - i) = cols by omega]
          simp only [bind, Except.bind, pure, Except.pure, List.mapIdx_cons, List.flatten_cons,
            Nat.zero_mul, Nat.add_zero, Nat.succ_mul]
          simp only [Nat.add_assoc, Nat.add_comm cols]
    · refine ⟨[], ?_, ?_⟩
      · rw [List.drop_eq_nil_of_le (by omega)]
        exact rows_nil cols
      · rw [dumpLines_end _ (by omega)]
        rfl

/-! ## The plain dump -/

theorem Relaxed.append {ignored : List Ch} {a b : List Octet} {t u : List Ch}
    (ha : Relaxed ignored a t) (hb : Relaxed ignored b u) : Relaxed ignored (a ++ b) (t ++ u) := by
  induction ha with
  | done => exact hb
  | skip hc _ ih => exact .skip hc ih
  | pair ho _ ih => exact .pair ho ih

theorem relaxed_encodeOctets (ignored : List Ch) (c : HexCase) (b : List Octet) :
    Relaxed ignored b (encodeOctets c b) := by
  induction b with
  | nil => exact .done
  | cons o b ih =>
    rw [encodeOctets_cons]
    have halphabet (n : ℕ) : IsDigit n (hexAlphabet c n) := isDigit_alphabet n c
    exact .pair ⟨halphabet _, halphabet _⟩ ih

theorem reference_plain (c : HexCase) (b : List Octet) :
    reference { digitCase := c } b = encodeOctets c b := referenceFrom_plain rfl 0 b

theorem encodeOctets_digits (c : HexCase) (b : List Octet) :
    ∀ x ∈ encodeOctets c b, hexDigitP x = true := by
  induction b with
  | nil => simp
  | cons o b ih =>
    rw [encodeOctets_cons]
    simp only [List.forall_mem_cons]
    exact ⟨Integers.hexDigitP_alphabet c (highNibble_lt o),
      Integers.hexDigitP_alphabet c (lowNibble_lt o), ih⟩

theorem newline_not_mem {t : List Ch} (ht : ∀ x ∈ t, hexDigitP x = true) : ch '\n' ∉ t := by
  intro hmem
  exact absurd (ht _ hmem) (by decide)

theorem relaxed_rows {ignored : List Ch} (hnewline : ch '\n' ∈ ignored) (c : HexCase)
    (rows : List (List Octet)) :
    Relaxed ignored rows.flatten
      (rows.map fun r => reference { digitCase := c } r ++ newline).flatten := by
  induction rows with
  | nil => exact .done
  | cons r rows ih =>
    have hend : Relaxed ignored [] newline := .skip hnewline .done
    have hline := ((relaxed_encodeOctets ignored c r).append hend).append ih
    rw [List.append_nil, ← reference_plain] at hline
    rwa [List.map_cons, List.flatten_cons, List.flatten_cons]

theorem plainLine_eq (t : Target) {o : HexDumpOptions} (hnone : o.annotate = none) (i : ℕ)
    {l : List Octet} (hl : l.length ≤ o.columns.toNat) :
    plainLine t o i l = .ok (reference { digitCase := o.digitCase } l ++ newline) := by
  have hcolumns := o.columns.isLt
  have hencode := hexEncode_eq t (s := { digitCase := o.digitCase }) (b := l) rfl (by
    simp only [sizeMax]
    omega)
  rw [plainLine, hencode, annotate, hnone]
  simp [bind, Except.bind, pure, Except.pure]

theorem columns_pos {o : HexDumpOptions} (hvalid : o.valid = true) : 0 < o.columns.toNat := by
  have hne : o.columns ≠ 0 := by simpa [HexDumpOptions.valid] using hvalid
  exact Nat.pos_of_ne_zero fun hzero => hne (BitVec.eq_of_toNat_eq hzero)

theorem hexDefaultIgnored_eq :
    hexDefaultIgnored = [ch ' ', ch '\t', ch '\r', ch '\n', ch ':', ch '-', ch '_'] := rfl

theorem ignored_plain : ∀ c ∈ hexDefaultIgnored, hexDigitP c = false := by
  rw [hexDefaultIgnored_eq]
  simp only [List.forall_mem_cons]
  refine ⟨?_, ?_, ?_, ?_, ?_, ?_, ?_, by simp⟩ <;> decide

theorem newline_ignored : ch '\n' ∈ hexDefaultIgnored := by
  rw [hexDefaultIgnored_eq]
  simp

theorem decoded_of_relaxed {b : List Octet} {text : List Ch}
    (h : Relaxed hexDefaultIgnored b text) :
    tryHexDecodeRelaxed text hexDefaultIgnored = .ok (some b) := by
  obtain ⟨r, hrun, hr⟩ := tryHexDecodeRelaxed_spec ignored_plain text
  have hdropped := (dropped_iff ignored_plain b text).mp ⟨text, .inl rfl, h⟩
  rw [hrun, (hr b).mpr hdropped]

/-- A plain dump has a line for every row and is read back in full. -/
theorem plain_dump_read_back (t : Target) {o : HexDumpOptions} (hvalid : o.valid = true)
    (hnone : o.annotate = none) (b : Span) :
    ∃ rows text, Rows o.columns.toNat b.octets rows ∧ plainDump t o b = .ok text ∧
      text = (rows.map fun r => reference { digitCase := o.digitCase } r ++ newline).flatten ∧
      (∀ r ∈ rows, ch '\n' ∉ reference { digitCase := o.digitCase } r) ∧
      tryHexDecodeRelaxed text hexDefaultIgnored = .ok (some b.octets) := by
  have hbody : ∀ i l, i < b.octets.length → l.length ≤ o.columns.toNat →
      plainLine t o i l = .ok (reference { digitCase := o.digitCase } l ++ newline) :=
    fun i l _ hl => plainLine_eq t hnone i hl
  obtain ⟨rows, hrows, hdump⟩ := dumpLines_rows b.bounded (columns_pos hvalid) o.columns.isLt hbody
    (Nat.le_add_left b.octets.length 0)
  rw [List.drop_zero] at hrows
  refine ⟨rows, _, hrows, ?_, rfl, ?_, ?_⟩
  · have hlines : (rows.mapIdx fun _ r => reference { digitCase := o.digitCase } r ++ newline) =
        rows.map fun r => reference { digitCase := o.digitCase } r ++ newline :=
      List.ext_getElem (by simp) (by simp)
    rw [hlines] at hdump
    rw [plainDump, require_of hvalid]
    exact hdump
  · intro r _
    rw [reference_plain]
    exact newline_not_mem (encodeOctets_digits _ r)
  · have hrelaxed := relaxed_rows newline_ignored o.digitCase rows
    rw [hrows.joined] at hrelaxed
    exact decoded_of_relaxed hrelaxed

/-- Three octets in lines of two. -/
theorem plain_dump_read_back_pairs :
    plainDump (.native .little) { columns := 2 } ⟨[0xde, 0xad, 0xbe], by decide⟩ =
        .ok ("dead\nbe\n".toList.map ch) ∧
      ∃ rows text, Rows 2 [0xde, 0xad, 0xbe] rows ∧
        plainDump (.native .little) { columns := 2 } ⟨[0xde, 0xad, 0xbe], by decide⟩ = .ok text ∧
        tryHexDecodeRelaxed text hexDefaultIgnored = .ok (some [0xde, 0xad, 0xbe]) := by
  obtain ⟨rows, text, hrows, hdump, -, -, hread⟩ := plain_dump_read_back (.native .little)
    (o := { columns := 2 }) (by decide) rfl ⟨[0xde, 0xad, 0xbe], by decide⟩
  exact ⟨by decide +kernel, rows, text, hrows, hdump, hread⟩

end IW4x.Hex
