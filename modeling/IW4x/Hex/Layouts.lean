import IW4x.Hex.Canonical

/-!
# Layouts of a dump

A dump is laid out in one of three styles. The third writes the elements of a C array, which are read
here as a compiler reads an initializer list.
-/

namespace IW4x.Hex

inductive HexDumpStyle where
  | canonical
  | plain
  | cArray
  deriving DecidableEq, Repr

/-- The loop over the octets of a line in `c_array_hex_dumper::dump`, from the `j`-th on. -/
def elements (c : HexCase) : ℕ → List Octet → List Ch
  | _, [] => []
  | j, v :: rest =>
    (if j ≠ 0 then [ch ' '] else []) ++
      [ch '0', ch 'x', hexAlphabet c (v >>> 4).toNat, hexAlphabet c (v &&& 0x0f).toNat] ++
        [ch ','] ++ elements c (j + 1) rest

/-- One line of `c_array_hex_dumper::dump`. -/
def cArrayLine (o : HexDumpOptions) (i : ℕ) (l : List Octet) : List Ch :=
  [ch ' ', ch ' '] ++ elements o.digitCase 0 l ++ annotate o (o.offset + BitVec.ofNat 64 i) ++ newline

/-- `c_array_hex_dumper::dump`. -/
def cArrayDump (o : HexDumpOptions) (b : Span) : Except Contract (List Ch) := do
  require .precondition (o.valid = true)
  dumpLines b.octets o.columns.toNat (fun i l => .ok (cArrayLine o i l)) b.octets.length 0

/-- The `dump` of the dumper that `hex_dumper_for` and `make_hex_dumper` give for a style; `hex_dump` is
the canonical one. -/
def hexDumperFor (t : Target) : HexDumpStyle → HexDumpOptions → Span → Except Contract (List Ch)
  | .canonical => canonicalDump
  | .plain => plainDump t
  | .cArray => cArrayDump

/-! ## Initializer lists -/

/-- The initializer lists of octets: blanks, and elements of two digits with a comma. -/
inductive Initializes : List Octet → List Ch → Prop where
  | done : Initializes [] []
  | blank {b : List Octet} {c : Ch} {t : List Ch} (hc : c = ch ' ' ∨ c = ch '\n')
      (h : Initializes b t) : Initializes b (c :: t)
  | element {b : List Octet} {o : Octet} {d e : Ch} {t : List Ch} (ho : SpellsOctet o d e)
      (h : Initializes b t) : Initializes (o :: b) (ch '0' :: ch 'x' :: d :: e :: ch ',' :: t)

/-- What an initializer list initializes. -/
def readElements : List Ch → Option (List Octet)
  | [] => some []
  | z :: t =>
    if z = ch ' ' ∨ z = ch '\n' then readElements t
    else
      match t with
      | x :: d :: e :: k :: t =>
        if z = ch '0' ∧ x = ch 'x' ∧ hexDigitP d = true ∧ hexDigitP e = true ∧ k = ch ',' then
          (readElements t).map ((hexValue d <<< 4 ||| hexValue e) :: ·)
        else none
      | _ => none

theorem readElements_blank {c : Ch} (hc : c = ch ' ' ∨ c = ch '\n') (t : List Ch) :
    readElements (c :: t) = readElements t := by
  conv_lhs => unfold readElements
  exact if_pos hc

theorem readElements_element {o : Octet} {d e : Ch} (ho : SpellsOctet o d e) (t : List Ch) :
    readElements (ch '0' :: ch 'x' :: d :: e :: ch ',' :: t) = (readElements t).map (o :: ·) := by
  obtain ⟨hd, he⟩ := ho.digits
  have hzero : ¬ (ch '0' = ch ' ' ∨ ch '0' = ch '\n') := by decide
  rw [readElements, if_neg hzero, ← ((spellsOctet_relaxed o d e).mp ho).2]
  exact if_pos ⟨rfl, rfl, hd, he, rfl⟩

theorem Initializes.read {b : List Octet} {t : List Ch} (h : Initializes b t) :
    readElements t = some b := by
  induction h with
  | done => rfl
  | blank hc _ ih => rw [readElements_blank hc, ih]
  | element ho _ ih =>
    rw [readElements_element ho, ih]
    rfl

theorem Initializes.append {a b : List Octet} {t u : List Ch} (ha : Initializes a t)
    (hb : Initializes b u) : Initializes (a ++ b) (t ++ u) := by
  induction ha with
  | done => exact hb
  | blank hc _ ih => exact .blank hc ih
  | element ho _ ih => exact .element ho ih

theorem spells_alphabet (c : HexCase) (v : Octet) :
    SpellsOctet v (hexAlphabet c (v >>> 4).toNat) (hexAlphabet c (v &&& 0x0f).toNat) := by
  have hpair := encodeOctets_cons c v []
  simp only [encodeOctets, List.cons.injEq, and_true] at hpair
  rw [hpair.1, hpair.2]
  exact ⟨isDigit_alphabet _ c, isDigit_alphabet _ c⟩

theorem initializes_elements (c : HexCase) (j : ℕ) (l : List Octet) :
    Initializes l (elements c j l) := by
  induction l generalizing j with
  | nil => exact .done
  | cons v l ih =>
    have helement : Initializes (v :: l) (ch '0' :: ch 'x' :: hexAlphabet c (v >>> 4).toNat ::
        hexAlphabet c (v &&& 0x0f).toNat :: ch ',' :: elements c (j + 1) l) :=
      .element (spells_alphabet c v) (ih (j + 1))
    rw [elements]
    split_ifs
    · exact .blank (.inl rfl) helement
    · exact helement

theorem initializes_lines (c : HexCase) (rows : List (List Octet)) :
    Initializes rows.flatten
      (rows.map fun r => [ch ' ', ch ' '] ++ elements c 0 r ++ newline).flatten := by
  induction rows with
  | nil => exact .done
  | cons r rows ih =>
    have hend : Initializes [] newline := .blank (.inr rfl) .done
    have hline := ((initializes_elements c 0 r).append hend).append ih
    rw [List.append_nil, List.append_assoc] at hline
    rw [List.map_cons, List.flatten_cons, List.flatten_cons, List.append_assoc, List.append_assoc]
    exact .blank (.inl rfl) (.blank (.inl rfl) hline)

/-! ## Lines -/

/-- The offset column of a canonical line. -/
def offsetText (o : HexDumpOptions) (w : ℕ) (off : BitVec 64) : List Ch :=
  if o.offsets then Integers.digitsFrom (w := 8) o.digitCase w off ++ "  ".toList.map ch else []

/-- The line of a layout, up to its note. -/
def lineBody (o : HexDumpOptions) (w : ℕ) (off : BitVec 64) (l : List Octet) :
    HexDumpStyle → List Ch
  | .canonical =>
    offsetText o w off ++ hexColumn o l ++ if o.ascii then printableColumn l else []
  | .plain => reference { digitCase := o.digitCase } l
  | .cArray => [ch ' ', ch ' '] ++ elements o.digitCase 0 l

/-- The octets that are read from a line, up to its note. -/
def Says (o : HexDumpOptions) (w : ℕ) (off : BitVec 64) (l : List Octet) (body : List Ch) :
    HexDumpStyle → Prop
  | .canonical => ∃ column, Relaxed [ch ' '] l column ∧
      body = offsetText o w off ++ column ++ if o.ascii then printableColumn l else []
  | .plain => tryHexDecodeRelaxed body hexDefaultIgnored = .ok (some l)
  | .cArray => readElements body = some l

variable {o : HexDumpOptions}

theorem relaxed_octets (o : HexDumpOptions) {l : List Octet} (hl : l.length ≤ o.columns.toNat) :
    Relaxed [ch ' '] l (hexColumn o l) := by
  rw [hexColumn]
  apply relaxed_columns o.digitCase (spaces_blank o)
  split_ifs
  · exact hl
  · exact le_rfl

theorem says_lineBody (o : HexDumpOptions) (w : ℕ) (off : BitVec 64) {l : List Octet}
    (hl : l.length ≤ o.columns.toNat) (s : HexDumpStyle) :
    Says o w off l (lineBody o w off l s) s := by
  cases s with
  | canonical => exact ⟨hexColumn o l, relaxed_octets o hl, rfl⟩
  | plain =>
    apply decoded_of_relaxed
    rw [lineBody, reference_plain]
    exact relaxed_encodeOctets hexDefaultIgnored o.digitCase l
  | cArray =>
    exact (Initializes.blank (.inl rfl)
      (.blank (.inl rfl) (initializes_elements o.digitCase 0 l))).read

theorem printable_ne_newline : ∀ b : Octet, printable b ≠ ch '\n' := by decide +kernel

theorem Relaxed.newline_not_mem {l : List Octet} {t : List Ch} (h : Relaxed [ch ' '] l t) :
    ch '\n' ∉ t := by
  intro hmem
  have hblank : ∀ c ∈ [ch ' '], hexDigitP c = false := by decide
  rcases (h.scan hblank).1 _ hmem with hdigit | hspace
  · exact absurd hdigit (by decide)
  · exact absurd hspace (by decide)

theorem newline_ne_digit {c : Ch} (hc : hexDigitP c = true) : ch '\n' ≠ c := by
  rintro rfl
  exact absurd hc (by decide)

theorem elements_newline (c : HexCase) (j : ℕ) (l : List Octet) : ch '\n' ∉ elements c j l := by
  induction l generalizing j with
  | nil => exact List.not_mem_nil
  | cons v l ih =>
    obtain ⟨hd, he⟩ := (spells_alphabet c v).digits
    have hseparator : ch '\n' ∉ if j ≠ 0 then [ch ' '] else [] := by
      split_ifs <;> decide
    simp only [elements, List.mem_append, List.mem_cons, not_or]
    refine ⟨⟨⟨hseparator, by decide, by decide, newline_ne_digit hd, newline_ne_digit he, ?_⟩,
      by decide, ?_⟩, ih (j + 1)⟩
    · exact List.not_mem_nil
    · exact List.not_mem_nil

/-- No line has an end before its own. -/
theorem lineBody_newline (o : HexDumpOptions) (w : ℕ) (off : BitVec 64) {l : List Octet}
    (hl : l.length ≤ o.columns.toNat) (s : HexDumpStyle) : ch '\n' ∉ lineBody o w off l s := by
  cases s with
  | canonical =>
    have hcolumn := (relaxed_octets o hl).newline_not_mem
    have hfield : ch '\n' ∉ offsetText o w off := by
      rw [offsetText]
      split_ifs
      · rw [List.mem_append, not_or]
        exact ⟨newline_not_mem (Integers.digitsFrom_digits (by decide)), by decide⟩
      · exact List.not_mem_nil
    have hprinted : ch '\n' ∉ printableColumn l := by
      rw [printableColumn, List.mem_append, List.mem_append, not_or, not_or]
      refine ⟨⟨by decide, ?_⟩, by decide⟩
      intro hmem
      obtain ⟨b, -, hb⟩ := List.mem_map.mp hmem
      exact printable_ne_newline b hb
    rw [lineBody, List.mem_append, List.mem_append, not_or, not_or]
    refine ⟨⟨hfield, hcolumn⟩, ?_⟩
    split_ifs
    · exact hprinted
    · exact List.not_mem_nil
  | plain =>
    rw [lineBody, reference_plain]
    exact newline_not_mem (encodeOctets_digits o.digitCase l)
  | cArray =>
    rw [lineBody, List.mem_append, not_or]
    exact ⟨by decide, elements_newline o.digitCase 0 l⟩

/-! ## Dumps -/

/-- Where a body writes the body of a line, its note and its end, the loop writes them for every
row. -/
theorem dumpLines_bodies (hvalid : o.valid = true) (b : Span) (w : ℕ) (s : HexDumpStyle)
    {body : ℕ → List Octet → Except Contract (List Ch)}
    (hbody : ∀ i l, l.length ≤ o.columns.toNat → body i l =
      .ok (lineBody o w (o.offset + BitVec.ofNat 64 i) l s ++
        annotate o (o.offset + BitVec.ofNat 64 i) ++ newline)) :
    ∃ rows, Rows o.columns.toNat b.octets rows ∧
      dumpLines b.octets o.columns.toNat body b.octets.length 0 =
        .ok (rows.mapIdx fun k r =>
          lineBody o w (o.offset + BitVec.ofNat 64 (k * o.columns.toNat)) r s ++
            annotate o (o.offset + BitVec.ofNat 64 (k * o.columns.toNat)) ++ newline).flatten := by
  obtain ⟨rows, hrows, hdump⟩ := dumpLines_rows b.bounded (columns_pos hvalid) o.columns.isLt
    (fun i l _ hl => hbody i l hl) (Nat.le_add_left b.octets.length 0)
  rw [List.drop_zero] at hrows
  simp only [Nat.zero_add] at hdump
  exact ⟨rows, hrows, hdump⟩

theorem canonicalLine_body (o : HexDumpOptions) {w : ℕ} (hw : w ≤ 16) (i : ℕ) (l : List Octet) :
    canonicalLine o w i l = .ok (lineBody o w (o.offset + BitVec.ofNat 64 i) l .canonical ++
      annotate o (o.offset + BitVec.ofNat 64 i) ++ newline) := by
  simp only [canonicalLine, lineBody, offsetText, offsetField_eq hw]
  by_cases hoffsets : o.offsets = true
  · simp only [hoffsets, if_true]
    rfl
  · simp only [hoffsets, Bool.false_eq_true, if_false]
    rfl

theorem plainLine_body (t : Target) (o : HexDumpOptions) (w i : ℕ) {l : List Octet}
    (hl : l.length ≤ o.columns.toNat) :
    plainLine t o i l = .ok (lineBody o w (o.offset + BitVec.ofNat 64 i) l .plain ++
      annotate o (o.offset + BitVec.ofNat 64 i) ++ newline) := by
  have hcolumns := o.columns.isLt
  have hencode := hexEncode_eq t (s := { digitCase := o.digitCase }) (b := l) rfl (by
    simp only [sizeMax]
    omega)
  rw [plainLine, hencode]
  rfl

/-- The text of a dump in a layout, row by row. -/
theorem hexDumperFor_rows (t : Target) (hvalid : o.valid = true) (b : Span) (s : HexDumpStyle) :
    ∃ rows, Rows o.columns.toNat b.octets rows ∧ hexDumperFor t s o b =
      .ok (rows.mapIdx fun k r =>
        lineBody o (dumpWidth o b) (o.offset + BitVec.ofNat 64 (k * o.columns.toNat)) r s ++
          annotate o (o.offset + BitVec.ofNat 64 (k * o.columns.toNat)) ++ newline).flatten := by
  have hwidth := (offsetWidth_spec (o.offset + BitVec.ofNat 64 b.octets.length)).2.1
  cases s with
  | canonical =>
    obtain ⟨rows, hrows, hdump⟩ := dumpLines_bodies hvalid b (dumpWidth o b) .canonical
      fun i l _ => canonicalLine_body o hwidth i l
    refine ⟨rows, hrows, ?_⟩
    rw [hexDumperFor, canonicalDump, require_of hvalid]
    exact hdump
  | plain =>
    obtain ⟨rows, hrows, hdump⟩ := dumpLines_bodies hvalid b (dumpWidth o b) .plain
      fun i l hl => plainLine_body t o (dumpWidth o b) i hl
    refine ⟨rows, hrows, ?_⟩
    rw [hexDumperFor, plainDump, require_of hvalid]
    exact hdump
  | cArray =>
    have hbody : ∀ i l, l.length ≤ o.columns.toNat → Except.ok (cArrayLine o i l) =
        (.ok (lineBody o (dumpWidth o b) (o.offset + BitVec.ofNat 64 i) l .cArray ++
          annotate o (o.offset + BitVec.ofNat 64 i) ++ newline) : Except Contract (List Ch)) :=
      fun i l _ => rfl
    obtain ⟨rows, hrows, hdump⟩ := dumpLines_bodies hvalid b (dumpWidth o b) .cArray hbody
    refine ⟨rows, hrows, ?_⟩
    rw [hexDumperFor, cArrayDump, require_of hvalid]
    exact hdump

/-- Whatever the options, every layout has a line for each row of the octets, which no other end of a
line cuts. The octets of the row are read from it, and the note that follows them is that of the
offset of the first. Without notes, the third layout is an initializer list of all the octets. -/
theorem dump_layouts (t : Target) {o : HexDumpOptions} (hvalid : o.valid = true) (b : Span)
    (s : HexDumpStyle) :
    ∃ (rows : List (List Octet)) (bodies : List (List Ch)) (text : List Ch),
      Rows o.columns.toNat b.octets rows ∧ bodies.length = rows.length ∧
      hexDumperFor t s o b = .ok text ∧
      text = (bodies.mapIdx fun k body =>
        body ++ annotate o (o.offset + BitVec.ofNat 64 (k * o.columns.toNat)) ++ newline).flatten ∧
      (∀ k l body, rows[k]? = some l → bodies[k]? = some body → ch '\n' ∉ body ∧
        Says o (dumpWidth o b) (o.offset + BitVec.ofNat 64 (k * o.columns.toNat)) l body s) ∧
      (s = .cArray → o.annotate = none → readElements text = some b.octets) := by
  obtain ⟨rows, hrows, hdump⟩ := hexDumperFor_rows t hvalid b s
  refine ⟨rows, rows.mapIdx fun k r =>
    lineBody o (dumpWidth o b) (o.offset + BitVec.ofNat 64 (k * o.columns.toNat)) r s, _, hrows,
    List.length_mapIdx, hdump, ?_, ?_, ?_⟩
  · rw [List.mapIdx_mapIdx]
    rfl
  · intro k l body hl hbody
    have hfits := (hrows.bounds (columns_pos hvalid) hl).2.2
    rw [List.getElem?_mapIdx, hl] at hbody
    obtain rfl := Option.some.inj hbody
    exact ⟨lineBody_newline o _ _ hfits s, says_lineBody o _ _ hfits s⟩
  · rintro rfl hnone
    have hread := (initializes_lines o.digitCase rows).read
    rw [hrows.joined] at hread
    have hlines : (rows.mapIdx fun k r =>
        lineBody o (dumpWidth o b) (o.offset + BitVec.ofNat 64 (k * o.columns.toNat)) r .cArray ++
          annotate o (o.offset + BitVec.ofNat 64 (k * o.columns.toNat)) ++ newline) =
        rows.map fun r => [ch ' ', ch ' '] ++ elements o.digitCase 0 r ++ newline := by
      apply List.ext_getElem (by simp)
      intro k _ _
      simp [lineBody, annotate, hnone]
    rw [hlines, hread]

/-- Three octets in lines of two. -/
theorem dump_layouts_pairs :
    cArrayDump { columns := 2 } ⟨[0xde, 0xad, 0xbe], by decide⟩ =
        .ok ("  0xde, 0xad,\n  0xbe,\n".toList.map ch) ∧
      ∃ text, cArrayDump { columns := 2 } ⟨[0xde, 0xad, 0xbe], by decide⟩ = .ok text ∧
        readElements text = some [0xde, 0xad, 0xbe] := by
  obtain ⟨-, -, text, -, -, hdump, -, -, hread⟩ := dump_layouts (.native .little)
    (o := { columns := 2 }) (by decide) ⟨[0xde, 0xad, 0xbe], by decide⟩ .cArray
  exact ⟨by decide +kernel, text, hdump, hread rfl rfl⟩

end IW4x.Hex
