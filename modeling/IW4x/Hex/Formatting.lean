import IW4x.Hex.Dump

/-!
# Named styles and `std::format`

Five styles have a name and a letter. A format specification is one of the letters, in the case that
the digits are to have, or nothing at all, which leaves a view with its own style.
-/

namespace IW4x.Hex

inductive HexStyleId where
  | compact
  | spaced
  | colon
  | dashed
  | prefixed
  deriving DecidableEq, Repr

structure HexStyleTraits where
  style : HexStyle
  /-- The letter of a format specification, in lower case. -/
  specifier : Ch

/-- `traits`, on `hex_style_table`. -/
def HexStyleId.traits : HexStyleId → HexStyleTraits
  | .compact => { style := { separator := 0 }, specifier := ch 'n' }
  | .spaced => { style := { separator := ch ' ' }, specifier := ch 's' }
  | .colon => { style := { separator := ch ':' }, specifier := ch 'c' }
  | .dashed => { style := { separator := ch '-' }, specifier := ch 'd' }
  | .prefixed => { style := { separator := 0, prefixed := true }, specifier := ch 'x' }

/-- The styles in the order of `hex_style_table`. -/
def HexStyleId.all : List HexStyleId := [.compact, .spaced, .colon, .dashed, .prefixed]

def style (i : HexStyleId) (c : HexCase) : Except Contract HexStyle := do
  require .assertion (({ i.traits.style with digitCase := c } : HexStyle).valid = true)
  return { i.traits.style with digitCase := c }

structure HexView where
  octets : List Octet
  style : HexStyle := {}

structure FormatError where
  what : String
  deriving DecidableEq, Repr

/-- `std::formatter<hex_view>`. -/
structure HexFormatter where
  overridden : Bool := false
  styleId : HexStyleId := .compact
  digitCase : HexCase := .lower
  deriving DecidableEq, Repr

/-- The brace at which a specification ends. -/
def closing : Ch := ch '\x7d'

def lowered (c : Ch) : Ch := if ch 'A' ≤ c ∧ c ≤ ch 'Z' then c - ch 'A' + ch 'a' else c

namespace HexFormatter

/-- `parse`, which gives back what it has not read. -/
def parse (f : HexFormatter) : List Ch → Except FormatError (HexFormatter × List Ch)
  | [] => .ok (f, [])
  | c :: rest =>
    if c = closing then .ok (f, c :: rest)
    else
      match HexStyleId.all.find? fun i => i.traits.specifier = lowered c with
      | none => .error ⟨"invalid hexadecimal format specifier"⟩
      | some i =>
        let f : HexFormatter :=
          { overridden := true
            styleId := i
            digitCase := if c = lowered c then .lower else .upper }
        match rest with
        | [] => .ok (f, [])
        | e :: rest =>
          if e = closing then .ok (f, e :: rest)
          else .error ⟨"invalid hexadecimal format specification"⟩

/-- `format`: what is copied to the output. -/
def format (t : Target) (f : HexFormatter) (v : HexView) : Except Contract (List Ch) := do
  let s ← if f.overridden then style f.styleId f.digitCase else .ok v.style
  hexEncode t v.octets s

end HexFormatter

/-! ## Specifications -/

/-- What a specification asks for, if it is not empty. -/
abbrev Choice := Option (HexStyleId × HexCase)

def letter (i : HexStyleId) : HexCase → Ch
  | .lower => i.traits.specifier
  | .upper => i.traits.specifier - ch 'a' + ch 'A'

/-- What follows a specification. -/
def Ended (rest : List Ch) : Prop := ∀ c ∈ rest.head?, c = closing

/-- The grammar of the specifications, with what follows them. -/
inductive Specifies : List Ch → Choice → List Ch → Prop where
  | nothing {rest : List Ch} (hend : Ended rest) : Specifies rest none rest
  | letter (i : HexStyleId) (c : HexCase) {rest : List Ch} (hend : Ended rest) :
      Specifies (letter i c :: rest) (some (i, c)) rest

def HexFormatter.choose (f : HexFormatter) : Choice → HexFormatter
  | none => f
  | some (i, c) => { overridden := true, styleId := i, digitCase := c }

def Choice.style (own : HexStyle) : Choice → HexStyle
  | none => own
  | some (i, c) => { i.traits.style with digitCase := c }

theorem ended_nil : Ended [] := fun _ h => nomatch h

theorem ended_closing (rest : List Ch) : Ended (closing :: rest) := by
  intro c hc
  exact (Option.some.inj hc).symm

theorem Ended.eq {c : Ch} {rest : List Ch} (h : Ended (c :: rest)) : c = closing := h c rfl

theorem find_letter : ∀ c : Ch, ∀ i : HexStyleId, ∀ k : HexCase,
    c = letter i k ↔ (HexStyleId.all.find? fun i => i.traits.specifier = lowered c) = some i ∧
      k = if c = lowered c then .lower else .upper := by
  intro c i k
  cases i <;> cases k <;> revert c <;> decide +kernel

theorem letter_ne_closing (i : HexStyleId) (c : HexCase) : letter i c ≠ closing := by
  cases i <;> cases c <;> decide

namespace HexFormatter

theorem parse_ended (f : HexFormatter) {rest : List Ch} (hend : Ended rest) :
    f.parse rest = .ok (f, rest) := by
  cases rest with
  | nil => rfl
  | cons c rest => exact if_pos hend.eq

theorem parse_letter (f : HexFormatter) (i : HexStyleId) (c : HexCase) {rest : List Ch}
    (hend : Ended rest) : f.parse (letter i c :: rest) = .ok (f.choose (some (i, c)), rest) := by
  obtain ⟨hfind, hcase⟩ := (find_letter _ i c).mp rfl
  rw [parse, if_neg (letter_ne_closing i c), hfind]
  simp only [← hcase]
  cases rest with
  | nil => rfl
  | cons e rest => exact if_pos hend.eq

/-- What is read is of the grammar. -/
theorem specifies_of_parse {f g : HexFormatter} {spec rest : List Ch}
    (h : f.parse spec = .ok (g, rest)) : ∃ o, Specifies spec o rest ∧ g = f.choose o := by
  cases spec with
  | nil =>
    obtain ⟨rfl, rfl⟩ := Prod.mk.inj (Except.ok.inj h)
    exact ⟨none, .nothing ended_nil, rfl⟩
  | cons c tail =>
    rw [parse] at h
    by_cases hclosing : c = closing
    · rw [if_pos hclosing] at h
      obtain ⟨rfl, rfl⟩ := Prod.mk.inj (Except.ok.inj h)
      rw [hclosing]
      exact ⟨none, .nothing (ended_closing tail), rfl⟩
    · rw [if_neg hclosing] at h
      cases hfind : HexStyleId.all.find? fun i => i.traits.specifier = lowered c with
      | none =>
        rw [hfind] at h
        cases h
      | some i =>
        simp only [hfind] at h
        generalize hcase : (if c = lowered c then HexCase.lower else .upper) = k at h
        obtain rfl : c = letter i k := (find_letter c i k).mpr ⟨hfind, hcase.symm⟩
        refine ⟨some (i, k), ?_⟩
        cases tail with
        | nil =>
          obtain ⟨rfl, rfl⟩ := Prod.mk.inj (Except.ok.inj h)
          exact ⟨.letter i k ended_nil, rfl⟩
        | cons e tail =>
          simp only at h
          split_ifs at h with hend
          obtain ⟨rfl, rfl⟩ := Prod.mk.inj (Except.ok.inj h)
          rw [hend]
          exact ⟨.letter i k (ended_closing tail), rfl⟩

theorem parse_iff (f g : HexFormatter) (spec rest : List Ch) :
    f.parse spec = .ok (g, rest) ↔ ∃ o, Specifies spec o rest ∧ g = f.choose o := by
  constructor
  · exact specifies_of_parse
  · rintro ⟨o, hspec, rfl⟩
    cases hspec with
    | nothing hend => exact f.parse_ended hend
    | letter i c hend => exact f.parse_letter i c hend

end HexFormatter

/-! ## Formatted texts -/

theorem HexStyleId.valid (i : HexStyleId) (c : HexCase) :
    HexStyle.valid { i.traits.style with digitCase := c } = true := by
  cases i <;> rfl

theorem style_eq (i : HexStyleId) (c : HexCase) :
    style i c = .ok { i.traits.style with digitCase := c } := by
  simp only [style, require_of (HexStyleId.valid i c)]
  rfl

theorem HexStyleId.separator_ignored (i : HexStyleId) :
    i.traits.style.separator = 0 ∨ i.traits.style.separator ∈ hexDefaultIgnored := by
  rw [hexDefaultIgnored_eq]
  cases i <;> decide

theorem Choice.style_valid {own : HexStyle} (hown : own.valid = true) (o : Choice) :
    (o.style own).valid = true := by
  cases o with
  | none => exact hown
  | some p => exact HexStyleId.valid p.1 p.2

theorem relaxed_reference {s : HexStyle}
    (hs : s.separator = 0 ∨ s.separator ∈ hexDefaultIgnored) (b : List Octet) :
    tryHexDecodeRelaxed (reference s b) hexDefaultIgnored = .ok (some b) := by
  have hrest : Relaxed hexDefaultIgnored b (referenceFrom s 0 b) := (spells_reference 0 b).relaxed hs
  have hdropped : Dropped (reference s b) (referenceFrom s 0 b) := by
    rw [reference]
    split_ifs
    · exact .inr (.inl rfl)
    · exact .inl rfl
  obtain ⟨r, hrun, hr⟩ := tryHexDecodeRelaxed_spec ignored_plain (reference s b)
  rw [hrun, (hr b).mpr ((dropped_iff ignored_plain b _).mp ⟨_, hdropped, hrest⟩)]

theorem strict_reference {s : HexStyle} (hs : s.valid = true) {b : List Octet}
    (hbounded : (reference s b).length < 2 ^ 63) :
    tryHexDecode (reference s b) s = .ok (some b) := by
  obtain ⟨r, hrun, hr⟩ := decode_spec hs hbounded
  rw [tryHexDecode, hrun, (hr b).mpr (encodes_reference s b)]

namespace HexFormatter

theorem format_choose (t : Target) (o : Choice) {v : HexView} (hvalid : v.style.valid = true)
    (hfits : v.octets.length ≤ (sizeMax - 2) / 3) :
    format t (choose {} o) v = .ok (reference (o.style v.style) v.octets) := by
  cases o with
  | none => exact hexEncode_eq t hvalid hfits
  | some p =>
    have hencode := hexEncode_eq t (HexStyleId.valid p.1 p.2) hfits
    simp only [format, choose, style_eq, if_true, bind, Except.bind]
    exact hencode

/-- A specification is accepted if it is empty or one of the ten letters, and ends there. What is
then written is the text of the style that it asks for, or of the view's own without one. The decoder
of that style reads the octets of the view from it, and so does the relaxed one, which knows nothing
of the style, whenever a style was asked for. -/
theorem formatted_read_back (t : Target) (spec rest : List Ch) (f : HexFormatter) (v : HexView)
    (hvalid : v.style.valid = true) (hfits : v.octets.length ≤ (sizeMax - 2) / 3) :
    parse {} spec = .ok (f, rest) ↔ ∃ o, Specifies spec o rest ∧ f = choose {} o ∧
      format t f v = .ok (reference (o.style v.style) v.octets) ∧
      ((reference (o.style v.style) v.octets).length < 2 ^ 63 →
        tryHexDecode (reference (o.style v.style) v.octets) (o.style v.style) =
          .ok (some v.octets)) ∧
      (o.isSome = true →
        tryHexDecodeRelaxed (reference (o.style v.style) v.octets) hexDefaultIgnored =
          .ok (some v.octets)) := by
  rw [parse_iff]
  constructor
  · rintro ⟨o, hspec, rfl⟩
    refine ⟨o, hspec, rfl, format_choose t o hvalid hfits, ?_, ?_⟩
    · exact strict_reference (o.style_valid hvalid)
    · intro hsome
      apply relaxed_reference
      cases o with
      | none => cases hsome
      | some p => exact p.1.separator_ignored
  · rintro ⟨o, hspec, hf, -⟩
    exact ⟨o, hspec, hf⟩

/-- Two octets with `X`, whatever style they came with. -/
theorem formatted_read_back_prefixed :
    parse {} [ch 'X', closing] = .ok (⟨true, .prefixed, .upper⟩, [closing]) ∧
      ∃ o, Specifies [ch 'X', closing] o [closing] ∧
        format (.native .little) ⟨true, .prefixed, .upper⟩ ⟨[0xde, 0xad], { separator := ch '.' }⟩ =
          .ok (reference (o.style { separator := ch '.' }) [0xde, 0xad]) := by
  have hparse : parse {} [ch 'X', closing] = .ok (⟨true, .prefixed, .upper⟩, [closing]) := by decide
  obtain ⟨o, hspec, -, hformat, -⟩ := (formatted_read_back (.native .little) _ _ _
    ⟨[0xde, 0xad], { separator := ch '.' }⟩ (by decide) (by simp [sizeMax])).mp hparse
  exact ⟨hparse, o, hspec, hformat⟩

end HexFormatter

end IW4x.Hex
