import IW4x.Lib.Placeholders
import IW4x.Gdk.TextWriter

/-!
# Formatting

`format` writes its arguments in the places of a format string. For each argument it writes the
string up to the next pair of braces and goes on behind it, so that no pair of braces that an
argument brings is ever looked for.
-/

namespace IW4x.Gdk

open RawMemory Placeholders Hex

def openBrace : UInt8 := 0x7B
def closeBrace : UInt8 := 0x7D

/-- What marks the place of an argument. -/
def braces : Bytes := [openBrace, closeBrace]

/-- The loop of `write_literal`: the string before the place it stops at, and the string from where
it is to go on. -/
def literal : Bytes → Bytes × Bytes
  | [] => ([], [])
  | x :: p =>
    if x = 0 then ([], x :: p)
    else if x = openBrace ∧ p.head? = some closeBrace then ([], p.tail)
    else
      let r := literal p
      (x :: r.1, r.2)

namespace TextWriter

def writeLiteral (w : TextWriter) (f : Bytes) : TextWriter × Bytes :=
  let r := literal f
  (w.write r.1, r.2)

def writeRest (w : TextWriter) (f : Bytes) : TextWriter := w.write (cString f)

def format : TextWriter → Bytes → List Value → Except Contract TextWriter
  | w, f, [] => .ok (w.writeRest f)
  | w, f, a :: args => do
    let r := w.writeLiteral f
    let w ← r.1.writeValue a
    format w r.2 args

end TextWriter

/-- The constructor of `text<N>`, in memory that may hold anything. -/
def textOf (m : Mem) (N : ℕ) (h : 0 < N) (f : Bytes) (args : List Value) :
    Except Contract Bytes := do
  let w ← (TextWriter.start m 0 N h).format f args
  return RawMemory.read w.mem 0 (w.size % 2 ^ 32)

/-- The full text of a format. -/
def formatted (f : Bytes) (args : List Value) : Bytes :=
  fill braces (cString f) (args.map Value.text)

/-! ## The places -/

/-- The loop stops at the first place, or at the end of a string that has none. -/
theorem literal_eq (f : Bytes) :
    ((literal f).1, cString (literal f).2) =
      (cut braces (cString f)).getD (cString f, []) := by
  induction f with
  | nil => decide
  | cons x p ih =>
    by_cases hx : x = 0
    · subst hx
      simp [cString, cut, literal, braces]
    · have hstring : cString (x :: p) = x :: cString p :=
        List.takeWhile_cons_of_pos (by simpa using hx)
      rw [hstring, cut, literal, if_neg hx]
      by_cases hplace : x = openBrace ∧ p.head? = some closeBrace
      · obtain ⟨rfl, hhead⟩ := hplace
        obtain ⟨q, rfl⟩ : ∃ q, p = closeBrace :: q := List.head?_eq_some_iff.mp hhead
        have hclose : cString (closeBrace :: q) = closeBrace :: cString q :=
          List.takeWhile_cons_of_pos (by decide)
        simp [hclose, braces]
      · have hnone : ¬ braces <+: x :: cString p := by
          rw [braces]
          rintro ⟨post, hpost⟩
          obtain ⟨rfl, htail⟩ := List.cons.inj hpost
          apply hplace
          refine ⟨rfl, ?_⟩
          cases p with
          | nil => simp [cString] at htail
          | cons y q =>
            by_cases hy : y = 0
            · simp [cString, hy] at htail
            · rw [cString, List.takeWhile_cons_of_pos (by simpa using hy)] at htail
              rw [List.head?_cons, (List.cons.inj htail).1]
        rw [if_neg hplace, if_neg hnone]
        obtain ⟨hfirst, hsecond⟩ := Prod.mk.inj ih
        cases hcut : cut braces (cString p) with
        | none =>
          rw [hcut] at hfirst hsecond
          simp [hfirst, hsecond]
        | some c =>
          rw [hcut] at hfirst hsecond
          simp [hfirst, hsecond]

theorem formatted_cons (f : Bytes) (a : Value) (args : List Value) :
    formatted f (a :: args) =
      (literal f).1 ++ a.text ++ fill braces (cString (literal f).2) (args.map Value.text) := by
  obtain ⟨hfirst, hsecond⟩ := Prod.mk.inj (literal_eq f)
  simp only [formatted, List.map_cons, fill]
  cases hcut : cut braces (cString f) with
  | none =>
    rw [hcut] at hfirst hsecond
    rw [hfirst, hsecond]
    cases args with
    | nil => simp [fill]
    | cons b args => simp [fill, cut, braces]
  | some c =>
    rw [hcut] at hfirst hsecond
    rw [hfirst, hsecond]

theorem formatted_last {f : Bytes} (hliteral : literal (f ++ braces) = (f, [])) (a : Value) :
    formatted (f ++ braces) [a] = f ++ a.text := by
  rw [formatted_cons, hliteral]
  simp [fill, cString]

variable {b c : ℕ} {m : Mem} {t : Bytes} {w : TextWriter}

theorem format_carries (h : Carries b c m t w) (f : Bytes) (args : List Value) :
    ∃ w', w.format f args = .ok w' ∧ Carries b c m (t ++ formatted f args) w' := by
  induction args generalizing w t f with
  | nil => exact ⟨_, rfl, TextWriter.write_carries h (cString f)⟩
  | cons a args ih =>
    have hliteral := TextWriter.write_carries h (literal f).1
    obtain ⟨w₁, hvalue, hfirst⟩ := TextWriter.writeValue_carries hliteral a
    obtain ⟨w₂, hformat, hrest⟩ := ih hfirst (literal f).2
    refine ⟨w₂, ?_, ?_⟩
    · simp only [TextWriter.format, TextWriter.writeLiteral]
      rw [hvalue]
      exact hformat
    · rw [formatted_cons]
      simpa [formatted] using hrest

theorem textOf_eq (m : Mem) {N : ℕ} (h : 0 < N) (hN : N ≤ 2 ^ 32 - 1) (f : Bytes)
    (args : List Value) : textOf m N h f args = .ok (text N (formatted f args)) := by
  obtain ⟨w, hformat, hcarries⟩ := format_carries (TextWriter.start_carries m 0 h) f args
  have hsize : w.size % 2 ^ 32 = w.size := by
    have hlt := w.fits
    rw [hcarries.capacity] at hlt
    exact Nat.mod_eq_of_lt (by omega)
  have hview := hcarries.view
  rw [TextWriter.view, hcarries.buffer, List.nil_append] at hview
  rw [textOf, hformat]
  change Except.ok (RawMemory.read w.mem 0 (w.size % 2 ^ 32)) = _
  rw [hsize, hview, text]

theorem cString_of_not_mem {f : Bytes} (h : 0 ∉ f) : cString f = f := by
  apply List.takeWhile_eq_self_iff.mpr
  intro x hx
  have hne : x ≠ 0 := fun hzero => h (hzero ▸ hx)
  simpa using hne

/-- `format` fills the leftmost places of its string that do not overlap, in order and with the texts
of its arguments, wherever there is room. -/
theorem format_fills {f : Bytes} (hf : 0 ∉ f) (args : List Value) :
    ∃ r, Filled braces f (args.map Value.text) r ∧
      (∀ r', Filled braces f (args.map Value.text) r' → r' = r) ∧
      ∀ {b c m t w}, Carries b c m t w → t.length + r.length ≤ c - 1 →
        ∃ w', w.format f args = .ok w' ∧ w'.view = t ++ r ∧ w'.whole = true ∧
          Holds w'.mem b (t ++ r ++ [0]) := by
  have hformatted : formatted f args = fill braces f (args.map Value.text) := by
    rw [formatted, cString_of_not_mem hf]
  refine ⟨formatted f args, ?_, ?_, ?_⟩
  · rw [hformatted]
    exact fill_filled braces _ f
  · intro r' hr'
    rw [hformatted]
    exact hr'.eq_fill
  · intro b c m t w h hroom
    obtain ⟨w', hformat, hcarries⟩ := format_carries h f args
    have hlength : (t ++ formatted f args).length ≤ c - 1 := by
      rw [List.length_append]
      exact hroom
    refine ⟨w', hformat, ?_, hcarries.whole.mpr hlength, ?_⟩
    · rw [hcarries.view, List.take_of_length_le hlength]
    · have htext := hcarries.text
      rwa [List.take_of_length_le hlength] at htext

/-- Braces that an argument brings are left alone. -/
theorem format_fills_braces : ∃ w',
    (TextWriter.start (fun _ => 0) 0 8 (by decide)).format ([openBrace] ++ braces ++ braces)
        [.view braces, .char 0x31] = .ok w' ∧
      w'.view = [openBrace] ++ braces ++ [0x31] ∧ w'.whole = true := by
  obtain ⟨r, hfilled, -, hformat⟩ := format_fills (f := [openBrace] ++ braces ++ braces) (by decide)
    [.view braces, .char 0x31]
  have hr : r = [openBrace] ++ braces ++ [0x31] := by
    rw [hfilled.eq_fill]
    decide
  subst hr
  obtain ⟨w', hok, hview, hwhole, -⟩ :=
    hformat (TextWriter.start_carries (fun _ => 0) 0 (c := 8) (by decide)) (by decide)
  exact ⟨w', hok, hview, hwhole⟩

end IW4x.Gdk
