import Mathlib.Data.List.TakeWhile
import IW4x.Lib.Numerals
import IW4x.Hex.Encode

/-!
# Integers

The conversions of an unsigned integer of `w` octets. The digits are those of the number, highest
first, either all of them or from the first that is not zero on, and the parser reads the digits at
the start of a text as long as there is room for them.
-/

namespace IW4x.Hex

open Numerals

/-- An unsigned integer of `w` octets. -/
abbrev Unsigned (w : ℕ) := BitVec (8 * w)

namespace Integers

variable {w : ℕ}

/-- The loop of both `to_hex_chars` and `to_hex_chars_minimal`. -/
def digitsFrom (c : HexCase) (n : ℕ) (v : Unsigned w) : List Ch :=
  (List.range n).map fun i => hexAlphabet c ((v >>> ((n - 1 - i) * 4)) &&& 0x0f).toNat

/-- `to_hex_chars`, into a buffer of `room` characters. -/
def toHexChars (room : ℕ) (v : Unsigned w) (c : HexCase) : ToChars :=
  let n := w * 2
  if room < n then .tooLarge else .written (digitsFrom c n v)

/-- The number of digits in `to_hex_chars_minimal`. -/
def minimalLength (v : Unsigned w) : ℕ := if v = 0 then 1 else w * 2 - v.clz.toNat / 4

def toHexCharsMinimal (room : ℕ) (v : Unsigned w) (c : HexCase) : Except Contract ToChars := do
  let n := minimalLength v
  require .assertion (1 ≤ n ∧ n ≤ w * 2)
  return if room < n then .tooLarge else .written (digitsFrom c n v)

inductive Errc where
  | ok
  | invalidArgument
  | resultOutOfRange
  deriving DecidableEq, Repr

/-- What `from_hex_chars` returns, and the output variable after it. -/
structure Parsed (w : ℕ) where
  /-- The text from the pointer that is returned. -/
  ptr : List Ch
  ec : Errc
  v : Unsigned w
  deriving DecidableEq

/-- The loop of `from_hex_chars`: the text it stops at, the value and the number of digits, or none
at a digit for which there is no room. -/
def readDigits : List Ch → Unsigned w → ℕ → Option (List Ch × Unsigned w × ℕ)
  | [], r, n => some ([], r, n)
  | c :: p, r, n =>
    let d := hexValue c
    if d = hexInvalid then some (c :: p, r, n)
    else if n = w * 2 then none
    else readDigits p ((r <<< 4) ||| d.setWidth (8 * w)) (n + 1)

/-- `from_hex_chars`, with the output variable `v`. -/
def fromHexChars (text : List Ch) (v : Unsigned w) : Parsed w :=
  match readDigits text 0 0 with
  | none => ⟨text, .resultOutOfRange, v⟩
  | some (p, r, n) => if n = 0 then ⟨text, .invalidArgument, v⟩ else ⟨p, .ok, r⟩

/-- The number that a run of digits writes. -/
def numeral (t : List Ch) : ℕ := value 16 (t.map fun c => (hexValue c).toNat)

/-- The digits at the start of a text. -/
def leadingRun (t : List Ch) : List Ch := t.takeWhile hexDigitP

/-! ## Digits of a number -/

theorem hexValue_alphabet (c : HexCase) {n : ℕ} (hn : n < 16) :
    (hexValue (hexAlphabet c n)).toNat = n :=
  (isDigit_iff hn _).mp (isDigit_alphabet n c)

theorem hexDigitP_alphabet (c : HexCase) {n : ℕ} (hn : n < 16) :
    hexDigitP (hexAlphabet c n) = true := by
  rw [hexDigitP_iff, hexValue_alphabet c hn]
  exact hn

theorem nibble_shift (hw : 0 < w) (v : Unsigned w) (k : ℕ) :
    ((v >>> (k * 4)) &&& 0x0f).toNat = v.toNat / 16 ^ k % 16 := by
  have hmask : (0x0f : Unsigned w).toNat = 2 ^ 4 - 1 := by
    have hpow : 2 ^ 4 ≤ 2 ^ (8 * w) := Nat.pow_le_pow_right (by norm_num) (by omega)
    exact Nat.mod_eq_of_lt (lt_of_lt_of_le (by norm_num) hpow)
  have hbase : 2 ^ (k * 4) = 16 ^ k := by
    rw [Nat.mul_comm, Nat.pow_mul]
  rw [BitVec.toNat_and, hmask, Nat.and_two_pow_sub_one_eq_mod, BitVec.toNat_ushiftRight,
    Nat.shiftRight_eq_div_pow, hbase]

theorem digitsFrom_eq (hw : 0 < w) (c : HexCase) (n : ℕ) (v : Unsigned w) :
    digitsFrom c n v = (lowDigits 16 n v.toNat).map (hexAlphabet c) := by
  rw [digitsFrom, lowDigits, List.map_map]
  apply List.map_congr_left
  intro i _
  exact congrArg (hexAlphabet c) (nibble_shift hw v (n - 1 - i))

@[simp] theorem digitsFrom_length (c : HexCase) (n : ℕ) (v : Unsigned w) :
    (digitsFrom c n v).length = n := by
  simp [digitsFrom]

theorem digitsFrom_digits (hw : 0 < w) {c : HexCase} {n : ℕ} {v : Unsigned w} :
    ∀ x ∈ digitsFrom c n v, hexDigitP x = true := by
  rw [digitsFrom_eq hw]
  intro x hx
  obtain ⟨d, hd, rfl⟩ := List.mem_map.mp hx
  exact hexDigitP_alphabet c (lowDigits_lt (by norm_num) hd)

theorem numeral_digitsFrom (hw : 0 < w) (c : HexCase) (n : ℕ) (v : Unsigned w) :
    numeral (digitsFrom c n v) = v.toNat % 16 ^ n := by
  have hread : (lowDigits 16 n v.toNat).map (fun d => (hexValue (hexAlphabet c d)).toNat) =
      (lowDigits 16 n v.toNat).map id := by
    apply List.map_congr_left
    intro d hd
    exact hexValue_alphabet c (lowDigits_lt (by norm_num) hd)
  rw [numeral, digitsFrom_eq hw, List.map_map]
  exact (congrArg (value 16) (hread.trans (List.map_id _))).trans (value_lowDigits n v.toNat)

theorem pow_digits (w : ℕ) : 16 ^ (w * 2) = 2 ^ (8 * w) := by
  rw [show (16 : ℕ) = 2 ^ 4 by norm_num, ← Nat.pow_mul]
  congr 1
  omega

/-- The digits from the first that is not zero on, or the last. -/
theorem minimalLength_spec (hw : 0 < w) (v : Unsigned w) :
    1 ≤ minimalLength v ∧ minimalLength v ≤ w * 2 ∧ v.toNat < 16 ^ minimalLength v ∧
      (v ≠ 0 → 16 ^ (minimalLength v - 1) ≤ v.toNat) := by
  by_cases hzero : v = 0
  · subst hzero
    simp [minimalLength]
    omega
  · have hlength : minimalLength v = w * 2 - v.clz.toNat / 4 := if_neg hzero
    have hclz : v.clz.toNat < 8 * w := by
      have h := BitVec.clz_lt_iff_ne_zero.mpr hzero
      have hwidth : (8 * w : ℕ) < 2 ^ (8 * w) := Nat.lt_two_pow_self
      simpa [BitVec.lt_def, Nat.mod_eq_of_lt hwidth] using h
    have hhigh := BitVec.toNat_lt_two_pow_sub_clz (x := v)
    have hlow := BitVec.two_pow_sub_clz_le_toNat_of_ne_zero (by omega) hzero
    rw [hlength]
    generalize v.clz.toNat = k at hclz hhigh hlow
    have hbase (n : ℕ) : 16 ^ n = 2 ^ (4 * n) := by
      rw [Nat.pow_mul]
    refine ⟨by omega, by omega, ?_, ?_⟩
    · rw [hbase]
      exact lt_of_lt_of_le hhigh (Nat.pow_le_pow_right (by norm_num) (by omega))
    · intro _
      rw [hbase]
      exact le_trans (Nat.pow_le_pow_right (by norm_num) (by omega)) hlow

/-! ## Reading -/

theorem digit_valid {c : Ch} (hc : hexDigitP c = true) : hexValue c ≠ hexInvalid := by
  simpa [hexDigitP] using hc

theorem leadingRun_digits {t : List Ch} : ∀ c ∈ leadingRun t, hexDigitP c = true :=
  fun _ hc => List.mem_takeWhile_imp hc

theorem leadingRun_append {t r : List Ch} (ht : ∀ c ∈ t, hexDigitP c = true)
    (hr : ∀ c ∈ r.head?, hexDigitP c = false) : leadingRun (t ++ r) = t := by
  have hstop : r.takeWhile hexDigitP = [] := by
    cases r with
    | nil => rfl
    | cons c r => exact List.takeWhile_cons_of_neg (by simpa using hr c)
  rw [leadingRun, List.takeWhile_append_of_pos ht, hstop, List.append_nil]

theorem numeral_lt {t : List Ch} (digits : ∀ c ∈ t, hexDigitP c = true) :
    numeral t < 16 ^ t.length := by
  have hfits : ∀ d ∈ t.map fun c => (hexValue c).toNat, d < 16 := by
    intro d hd
    obtain ⟨c, hc, rfl⟩ := List.mem_map.mp hd
    exact (hexDigitP_iff c).mp (digits c hc)
  have h := value_lt (by norm_num) hfits
  rwa [List.length_map] at h

theorem numeral_cons (c : Ch) (t : List Ch) :
    numeral (c :: t) = (hexValue c).toNat * 16 ^ t.length + numeral t := by
  rw [numeral, List.map_cons, value_cons, List.length_map]
  rfl

theorem shift_digit {r : Unsigned w} {n : ℕ} (hr : r.toNat < 16 ^ n) (hn : n < w * 2)
    {d : BitVec 8} (hd : d.toNat < 16) :
    ((r <<< 4) ||| d.setWidth (8 * w)).toNat = r.toNat * 16 + d.toNat := by
  have hroom : 16 ^ (n + 1) ≤ 2 ^ (8 * w) := by
    rw [← pow_digits]
    exact Nat.pow_le_pow_right (by norm_num) hn
  have hpow : 16 ^ (n + 1) = 16 ^ n * 16 := Nat.pow_succ 16 n
  have hshift : (r <<< 4).toNat = r.toNat <<< 4 := by
    rw [BitVec.toNat_shiftLeft, Nat.shiftLeft_eq]
    exact Nat.mod_eq_of_lt (by omega)
  have hdigit : (d.setWidth (8 * w)).toNat = d.toNat := by
    have hpos : 0 < 16 ^ n := by positivity
    rw [BitVec.toNat_setWidth]
    exact Nat.mod_eq_of_lt (by omega)
  rw [BitVec.toNat_or, hshift, hdigit, ← Nat.shiftLeft_add_eq_or_of_lt (i := 4) hd,
    Nat.shiftLeft_eq]

/-- The loop takes the whole run of digits, or finds no room for one of them. -/
theorem readDigits_eq (p : List Ch) {r : Unsigned w} {n : ℕ} (hr : r.toNat < 16 ^ n)
    (hn : n ≤ w * 2) :
    readDigits p r n =
      if n + (leadingRun p).length ≤ w * 2 then
        some (p.drop (leadingRun p).length,
          BitVec.ofNat (8 * w) (r.toNat * 16 ^ (leadingRun p).length + numeral (leadingRun p)),
          n + (leadingRun p).length)
      else none := by
  induction p generalizing r n with
  | nil => simp [readDigits, leadingRun, numeral, hn]
  | cons c p ih =>
    by_cases hc : hexDigitP c = true
    · have hrun : leadingRun (c :: p) = c :: leadingRun p := List.takeWhile_cons_of_pos hc
      simp only [readDigits, digit_valid hc, if_false, hrun, List.length_cons, List.drop_succ_cons]
      by_cases hfull : n = w * 2
      · rw [if_pos hfull, if_neg (by omega)]
      · have hnext := shift_digit hr (by omega) ((hexDigitP_iff c).mp hc)
        have hlt : ((r <<< 4) ||| (hexValue c).setWidth (8 * w)).toNat < 16 ^ (n + 1) := by
          have := (hexDigitP_iff c).mp hc
          rw [hnext, Nat.pow_succ]
          omega
        rw [if_neg hfull, ih hlt (by omega), hnext, numeral_cons,
          show n + 1 + (leadingRun p).length = n + ((leadingRun p).length + 1) by omega,
          show (r.toNat * 16 + (hexValue c).toNat) * 16 ^ (leadingRun p).length +
              numeral (leadingRun p) =
            r.toNat * 16 ^ ((leadingRun p).length + 1) +
              ((hexValue c).toNat * 16 ^ (leadingRun p).length + numeral (leadingRun p)) by ring]
    · have hrun : leadingRun (c :: p) = [] := List.takeWhile_cons_of_neg hc
      have hinvalid : hexValue c = hexInvalid := by simpa [hexDigitP] using hc
      simp [readDigits, hinvalid, hrun, numeral, hn]

theorem fromHexChars_eq (text : List Ch) (v : Unsigned w) :
    fromHexChars text v =
      if (leadingRun text).length = 0 then ⟨text, .invalidArgument, v⟩
      else if (leadingRun text).length ≤ w * 2 then
        ⟨text.drop (leadingRun text).length, .ok, BitVec.ofNat (8 * w) (numeral (leadingRun text))⟩
      else ⟨text, .resultOutOfRange, v⟩ := by
  have hread := readDigits_eq text (r := (0 : Unsigned w)) (n := 0) (by simp) (Nat.zero_le _)
  rw [Nat.zero_add] at hread
  rw [fromHexChars, hread]
  generalize hlength : (leadingRun text).length = len
  rcases Nat.eq_zero_or_pos len with rfl | hpos
  · simp
  · by_cases hroom : len ≤ w * 2
    · simp [hroom, hpos.ne']
    · simp [hroom, hpos.ne']

theorem fromHexChars_digits {t r : List Ch} (ht : ∀ c ∈ t, hexDigitP c = true)
    (hr : ∀ c ∈ r.head?, hexDigitP c = false) (hpos : 1 ≤ t.length) (hroom : t.length ≤ w * 2)
    {v : Unsigned w} (hv : numeral t = v.toNat) (old : Unsigned w) :
    fromHexChars (t ++ r) old = ⟨r, .ok, v⟩ := by
  rw [fromHexChars_eq, leadingRun_append ht hr, if_neg (by omega), if_pos hroom, List.drop_left, hv]
  simp

theorem numeral_full (hw : 0 < w) (c : HexCase) (v : Unsigned w) :
    numeral (digitsFrom c (w * 2) v) = v.toNat := by
  rw [numeral_digitsFrom hw, pow_digits]
  exact Nat.mod_eq_of_lt v.isLt

theorem numeral_minimal (hw : 0 < w) (c : HexCase) (v : Unsigned w) :
    numeral (digitsFrom c (minimalLength v) v) = v.toNat := by
  rw [numeral_digitsFrom hw]
  exact Nat.mod_eq_of_lt (minimalLength_spec hw v).2.2.1

theorem minimalLength_le (hw : 0 < w) {v : Unsigned w} {t : List Ch} (hne : t ≠ [])
    (digits : ∀ x ∈ t, hexDigitP x = true) (hvalue : numeral t = v.toNat) :
    minimalLength v ≤ t.length := by
  by_cases hzero : v = 0
  · have hpos := List.length_pos_of_ne_nil hne
    simp only [minimalLength, hzero, if_true]
    omega
  · have hleast := (minimalLength_spec hw v).2.2.2 hzero
    have hlt := numeral_lt digits
    rw [hvalue] at hlt
    have hshorter := (Nat.pow_lt_pow_iff_right (by norm_num)).mp (lt_of_le_of_lt hleast hlt)
    omega

theorem toHexCharsMinimal_eq (hw : 0 < w) (room : ℕ) (v : Unsigned w) (c : HexCase) :
    toHexCharsMinimal room v c =
      .ok (if room < minimalLength v then .tooLarge
        else .written (digitsFrom c (minimalLength v) v)) := by
  obtain ⟨hone, hmost, -, -⟩ := minimalLength_spec hw v
  have hassert : 1 ≤ minimalLength v ∧ minimalLength v ≤ w * 2 := ⟨hone, hmost⟩
  simp only [toHexCharsMinimal, require_of hassert]
  rfl

/-- The parser succeeds if the text begins with a run of digits for which there is room, and else
changes nothing. -/
theorem fromHexChars_run (text : List Ch) (old : Unsigned w) :
    ((fromHexChars text old).ec = .ok ↔
        1 ≤ (leadingRun text).length ∧ (leadingRun text).length ≤ w * 2) ∧
      ((fromHexChars text old).ec = .ok →
        (fromHexChars text old).v.toNat = numeral (leadingRun text) ∧
          text = leadingRun text ++ (fromHexChars text old).ptr) ∧
      ((fromHexChars text old).ec ≠ .ok →
        (fromHexChars text old).v = old ∧ (fromHexChars text old).ptr = text) := by
  have hlt := numeral_lt (leadingRun_digits (t := text))
  have htext : leadingRun text ++ text.drop (leadingRun text).length = text :=
    List.prefix_iff_eq_append.mp (List.takeWhile_prefix _)
  rw [fromHexChars_eq]
  generalize leadingRun text = run at hlt htext
  split_ifs with hzero hroom
  · simp [hzero]
  · have hvalue : numeral run < 2 ^ (8 * w) := by
      rw [← pow_digits]
      exact lt_of_lt_of_le hlt (Nat.pow_le_pow_right (by norm_num) hroom)
    refine ⟨?_, ?_, ?_⟩
    · simp only [true_iff]
      omega
    · intro _
      exact ⟨Nat.mod_eq_of_lt hvalue, htext.symm⟩
    · intro h
      exact absurd rfl h
  · simp
    omega

/-- An integer of any width is read back from its digits and from the shortest numeral it has, and
the parser takes the run of digits a text begins with, if it has one that fits. -/
theorem integers_read_back {w : ℕ} (hw : 0 < w) :
    (∀ (c : HexCase) (v : Unsigned w), ∃ full minimal,
      (∀ room, toHexChars room v c = if room < w * 2 then .tooLarge else .written full) ∧
      (∀ room, toHexCharsMinimal room v c =
        .ok (if room < minimal.length then .tooLarge else .written minimal)) ∧
      full.length = w * 2 ∧ (v = 0 → minimal = [ch '0']) ∧
      (∀ r old, (∀ x ∈ r.head?, hexDigitP x = false) →
        fromHexChars (full ++ r) old = ⟨r, .ok, v⟩ ∧
          fromHexChars (minimal ++ r) old = ⟨r, .ok, v⟩) ∧
      (∀ x ∈ minimal, hexDigitP x = true) ∧ numeral minimal = v.toNat ∧
      ∀ t, t ≠ [] → (∀ x ∈ t, hexDigitP x = true) → numeral t = v.toNat →
        minimal.length ≤ t.length) ∧
    ∀ (text : List Ch) (old : Unsigned w),
      ((fromHexChars text old).ec = .ok ↔
        1 ≤ (leadingRun text).length ∧ (leadingRun text).length ≤ w * 2) ∧
      ((fromHexChars text old).ec = .ok →
        (fromHexChars text old).v.toNat = numeral (leadingRun text) ∧
          text = leadingRun text ++ (fromHexChars text old).ptr) ∧
      ((fromHexChars text old).ec ≠ .ok →
        (fromHexChars text old).v = old ∧ (fromHexChars text old).ptr = text) := by
  refine ⟨?_, fromHexChars_run⟩
  intro c v
  obtain ⟨hone, hmost, -, -⟩ := minimalLength_spec hw v
  have hfull : (digitsFrom c (w * 2) v).length = w * 2 := digitsFrom_length c _ v
  have hminimal : (digitsFrom c (minimalLength v) v).length = minimalLength v :=
    digitsFrom_length c _ v
  refine ⟨digitsFrom c (w * 2) v, digitsFrom c (minimalLength v) v, fun _ => rfl, ?_, hfull, ?_, ?_,
    digitsFrom_digits hw, numeral_minimal hw c v, ?_⟩
  · intro room
    rw [hminimal, toHexCharsMinimal_eq hw]
  · intro hzero
    subst hzero
    rw [digitsFrom_eq hw]
    cases c <;> simp [minimalLength, lowDigits, hexAlphabet]
  · intro r old hr
    constructor
    · exact fromHexChars_digits (digitsFrom_digits hw) hr (by omega) hfull.le
        (numeral_full hw c v) old
    · exact fromHexChars_digits (digitsFrom_digits hw) hr (by omega) (by omega)
        (numeral_minimal hw c v) old
  · intro t hne hdigits hvalue
    rw [hminimal]
    exact minimalLength_le hw hne hdigits hvalue

/-- A width of two octets. -/
theorem integers_read_back_short :
    fromHexChars ("1aG".toList.map ch) (0xffff : Unsigned 2) = ⟨[ch 'G'], .ok, 0x1a⟩ ∧
      ((fromHexChars ("12345".toList.map ch) (0xffff : Unsigned 2)).ec = .ok ↔
        1 ≤ (leadingRun ("12345".toList.map ch)).length ∧
          (leadingRun ("12345".toList.map ch)).length ≤ 2 * 2) :=
  ⟨by decide, ((integers_read_back (w := 2) (by decide)).2 _ _).1⟩

/-! ## Order -/

theorem hexAlphabet_ordered : ∀ c : HexCase, ∀ d < 16, ∀ e < 16,
    (hexAlphabet c d < hexAlphabet c e ↔ d < e) ∧ (hexAlphabet c d = hexAlphabet c e ↔ d = e) := by
  intro c
  cases c
  · decide
  · decide

theorem digitsFrom_lt_iff (c : HexCase) (u v : Unsigned w) :
    digitsFrom c (w * 2) u < digitsFrom c (w * 2) v ↔ u.toNat < v.toNat := by
  rcases Nat.eq_zero_or_pos w with rfl | hw
  · have hu := u.isLt
    have hv := v.isLt
    simp only [digitsFrom, Nat.zero_mul, List.range_zero, List.map_nil, List.not_lt_nil, false_iff]
    omega
  · have hlt (x : Unsigned w) : ∀ d ∈ lowDigits 16 (w * 2) x.toNat, d < 16 :=
      fun _ hd => lowDigits_lt (by norm_num) hd
    have hvalue (x : Unsigned w) : value 16 (lowDigits 16 (w * 2) x.toNat) = x.toNat := by
      rw [value_lowDigits, pow_digits]
      exact Nat.mod_eq_of_lt x.isLt
    rw [digitsFrom_eq hw, digitsFrom_eq hw,
      map_lt_map_iff (hexAlphabet_ordered c) (by simp) (hlt u) (hlt v), hvalue, hvalue]

/-- The full texts of two integers are in the same lexicographic order as the integers. -/
theorem full_texts_ordered {w : ℕ} (c : HexCase) (u v : Unsigned w) : ∃ s t,
    (∀ room, toHexChars room u c = if room < w * 2 then .tooLarge else .written s) ∧
      (∀ room, toHexChars room v c = if room < w * 2 then .tooLarge else .written t) ∧
      (s < t ↔ u.toNat < v.toNat) ∧ (s = t ↔ u.toNat = v.toNat) ∧
      (t < s ↔ v.toNat < u.toNat) := by
  refine ⟨digitsFrom c (w * 2) u, digitsFrom c (w * 2) v, fun _ => rfl, fun _ => rfl,
    digitsFrom_lt_iff c u v, ?_, digitsFrom_lt_iff c v u⟩
  constructor
  · intro heq
    have hu := digitsFrom_lt_iff c u v
    have hv := digitsFrom_lt_iff c v u
    rw [heq] at hu hv
    rcases lt_trichotomy u.toNat v.toNat with hlt | hsame | hlt
    · exact absurd (hv.mp (hu.mpr hlt)) (by omega)
    · exact hsame
    · exact absurd (hu.mp (hv.mpr hlt)) (by omega)
  · intro heq
    rw [BitVec.eq_of_toNat_eq heq]

end Integers

end IW4x.Hex
