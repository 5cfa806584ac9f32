import Mathlib.Tactic

/-!
# Hexadecimal digits and styles

The alphabet, the table of values and the style of a hexadecimal text. A `char` and an octet are
eight bits each. A contract of the source that does not hold ends a function with a `Contract`.
-/

namespace IW4x.Hex

abbrev Octet := BitVec 8

/-- A `char`. -/
abbrev Ch := BitVec 8

def ch (c : Char) : Ch := BitVec.ofNat 8 c.toNat

inductive HexCase where
  | lower
  | upper
  deriving DecidableEq, Repr

/-- A contract that does not hold: `LIBIW4X_PRE`, `LIBIW4X_ASSERT`, or a pointer that is followed
past the end of its range. -/
inductive Contract where
  | precondition
  | assertion
  | range
  deriving DecidableEq, Repr

/-- `LIBIW4X_PRE` and `LIBIW4X_ASSERT`. -/
def require (c : Contract) (p : Prop) [Decidable p] : Except Contract Unit :=
  if p then .ok () else .error c

@[simp] theorem require_of {c : Contract} {p : Prop} [Decidable p] (h : p) :
    require c p = .ok () := if_pos h

def hexInvalid : BitVec 8 := 0xff

def hexAccumulatedInvalid (b : BitVec 8) : Bool := b &&& 0xf0 ≠ 0

/-- `hex_alphabet_lower` and `hex_alphabet_upper`, as `make_hex_alphabet` fills them. -/
def hexAlphabet (c : HexCase) (i : ℕ) : Ch :=
  if i < 10 then ch '0' + BitVec.ofNat 8 i
  else (if c = .upper then ch 'A' else ch 'a') + BitVec.ofNat 8 (i - 10)

/-- `hex_value`, on the table that `make_hex_values` fills. -/
def hexValue (c : Ch) : BitVec 8 :=
  if ch '0' ≤ c ∧ c ≤ ch '9' then c - ch '0'
  else if ch 'a' ≤ c ∧ c ≤ ch 'f' then c - ch 'a' + 10
  else if ch 'A' ≤ c ∧ c ≤ ch 'F' then c - ch 'A' + 10
  else hexInvalid

def hexDigitP (c : Ch) : Bool := hexValue c ≠ hexInvalid

structure HexStyle where
  digitCase : HexCase := .lower
  /-- Between groups, 0 for none. -/
  separator : Ch := 0
  /-- Octets per group. -/
  group : BitVec 8 := 1
  /-- Whether the text begins with `0x`. -/
  prefixed : Bool := false
  deriving DecidableEq

def HexStyle.valid (s : HexStyle) : Bool := s.separator = 0 ∨ s.group ≠ 0

/-- The largest `size_t`. -/
def sizeMax : ℕ := 2 ^ 64 - 1

def hexEncodedSize (n : ℕ) (s : HexStyle) : Except Contract ℕ := do
  require .precondition (s.valid = true)
  require .precondition (n ≤ (sizeMax - 2) / 3)
  let r := n * 2
  let r := if s.separator ≠ 0 ∧ 1 < n then r + (n - 1) / s.group.toNat else r
  return if s.prefixed then r + 2 else r

/-- The two digits of an octet, as numbers. -/
def highNibble (o : Octet) : ℕ := o.toNat / 16

def lowNibble (o : Octet) : ℕ := o.toNat % 16

theorem highNibble_lt (o : Octet) : highNibble o < 16 := by
  have := o.isLt
  simp only [highNibble]
  omega

theorem lowNibble_lt (o : Octet) : lowNibble o < 16 := Nat.mod_lt _ (by norm_num)

/-- The character is the digit in either case. -/
def IsDigit (n : ℕ) (c : Ch) : Prop := c = hexAlphabet .lower n ∨ c = hexAlphabet .upper n

instance (n : ℕ) (c : Ch) : Decidable (IsDigit n c) := by
  unfold IsDigit
  infer_instance

theorem isDigit_alphabet (n : ℕ) (c : HexCase) : IsDigit n (hexAlphabet c n) := by
  cases c
  · exact .inl rfl
  · exact .inr rfl

theorem hexValue_table : ∀ c : Ch,
    (hexValue c = hexInvalid ∧ ∀ n < 16, ¬ IsDigit n c) ∨
      (hexValue c).toNat < 16 ∧ ∀ n < 16, (IsDigit n c ↔ (hexValue c).toNat = n) := by
  decide +kernel

theorem hexDigitP_iff (c : Ch) : hexDigitP c = true ↔ (hexValue c).toNat < 16 := by
  simp only [hexDigitP, decide_eq_true_eq]
  rcases hexValue_table c with ⟨hinvalid, -⟩ | ⟨hlt, -⟩
  · rw [hinvalid]
    decide
  · simp only [hlt, iff_true]
    intro heq
    rw [heq] at hlt
    exact absurd hlt (by decide)

theorem isDigit_iff {n : ℕ} (hn : n < 16) (c : Ch) : IsDigit n c ↔ (hexValue c).toNat = n := by
  rcases hexValue_table c with ⟨hinvalid, hnot⟩ | ⟨-, hall⟩
  · simp only [hnot n hn, hinvalid, false_iff]
    intro heq
    rw [← heq] at hn
    exact absurd hn (by decide)
  · exact hall n hn

end IW4x.Hex
