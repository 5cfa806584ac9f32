import Mathlib.Data.Nat.Log
import IW4x.Lib.RawMemory
import IW4x.Hex.Integers
import IW4x.Gdk.Path

/-!
# Writing text into a buffer

A `text_writer` writes behind what it wrote, as far as there is room before the terminator, and keeps
in mind whether anything was cut. Whatever is written comes to one prefix of the whole text, with the
terminator behind it.
-/

namespace IW4x.Gdk

open RawMemory Numerals Hex

def ascii (s : String) : Bytes := s.toList.map fun c => UInt8.ofNat c.toNat

def bytesOf (s : List Ch) : Bytes := s.map UInt8.ofBitVec

/-- What `string_view` takes of a C string. -/
def cString (s : Bytes) : Bytes := s.takeWhile (· ≠ 0)

structure HexNumber where
  value : Unsigned 8
  width : ℕ := 0

/-- What can be written. -/
inductive Value where
  /-- A `string_view`. -/
  | view (v : Bytes)
  /-- A `const char*`; `none` is the null pointer. -/
  | cString (v : Option Bytes)
  | char (v : UInt8)
  | bool (v : Bool)
  | pointer (v : Unsigned 8)
  | hex (v : HexNumber)
  /-- An integer of any integral type, signed or not. -/
  | integral (signed : Bool) {bits : ℕ} (v : BitVec bits) (fits : bits ≤ 64)

structure TextWriter where
  mem : Mem
  /-- `b_`. -/
  buffer : ℕ
  /-- `c_`. -/
  capacity : ℕ
  /-- `n_`. -/
  size : ℕ
  truncated : Bool
  fits : size < capacity

def decimal (v : ℤ) : Bytes :=
  (if v < 0 then ascii "-" else []) ++
    (Nat.toDigits 10 v.natAbs).map fun c => UInt8.ofNat c.toNat

/-- `std::to_chars` for an integer, into a buffer of `room` characters. -/
def toChars (room : ℕ) (v : ℤ) : Option Bytes :=
  if (decimal v).length ≤ room then some (decimal v) else none

namespace TextWriter

/-- The room of the buffers that integers are written in first. -/
def digits : ℕ := 21

/-- The constructor of `text_writer`. -/
def start (m : Mem) (buffer capacity : ℕ) (h : 0 < capacity) : TextWriter where
  mem := RawMemory.write m buffer [0]
  buffer := buffer
  capacity := capacity
  size := 0
  truncated := false
  fits := h

/-- `write`, of a `string_view`. -/
def write (w : TextWriter) (v : Bytes) : TextWriter :=
  let room := w.capacity - w.size - 1
  let n := if v.length > room then room else v.length
  { mem := RawMemory.write (RawMemory.write w.mem (w.buffer + w.size) (v.take n))
      (w.buffer + (w.size + n)) [0]
    buffer := w.buffer
    capacity := w.capacity
    size := w.size + n
    truncated := w.truncated || decide (v.length > room)
    fits := by
      have := w.fits
      dsimp only [n, room]
      split_ifs <;> omega }

/-- `write`, of a `const char*`. -/
def writeCString (w : TextWriter) (v : Option Bytes) : TextWriter :=
  w.write (match v with
    | none => ascii "(null)"
    | some v => cString v)

/-- `write`, of a `hex_number`. -/
def writeHex (w : TextWriter) (v : HexNumber) : Except Contract TextWriter :=
  match Integers.toHexChars 16 v.value .upper with
  | .tooLarge => .error .assertion
  | .written s =>
    let z := ((s.take 15).takeWhile (· = ch '0')).length
    let n := max (16 - z) (min v.width 16)
    .ok ((w.write (ascii "0x")).write (bytesOf (s.drop (16 - n))))

/-- What both `write_unsigned` and `write_signed` do. -/
def writeDecimal (w : TextWriter) (v : ℤ) : Except Contract TextWriter :=
  match toChars digits v with
  | none => .error .assertion
  | some s => .ok (w.write s)

def writeUnsigned (w : TextWriter) (v : BitVec 64) : Except Contract TextWriter :=
  w.writeDecimal v.toNat

def writeSigned (w : TextWriter) (v : BitVec 64) : Except Contract TextWriter :=
  w.writeDecimal v.toInt

/-- `write`, by the type of what is written. -/
def writeValue (w : TextWriter) : Value → Except Contract TextWriter
  | .view v => .ok (w.write v)
  | .cString v => .ok (w.writeCString v)
  | .char v => .ok (w.write [v])
  | .bool v => .ok (w.write (if v then ascii "true" else ascii "false"))
  | .pointer v => w.writeHex ⟨v, 0⟩
  | .hex v => w.writeHex v
  | .integral signed v _ =>
    if signed then w.writeSigned (v.signExtend 64) else w.writeUnsigned (v.setWidth 64)

def writeAll : TextWriter → List Value → Except Contract TextWriter
  | w, [] => .ok w
  | w, v :: vs => do
    let w ← w.writeValue v
    writeAll w vs

def whole (w : TextWriter) : Bool := !w.truncated

/-- `string_view (b, w.size ())`. -/
def view (w : TextWriter) : Bytes := RawMemory.read w.mem w.buffer w.size

end TextWriter

/-! ## The full text of a value -/

/-- The fewest hexadecimal digits that write a number. -/
def shortest (v : ℕ) : ℕ := Nat.log 16 v + 1

/-- The number of digits of a `hex_number`. -/
def HexNumber.digits (v : HexNumber) : ℕ := max (shortest v.value.toNat) (min v.width 16)

def HexNumber.text (v : HexNumber) : Bytes :=
  ascii "0x" ++ bytesOf ((lowDigits 16 v.digits v.value.toNat).map (hexAlphabet .upper))

def Value.text : Value → Bytes
  | .view v => v
  | .cString none => ascii "(null)"
  | .cString (some v) => Gdk.cString v
  | .char v => [v]
  | .bool v => if v then ascii "true" else ascii "false"
  | .pointer v => HexNumber.text ⟨v, 0⟩
  | .hex v => v.text
  | .integral signed v _ => decimal (if signed then v.toInt else v.toNat)

theorem shortest_le (v : Unsigned 8) : shortest v.toNat ≤ 16 := by
  have hlt : v.toNat < 16 ^ 16 := v.isLt
  have hlog := Nat.log_lt_of_lt_pow' (b := 16) (by norm_num) hlt
  simp only [shortest]
  omega

/-- The noughts before the digits of a number, the last digit apart. -/
theorem leading_noughts (v : Unsigned 8) :
    (((Integers.digitsFrom .upper 16 v).take 15).takeWhile (· = ch '0')).length =
      16 - shortest v.toNat := by
  have hshort := shortest_le v
  have hlt : v.toNat < 16 ^ shortest v.toNat := Nat.lt_pow_succ_log_self (by norm_num) _
  have hnought : hexAlphabet .upper 0 = ch '0' := by decide
  rw [Integers.digitsFrom_eq (by norm_num), lowDigits_of_lt (by norm_num) hshort hlt,
    List.map_append, List.map_replicate, hnought, List.take_append, List.length_replicate,
    List.take_of_length_le (by simp [shortest])]
  rw [List.takeWhile_append_of_pos (by simp)]
  have hrest : (((lowDigits 16 (shortest v.toNat) v.toNat).map (hexAlphabet .upper)).take
      (15 - (16 - shortest v.toNat))).takeWhile (· = ch '0') = [] := by
    rw [shortest, lowDigits_cons]
    rcases Nat.eq_zero_or_pos (Nat.log 16 v.toNat) with hlog | hlog
    · simp [hlog]
    · have hpos : v.toNat ≠ 0 := by
        intro hzero
        simp [hzero] at hlog
      have hlow := Nat.pow_log_le_self 16 hpos
      have hhigh : v.toNat / 16 ^ Nat.log 16 v.toNat < 16 := by
        rw [shortest, Nat.pow_succ'] at hlt
        exact (Nat.div_lt_iff_lt_mul (by positivity)).mpr hlt
      have hdigit : 0 < v.toNat / 16 ^ Nat.log 16 v.toNat :=
        Nat.div_pos hlow (by positivity)
      have hchar : hexAlphabet .upper (v.toNat / 16 ^ Nat.log 16 v.toNat) ≠ ch '0' := by
        rw [← hnought]
        intro heq
        have := ((Integers.hexAlphabet_ordered .upper _ hhigh 0 (by norm_num)).2).mp heq
        omega
      have hroom : 15 - (16 - (Nat.log 16 v.toNat + 1)) = Nat.log 16 v.toNat - 1 + 1 := by
        simp only [shortest] at hshort
        omega
      rw [hroom, Nat.mod_eq_of_lt hhigh, List.map_cons, List.take_succ_cons,
        List.takeWhile_cons_of_neg (by simpa using hchar)]
  rw [hrest, List.append_nil, List.length_replicate]

theorem decimal_length {v : ℤ} (hlow : -2 ^ 63 ≤ v) (hhigh : v < 2 ^ 64) :
    (decimal v).length ≤ TextWriter.digits := by
  have hdigits (k : ℕ) (hk : 0 < k) (hv : v.natAbs < 10 ^ k) :
      (Nat.toDigits 10 v.natAbs).length ≤ k := (Nat.length_toDigits_le_iff (by norm_num) hk).mpr hv
  rw [decimal, List.length_append, List.length_map, TextWriter.digits]
  have htwenty := hdigits 20 (by norm_num) (by omega)
  split_ifs with hneg
  · have hone : (ascii "-").length = 1 := by decide
    omega
  · simp only [List.length_nil]
    omega

/-! ## What a writer holds -/

/-- The writer writes into the buffer of so many bytes, and has written the text from the start. The
buffer holds of it what there is room for. -/
structure Carries (b c : ℕ) (m : Mem) (t : Bytes) (w : TextWriter) : Prop where
  buffer : w.buffer = b
  capacity : w.capacity = c
  size : w.size = min t.length (c - 1)
  /-- The bytes and the terminator. -/
  text : Holds w.mem b (t.take (c - 1) ++ [0])
  /-- Only the buffer is written to. -/
  inside : Changes (span b c) m w.mem
  cut : w.truncated = true ↔ c - 1 < t.length

variable {b c : ℕ} {m : Mem} {t : Bytes} {w : TextWriter}

namespace TextWriter

theorem start_carries (m : Mem) (b : ℕ) {c : ℕ} (h : 0 < c) :
    Carries b c m [] (start m b c h) where
  buffer := rfl
  capacity := rfl
  size := (Nat.zero_min _).symm
  text := by
    rw [List.take_nil]
    exact write_holds m b [0]
  inside := write_within m le_rfl (by rw [List.length_singleton]; omega)
  cut := by simp [start]

/-- What is written comes behind what was, as far as there is room. -/
theorem write_carries (h : Carries b c m t w) (v : Bytes) :
    Carries b c m (t ++ v) (w.write v) := by
  obtain ⟨rfl, rfl, hsize, htext, hinside, hwhole⟩ := h
  have hfits := w.fits
  have hroom : (if v.length > w.capacity - w.size - 1 then w.capacity - w.size - 1
      else v.length) = min v.length (w.capacity - 1 - t.length) := by
    split_ifs <;> omega
  have hold := (holds_append.mp htext).1
  have hlength : (t.take (w.capacity - 1)).length = w.size := by
    rw [List.length_take]
    omega
  generalize hn : min v.length (w.capacity - 1 - t.length) = n at hroom
  have hcut : v.take (w.capacity - 1 - t.length) = v.take n := by
    rw [List.take_eq_take_iff]
    omega
  have hadded : (v.take n).length = n := by
    rw [List.length_take]
    omega
  refine ⟨rfl, rfl, ?_, ?_, ?_, ?_⟩
  · simp only [write, hroom, List.length_append]
    omega
  · simp only [write, hroom]
    rw [List.take_append, hcut, holds_append, holds_append, List.length_append, hlength, hadded]
    refine ⟨⟨?_, ?_⟩, write_holds _ _ _⟩
    · exact (hold.beside (.inr (by omega))).beside (.inr (by omega))
    · exact (write_holds _ _ _).beside (.inr (by omega))
  · simp only [write, hroom]
    refine (hinside.trans (write_within _ ?_ ?_)).trans (write_within _ ?_ ?_)
    · omega
    · omega
    · omega
    · rw [List.length_singleton]
      omega
  · simp only [write, Bool.or_eq_true, decide_eq_true_eq, hwhole, List.length_append]
    omega

/-! ## Values -/

theorem writeDecimal_eq (w : TextWriter) {v : ℤ} (hlow : -2 ^ 63 ≤ v) (hhigh : v < 2 ^ 64) :
    w.writeDecimal v = .ok (w.write (decimal v)) := by
  rw [writeDecimal, toChars, if_pos (decimal_length hlow hhigh)]

theorem writeHex_eq (w : TextWriter) (v : HexNumber) :
    ∃ a b, v.text = a ++ b ∧ w.writeHex v = .ok ((w.write a).write b) := by
  have hshort := shortest_le v.value
  have hpos : 0 < shortest v.value.toNat := Nat.succ_pos _
  have hwritten : Integers.toHexChars 16 v.value .upper =
      .written (Integers.digitsFrom .upper 16 v.value) := rfl
  have hdigits : max (16 - (16 - shortest v.value.toNat)) (min v.width 16) = v.digits := by
    rw [HexNumber.digits]
    omega
  have hsixteen : v.digits ≤ 16 := by
    rw [HexNumber.digits]
    omega
  refine ⟨_, _, rfl, ?_⟩
  simp only [writeHex, hwritten, leading_noughts, hdigits]
  rw [Integers.digitsFrom_eq (by norm_num), ← List.map_drop, drop_lowDigits hsixteen]

/-- Any value is written in pieces that come to its full text. -/
theorem writeValue_carries (h : Carries b c m t w) (v : Value) :
    ∃ w', w.writeValue v = .ok w' ∧ Carries b c m (t ++ v.text) w' := by
  have hhex (n : HexNumber) :
      ∃ w', w.writeHex n = .ok w' ∧ Carries b c m (t ++ n.text) w' := by
    obtain ⟨a, b, htext, hwrite⟩ := w.writeHex_eq n
    refine ⟨_, hwrite, ?_⟩
    rw [htext, ← List.append_assoc]
    exact write_carries (write_carries h a) b
  cases v with
  | view v => exact ⟨_, rfl, write_carries h v⟩
  | cString v =>
    cases v with
    | none => exact ⟨_, rfl, write_carries h _⟩
    | some v => exact ⟨_, rfl, write_carries h _⟩
  | char v => exact ⟨_, rfl, write_carries h [v]⟩
  | bool v => exact ⟨_, rfl, write_carries h _⟩
  | pointer v => exact hhex ⟨v, 0⟩
  | hex v => exact hhex v
  | integral signed v fits =>
    cases signed with
    | true =>
      have hvalue : (v.signExtend 64).toInt = v.toInt := BitVec.toInt_signExtend_of_le fits
      have hlow := BitVec.le_toInt (v.signExtend 64)
      have hhigh := BitVec.toInt_lt (x := v.signExtend 64)
      refine ⟨w.write (decimal v.toInt), ?_, write_carries h _⟩
      simp only [writeValue, if_true, writeSigned, hvalue]
      rw [hvalue] at hlow hhigh
      exact w.writeDecimal_eq (by simpa using hlow) (by simp at hhigh; omega)
    | false =>
      have hvalue : (v.setWidth 64).toNat = v.toNat := by
        rw [BitVec.toNat_setWidth]
        exact Nat.mod_eq_of_lt (lt_of_lt_of_le v.isLt (Nat.pow_le_pow_right (by norm_num) fits))
      have hlt := (v.setWidth 64).isLt
      refine ⟨w.write (decimal v.toNat), ?_, write_carries h _⟩
      simp only [writeValue, Bool.false_eq_true, if_false, writeUnsigned, hvalue]
      rw [hvalue] at hlt
      exact w.writeDecimal_eq (by omega) (by omega)

theorem writeAll_carries (h : Carries b c m t w) (vs : List Value) :
    ∃ w', w.writeAll vs = .ok w' ∧
      Carries b c m (t ++ (vs.map Value.text).flatten) w' := by
  induction vs generalizing w t with
  | nil => exact ⟨w, rfl, by simpa using h⟩
  | cons v vs ih =>
    obtain ⟨w₁, hvalue, hfirst⟩ := writeValue_carries h v
    obtain ⟨w₂, hall, hrest⟩ := ih hfirst
    refine ⟨w₂, ?_, ?_⟩
    · rw [writeAll, hvalue]
      exact hall
    · simpa using hrest

end TextWriter

namespace Carries

theorem view (h : Carries b c m t w) : w.view = t.take (c - 1) := by
  have hlength : (t.take (c - 1)).length = w.size := by
    rw [List.length_take, h.size, Nat.min_comm]
  rw [TextWriter.view, ← hlength, h.buffer]
  exact (holds_append.mp h.text).1.read

theorem whole (h : Carries b c m t w) :
    w.whole = true ↔ t.length ≤ c - 1 := by
  have hcut := h.cut
  simp only [TextWriter.whole, Bool.not_eq_true', ← Bool.not_eq_true, hcut, not_lt]

end Carries

end IW4x.Gdk
