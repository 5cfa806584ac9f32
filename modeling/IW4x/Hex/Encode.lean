import IW4x.Lib.Lanes
import IW4x.Hex.Digits

/-!
# Encoding

The reference text is written down octet by octet. The code works group by group and, except during
constant evaluation, takes four octets at a time through one 64-bit word.
-/

namespace IW4x.Hex

open Lanes

/-- The byte order of the target. -/
inductive Endian where
  | little
  | big
  deriving DecidableEq, Repr

/-- How the digits are produced: `if consteval`, or on a target of some byte order. -/
inductive Target where
  | consteval
  | native (e : Endian)
  deriving DecidableEq, Repr

/-- `memcpy` of octets into an integer. -/
def loadBytes (e : Endian) (n : ℕ) (b : List Octet) : BitVec n :=
  let lowestFirst := match e with
    | .little => b
    | .big => b.reverse
  BitVec.ofNat n (pack 8 (lowestFirst.map BitVec.toNat))

/-- `memcpy` of an integer into octets. -/
def storeBytes {n : ℕ} (e : Endian) (x : BitVec n) : List Octet :=
  let lowestFirst := (List.range (n / 8)).map fun i => x.extractLsb' (8 * i) 8
  match e with
  | .little => lowestFirst
  | .big => lowestFirst.reverse

def byteswap {n : ℕ} (x : BitVec n) : BitVec n := loadBytes .big n (storeBytes .little x)

def hexAlphaBias : HexCase → BitVec 64
  | .upper => 7
  | .lower => 39

def hexSpread (v : BitVec 32) (alpha : BitVec 64) : BitVec 64 :=
  let x : BitVec 64 := v.setWidth 64
  let x := ((x &&& 0xffff0000#64) <<< 16) ||| (x &&& 0x0000ffff#64)
  let x := ((x &&& 0x0000ff000000ff00#64) <<< 8) ||| (x &&& 0x000000ff000000ff#64)
  let x := ((x &&& 0x000f000f000f000f#64) <<< 8) ||| ((x &&& 0x00f000f000f000f0#64) >>> 4)
  let m := ((x + 0x0606060606060606#64) >>> 4) &&& 0x0101010101010101#64
  x + 0x3030303030303030#64 + m * alpha

def hexLoad4 (e : Endian) (b : List Octet) : BitVec 32 :=
  let v := loadBytes e 32 b
  match e with
  | .big => byteswap v
  | .little => v

def hexStore8 (e : Endian) (w : BitVec 64) : List Ch :=
  let w := match e with
    | .big => byteswap w
    | .little => w
  storeBytes e w

/-- The first loop of `hex_encode_to`: the digits of whole words, and the octets that are left. -/
def encodeWords (e : Endian) (c : HexCase) : List Octet → List Ch × List Octet
  | b₀ :: b₁ :: b₂ :: b₃ :: rest =>
    let last := encodeWords e c rest
    (hexStore8 e (hexSpread (hexLoad4 e [b₀, b₁, b₂, b₃]) (hexAlphaBias c)) ++ last.1, last.2)
  | rest => ([], rest)

/-- The second loop of `hex_encode_to`. -/
def encodeOctets (c : HexCase) : List Octet → List Ch
  | [] => []
  | v :: rest =>
    hexAlphabet c (v >>> 4).toNat :: hexAlphabet c (v &&& 0x0f).toNat :: encodeOctets c rest

/-- `hex_encode_to`: what it writes at `p`. -/
def hexEncodeTo (t : Target) (c : HexCase) (b : List Octet) : List Ch :=
  match t with
  | .consteval => encodeOctets c b
  | .native e => (encodeWords e c b).1 ++ encodeOctets c (encodeWords e c b).2

/-- The loop over the groups in `to_hex_chars`. Every pass takes at least one octet, so that
`passes`, which the source does not count, may be the number of octets. -/
def encodeGroups (t : Target) (s : HexStyle) : ℕ → List Octet → List Ch
  | 0, _ => []
  | passes + 1, b =>
    if b = [] then []
    else
      let k := min s.group.toNat b.length
      let rest := b.drop k
      hexEncodeTo t s.digitCase (b.take k) ++
        if rest = [] then [] else s.separator :: encodeGroups t s passes rest

inductive ToChars where
  | tooLarge
  /-- The characters from `first` to the pointer that is returned. -/
  | written (text : List Ch)
  deriving DecidableEq

/-- `to_hex_chars`, into a buffer of `room` characters. -/
def toHexChars (t : Target) (room : ℕ) (b : List Octet) (s : HexStyle) :
    Except Contract ToChars := do
  require .precondition (s.valid = true)
  let need ← hexEncodedSize b.length s
  if room < need then return .tooLarge
  let text := (if s.prefixed then [ch '0', ch 'x'] else []) ++
    if s.separator = 0 then hexEncodeTo t s.digitCase b else encodeGroups t s b.length b
  require .assertion (text.length = need)
  return .written text

def hexEncode (t : Target) (b : List Octet) (s : HexStyle) : Except Contract (List Ch) := do
  require .precondition (s.valid = true)
  let n ← hexEncodedSize b.length s
  match ← toHexChars t n b s with
  | .tooLarge => .error .assertion
  | .written text =>
    require .assertion (text.length = n)
    return text

/-- The separator before octet `i` of a text. -/
def HexStyle.before (s : HexStyle) (i : ℕ) : List Ch :=
  if s.separator ≠ 0 ∧ 0 < i ∧ i % s.group.toNat = 0 then [s.separator] else []

/-- The reference text of the octets from the `i`-th on. -/
def referenceFrom (s : HexStyle) : ℕ → List Octet → List Ch
  | _, [] => []
  | i, o :: rest =>
    s.before i ++ hexAlphabet s.digitCase (highNibble o) ::
      hexAlphabet s.digitCase (lowNibble o) :: referenceFrom s (i + 1) rest

def reference (s : HexStyle) (b : List Octet) : List Ch :=
  (if s.prefixed then [ch '0', ch 'x'] else []) ++ referenceFrom s 0 b

/-! ## Octets in memory and in a word -/

theorem loadBytes_row {b : List Octet} {n : ℕ} (length : 8 * b.length = n) :
    Row 8 (loadBytes .little n b) (b.map BitVec.toNat) := by
  have hfits : Fits 8 (b.map BitVec.toNat) := by
    intro d hd
    obtain ⟨o, -, rfl⟩ := List.mem_map.mp hd
    exact o.isLt
  have hwidth : 8 * (b.map BitVec.toNat).length = n := by
    rw [List.length_map, length]
  have hlt := pack_lt hfits
  rw [hwidth] at hlt
  refine ⟨?_, hfits, hwidth⟩
  rw [loadBytes, BitVec.toNat_ofNat, Nat.mod_eq_of_lt hlt]

theorem storeBytes_row {n : ℕ} {x : BitVec n} {l : List ℕ} (row : Row 8 x l) :
    storeBytes .little x = l.map (BitVec.ofNat 8) := by
  have hlength : n / 8 = l.length := by
    rw [← row.width]
    omega
  apply List.ext_getElem
  · simp [storeBytes, hlength]
  · intro i hi hi'
    have hil : i < l.length := by simpa using hi'
    apply BitVec.eq_of_toNat_eq
    have hlt := row.fits _ (List.getElem_mem hil)
    simp only [storeBytes, List.getElem_map, List.getElem_range, BitVec.toNat_ofNat]
    rw [row.lane hil, Nat.mod_eq_of_lt hlt]

theorem map_ofNat_toNat (b : List Octet) : (b.map BitVec.toNat).map (BitVec.ofNat 8) = b := by
  simp [Function.comp_def]

theorem store_load {b : List Octet} {n : ℕ} (length : 8 * b.length = n) :
    storeBytes .little (loadBytes .little n b) = b := by
  rw [storeBytes_row (loadBytes_row length), map_ofNat_toNat]

theorem storeBytes_big {n : ℕ} (x : BitVec n) :
    storeBytes .big x = (storeBytes .little x).reverse := rfl

theorem loadBytes_big (n : ℕ) (b : List Octet) :
    loadBytes .big n b = loadBytes .little n b.reverse := rfl

theorem hexLoad4_eq (e : Endian) {b : List Octet} (length : b.length = 4) :
    hexLoad4 e b = loadBytes .little 32 b := by
  cases e with
  | little => rfl
  | big =>
    have hreverse : 8 * b.reverse.length = 32 := by
      rw [List.length_reverse, length]
    simp only [hexLoad4, byteswap, loadBytes_big]
    rw [store_load hreverse, List.reverse_reverse]

theorem hexStore8_eq (e : Endian) (x : BitVec 64) : hexStore8 e x = storeBytes .little x := by
  cases e with
  | little => rfl
  | big =>
    have hlength : 8 * (storeBytes .little x).reverse.length = 64 := by
      simp [storeBytes]
    simp only [hexStore8, byteswap, loadBytes_big, storeBytes_big]
    rw [store_load hlength, List.reverse_reverse]

/-! ## One word of digits -/

section Spread

variable {x : BitVec 64} {a₀ a₁ a₂ a₃ a₄ a₅ a₆ a₇ : ℕ}

theorem land_full {n : ℕ} (hn : n < 16) : n &&& 15 = n := by
  have h := Nat.and_two_pow_sub_one_eq_mod n 4
  norm_num at h
  omega

theorem spread_halves
    (row : Row 4 x [a₀, a₁, a₂, a₃, a₄, a₅, a₆, a₇, 0, 0, 0, 0, 0, 0, 0, 0]) :
    Row 4 (((x &&& 0xffff0000#64) <<< 16) ||| (x &&& 0x0000ffff#64))
      [a₀, a₁, a₂, a₃, 0, 0, 0, 0, a₄, a₅, a₆, a₇, 0, 0, 0, 0] := by
  have hfits : ∀ n ∈ [a₀, a₁, a₂, a₃, a₄, a₅, a₆, a₇, 0, 0, 0, 0, 0, 0, 0, 0], n < 16 := row.fits
  simp only [List.forall_mem_cons] at hfits
  have hhigh : Row 4 0xffff0000#64 [0, 0, 0, 0, 15, 15, 15, 15, 0, 0, 0, 0, 0, 0, 0, 0] :=
    ⟨by decide, by decide, rfl⟩
  have hlow : Row 4 0x0000ffff#64 [15, 15, 15, 15, 0, 0, 0, 0, 0, 0, 0, 0, 0, 0, 0, 0] :=
    ⟨by decide, by decide, rfl⟩
  have hleft := row.and (by norm_num) hhigh
  have hright := row.and (by norm_num) hlow
  simp only [List.zipWith, Nat.and_zero, land_full, hfits] at hleft hright
  have hshift : Row 4 ((x &&& 0xffff0000#64) <<< (4 * 4))
      (List.replicate 4 0 ++ [0, 0, 0, 0, a₄, a₅, a₆, a₇, 0, 0, 0, 0]) := hleft.shiftLeft
  have hor := hshift.or (by norm_num) hright
  simpa [List.replicate] using hor

theorem spread_octets
    (row : Row 4 x [a₀, a₁, a₂, a₃, 0, 0, 0, 0, a₄, a₅, a₆, a₇, 0, 0, 0, 0]) :
    Row 4 (((x &&& 0x0000ff000000ff00#64) <<< 8) ||| (x &&& 0x000000ff000000ff#64))
      [a₀, a₁, 0, 0, a₂, a₃, 0, 0, a₄, a₅, 0, 0, a₆, a₇, 0, 0] := by
  have hfits : ∀ n ∈ [a₀, a₁, a₂, a₃, 0, 0, 0, 0, a₄, a₅, a₆, a₇, 0, 0, 0, 0], n < 16 := row.fits
  simp only [List.forall_mem_cons] at hfits
  have hhigh : Row 4 0x0000ff000000ff00#64
      [0, 0, 15, 15, 0, 0, 0, 0, 0, 0, 15, 15, 0, 0, 0, 0] :=
    ⟨by decide, by decide, rfl⟩
  have hlow : Row 4 0x000000ff000000ff#64
      [15, 15, 0, 0, 0, 0, 0, 0, 15, 15, 0, 0, 0, 0, 0, 0] :=
    ⟨by decide, by decide, rfl⟩
  have hleft := row.and (by norm_num) hhigh
  have hright := row.and (by norm_num) hlow
  simp only [List.zipWith, Nat.and_zero, land_full, hfits] at hleft hright
  have hshift : Row 4 ((x &&& 0x0000ff000000ff00#64) <<< (4 * 2))
      (List.replicate 2 0 ++ [0, 0, a₂, a₃, 0, 0, 0, 0, 0, 0, a₆, a₇, 0, 0]) := hleft.shiftLeft
  have hor := hshift.or (by norm_num) hright
  simpa [List.replicate] using hor

/-- The third gives every nibble a lane of eight, the high one first. -/
theorem spread_nibbles
    (row : Row 4 x [a₀, a₁, 0, 0, a₂, a₃, 0, 0, a₄, a₅, 0, 0, a₆, a₇, 0, 0]) :
    Row 8 (((x &&& 0x000f000f000f000f#64) <<< 8) ||| ((x &&& 0x00f000f000f000f0#64) >>> 4))
      [a₁, a₀, a₃, a₂, a₅, a₄, a₇, a₆] := by
  have hfits : ∀ n ∈ [a₀, a₁, 0, 0, a₂, a₃, 0, 0, a₄, a₅, 0, 0, a₆, a₇, 0, 0], n < 16 := row.fits
  simp only [List.forall_mem_cons] at hfits
  have hlow : Row 4 0x000f000f000f000f#64
      [15, 0, 0, 0, 15, 0, 0, 0, 15, 0, 0, 0, 15, 0, 0, 0] :=
    ⟨by decide, by decide, rfl⟩
  have hhigh : Row 4 0x00f000f000f000f0#64
      [0, 15, 0, 0, 0, 15, 0, 0, 0, 15, 0, 0, 0, 15, 0, 0] :=
    ⟨by decide, by decide, rfl⟩
  have hleft := row.and (by norm_num) hlow
  have hright := row.and (by norm_num) hhigh
  simp only [List.zipWith, Nat.and_zero, land_full, hfits] at hleft hright
  have hshift : Row 4 ((x &&& 0x000f000f000f000f#64) <<< (4 * 2))
      (List.replicate 2 0 ++ [a₀, 0, 0, 0, a₂, 0, 0, 0, a₄, 0, 0, 0, a₆, 0]) := hleft.shiftLeft
  have hdown := hright.shiftRight (k := 1) (by simp)
  have hor := hshift.or (by norm_num) hdown
  refine Row.join (w := 4) ?_ ?_
  · simpa [List.replicate, Nat.mod_eq_of_lt, Nat.div_eq_of_lt, hfits] using hor
  · intro d hd
    have hlt : d < 16 := by
      simp only [List.mem_cons, List.not_mem_nil, or_false] at hd
      rcases hd with rfl | rfl | rfl | rfl | rfl | rfl | rfl | rfl <;> simp [hfits]
    omega

/-- The character of a digit, computed as the word does. -/
def spreadDigit (c : HexCase) (n : ℕ) : ℕ := n + 48 + (hexAlphaBias c).toNat * ((n + 6) / 16)

theorem spreadDigit_lt (c : HexCase) : ∀ n < 16, spreadDigit c n < 2 ^ 8 := by
  cases c <;> decide

theorem ofNat_spreadDigit (c : HexCase) :
    ∀ n < 16, BitVec.ofNat 8 (spreadDigit c n) = hexAlphabet c n := by
  cases c <;> decide

/-- The last step: six more carries a letter, and only a letter, into the next nibble, which then
moves it up to its place in the character set. -/
theorem spread_alpha (c : HexCase) (row : Row 8 x [a₀, a₁, a₂, a₃, a₄, a₅, a₆, a₇])
    (hdigits : ∀ n ∈ [a₀, a₁, a₂, a₃, a₄, a₅, a₆, a₇], n < 16) :
    Row 8 (x + 0x3030303030303030#64 +
        (((x + 0x0606060606060606#64) >>> 4) &&& 0x0101010101010101#64) * hexAlphaBias c)
      ([a₀, a₁, a₂, a₃, a₄, a₅, a₆, a₇].map (spreadDigit c)) := by
  have hcarry : ∀ n < 16, n + 6 < 256 ∧ (n + 6) / 16 < 16 ∧ (n + 6) / 16 &&& 1 = (n + 6) / 16 := by
    decide
  have hplace : ∀ n < 16, n + 48 < 256 ∧
      (hexAlphaBias c).toNat * ((n + 6) / 16) < 256 := by
    cases c <;> decide
  have hdigit : ∀ n < 16, n + 48 + (hexAlphaBias c).toNat * ((n + 6) / 16) < 256 :=
    spreadDigit_lt c
  simp only [List.forall_mem_cons, List.not_mem_nil, false_implies, implies_true,
    and_true] at hdigits
  have hsix : Row 8 0x0606060606060606#64 [6, 6, 6, 6, 6, 6, 6, 6] :=
    ⟨by decide, by decide, rfl⟩
  have hzero : Row 8 0x3030303030303030#64 [48, 48, 48, 48, 48, 48, 48, 48] :=
    ⟨by decide, by decide, rfl⟩
  have hones : Row 4 0x0101010101010101#64 [1, 0, 1, 0, 1, 0, 1, 0, 1, 0, 1, 0, 1, 0, 1, 0] :=
    ⟨by decide, by decide, rfl⟩
  have hsum := row.add (by norm_num) hsix (by simp [Fits, hcarry, hdigits])
  have hshift := (Row.halves (w := 4) hsum).shiftRight (k := 1) (by simp)
  have hmask := hshift.and (by norm_num) hones
  have hmultiplier : Row 8 (((x + 0x0606060606060606#64) >>> 4) &&& 0x0101010101010101#64)
      ([a₀, a₁, a₂, a₃, a₄, a₅, a₆, a₇].map fun n => (n + 6) / 16) := by
    refine Row.join (w := 4) ?_ ?_
    · simpa [hcarry, Nat.mod_eq_of_lt, Nat.div_eq_of_lt, hdigits] using hmask
    · simp only [Fits, List.map_cons, List.map_nil, List.forall_mem_cons]
      norm_num
      omega
  have hbias := hmultiplier.mul (y := hexAlphaBias c) (by simp [Fits, hplace, hdigits])
  have hplaced := row.add (by norm_num) hzero (by simp [Fits, hplace, hdigits])
  have hlast := hplaced.add (by norm_num) hbias (by simp [Fits, hdigit, hdigits])
  simpa [spreadDigit] using hlast

theorem hexSpread_row (c : HexCase) {v : BitVec 32}
    (row : Row 4 v [a₀, a₁, a₂, a₃, a₄, a₅, a₆, a₇]) :
    Row 8 (hexSpread v (hexAlphaBias c))
      ([a₁, a₀, a₃, a₂, a₅, a₄, a₇, a₆].map (spreadDigit c)) := by
  have hwide : Row 4 (v.setWidth 64) _ := row.setWidth (k := 8) rfl
  have hdigits := spread_nibbles (spread_octets (spread_halves hwide))
  have hfits : ∀ n ∈ [a₀, a₁, a₂, a₃, a₄, a₅, a₆, a₇], n < 16 := row.fits
  refine spread_alpha c hdigits ?_
  simp only [List.forall_mem_cons] at hfits ⊢
  tauto

end Spread

@[simp] theorem encodeOctets_nil (c : HexCase) : encodeOctets c [] = [] := rfl

theorem encodeOctets_cons (c : HexCase) (o : Octet) (rest : List Octet) :
    encodeOctets c (o :: rest) =
      hexAlphabet c (highNibble o) :: hexAlphabet c (lowNibble o) :: encodeOctets c rest := by
  have hhigh : (o >>> 4).toNat = highNibble o := by
    rw [BitVec.toNat_ushiftRight, Nat.shiftRight_eq_div_pow]
    rfl
  have hlow : (o &&& 0x0f).toNat = lowNibble o := by
    rw [BitVec.toNat_and]
    exact Nat.and_two_pow_sub_one_eq_mod o.toNat 4
  simp only [encodeOctets, hhigh, hlow]

theorem hexSpread_eq (e : Endian) (c : HexCase) (b₀ b₁ b₂ b₃ : Octet) :
    hexStore8 e (hexSpread (hexLoad4 e [b₀, b₁, b₂, b₃]) (hexAlphaBias c)) =
      encodeOctets c [b₀, b₁, b₂, b₃] := by
  have hload : Row 4 (loadBytes .little 32 [b₀, b₁, b₂, b₃])
      [lowNibble b₀, highNibble b₀, lowNibble b₁, highNibble b₁,
        lowNibble b₂, highNibble b₂, lowNibble b₃, highNibble b₃] :=
    (loadBytes_row (b := [b₀, b₁, b₂, b₃]) rfl).halves (w := 4)
  rw [hexLoad4_eq e rfl, hexStore8_eq, storeBytes_row (hexSpread_row c hload)]
  simp [encodeOctets_cons, ofNat_spreadDigit, lowNibble_lt, highNibble_lt]

theorem encodeWords_eq (e : Endian) (c : HexCase) (b : List Octet) :
    (encodeWords e c b).1 ++ encodeOctets c (encodeWords e c b).2 = encodeOctets c b := by
  induction b using encodeWords.induct e c with
  | case1 b₀ b₁ b₂ b₃ rest ih =>
    simp only [encodeWords, List.append_assoc, ih, hexSpread_eq]
    simp [encodeOctets_cons]
  | case2 rest hshort => simp [encodeWords]

theorem hexEncodeTo_eq (t : Target) (c : HexCase) (b : List Octet) :
    hexEncodeTo t c b = encodeOctets c b := by
  cases t with
  | consteval => rfl
  | native e => exact encodeWords_eq e c b

/-! ## Groups -/

variable {s : HexStyle}

theorem referenceFrom_append (i : ℕ) (a b : List Octet) :
    referenceFrom s i (a ++ b) = referenceFrom s i a ++ referenceFrom s (i + a.length) b := by
  induction a generalizing i with
  | nil => simp [referenceFrom]
  | cons o a ih =>
    simp only [List.cons_append, referenceFrom, ih, List.append_assoc, List.length_cons]
    rw [show i + 1 + a.length = i + (a.length + 1) by omega]

theorem referenceFrom_plain (hseparator : s.separator = 0) (i : ℕ) (b : List Octet) :
    referenceFrom s i b = encodeOctets s.digitCase b := by
  induction b generalizing i with
  | nil => rfl
  | cons o b ih => simp [referenceFrom, HexStyle.before, hseparator, ih, encodeOctets_cons]

theorem referenceFrom_inside {i : ℕ} (hi : 0 < i % s.group.toNat) (b : List Octet)
    (room : i % s.group.toNat + b.length ≤ s.group.toNat) :
    referenceFrom s i b = encodeOctets s.digitCase b := by
  induction b generalizing i with
  | nil => rfl
  | cons o b ih =>
    have hbefore : s.before i = [] := by
      simp [HexStyle.before, hi.ne']
    rw [List.length_cons] at room
    simp only [referenceFrom, hbefore, List.nil_append, encodeOctets_cons]
    cases b with
    | nil => rfl
    | cons o' b =>
      rw [List.length_cons] at room
      have hnext : (i + 1) % s.group.toNat = i % s.group.toNat + 1 := by
        rw [Nat.add_mod, Nat.mod_eq_of_lt (b := s.group.toNat) (by omega : 1 < _)]
        exact Nat.mod_eq_of_lt (by omega)
      rw [ih (by omega) (by rw [hnext, List.length_cons]; omega)]

theorem referenceFrom_group {i : ℕ} (hi : i % s.group.toNat = 0) {b : List Octet} (hb : b ≠ [])
    (room : b.length ≤ s.group.toNat) :
    referenceFrom s i b = s.before i ++ encodeOctets s.digitCase b := by
  cases b with
  | nil => exact absurd rfl hb
  | cons o b =>
    simp only [referenceFrom, encodeOctets_cons]
    cases b with
    | nil => rfl
    | cons o' b =>
      simp only [List.length_cons] at room
      have hnext : (i + 1) % s.group.toNat = 1 := by
        rw [Nat.add_mod, hi, Nat.mod_eq_of_lt (b := s.group.toNat) (by omega : 1 < _), Nat.zero_add]
        exact Nat.mod_eq_of_lt (by omega)
      rw [referenceFrom_inside (by omega) _ (by rw [hnext, List.length_cons]; omega)]

/-- The loop over the groups writes the reference text; the separator before octet `i` is the work
of the pass before. -/
theorem encodeGroups_eq (t : Target) (hseparator : s.separator ≠ 0) (hgroup : 0 < s.group.toNat)
    {passes i : ℕ} {b : List Octet} (hi : i % s.group.toNat = 0) (hpasses : b.length ≤ passes)
    (hb : b ≠ []) :
    referenceFrom s i b = s.before i ++ encodeGroups t s passes b := by
  induction passes generalizing i b with
  | zero =>
    have := List.length_pos_of_ne_nil hb
    omega
  | succ passes ih =>
    have hpos := List.length_pos_of_ne_nil hb
    generalize hk : min s.group.toNat b.length = k
    have htake : (b.take k).length = k := by
      rw [List.length_take]
      omega
    have hgroups : referenceFrom s i (b.take k) =
        s.before i ++ encodeOctets s.digitCase (b.take k) := by
      refine referenceFrom_group hi ?_ (by omega)
      intro hnil
      rw [hnil, List.length_nil] at htake
      omega
    have hsplit := referenceFrom_append (s := s) i (b.take k) (b.drop k)
    rw [List.take_append_drop, hgroups, htake, List.append_assoc] at hsplit
    rw [hsplit, encodeGroups, if_neg hb]
    simp only [hk, hexEncodeTo_eq]
    congr 2
    by_cases hrest : b.drop k = []
    · rw [if_pos hrest, hrest]
      rfl
    · -- More octets: this group is full, and the next begins `group` octets further.
      rw [if_neg hrest]
      have hkg : k = s.group.toNat := by
        have hlength := List.length_pos_of_ne_nil hrest
        rw [List.length_drop] at hlength
        omega
      have hnext : (i + k) % s.group.toNat = 0 := by
        rw [hkg, Nat.add_mod_right, hi]
      have hbefore : s.before (i + k) = [s.separator] := by
        exact if_pos ⟨hseparator, by omega, hnext⟩
      rw [ih hnext (by rw [List.length_drop]; omega) hrest, hbefore]
      rfl

/-! ## Lengths -/

theorem valid_group (hs : s.valid = true) (hseparator : s.separator ≠ 0) : 0 < s.group.toNat := by
  simp only [HexStyle.valid, decide_eq_true_eq] at hs
  have hgroup := hs.resolve_left hseparator
  have hne : s.group.toNat ≠ 0 := fun h => hgroup (BitVec.eq_of_toNat_eq h)
  omega

/-- The characters of a text of `n` octets. -/
def HexStyle.size (s : HexStyle) (n : ℕ) : ℕ :=
  n * 2 + (if s.separator = 0 then 0 else (n - 1) / s.group.toNat) + (if s.prefixed then 2 else 0)

theorem HexStyle.size_le (s : HexStyle) (n : ℕ) : s.size n ≤ 3 * n + 2 := by
  have hdiv := Nat.div_le_self (n - 1) s.group.toNat
  simp only [HexStyle.size]
  split_ifs <;> omega

theorem hexEncodedSize_eq {n : ℕ} (hs : s.valid = true) (hn : n ≤ (sizeMax - 2) / 3) :
    hexEncodedSize n s = .ok (s.size n) ∧ s.size n ≤ sizeMax := by
  constructor
  · simp only [hexEncodedSize, require_of hs, require_of hn, HexStyle.size]
    by_cases hseparator : s.separator = 0
    · simp only [hseparator, bind, Except.bind, pure, Except.pure]
      split_ifs <;> simp_all
    · by_cases hone : 1 < n
      · simp only [hseparator, hone, bind, Except.bind, pure, Except.pure]
        split_ifs <;> simp_all
      · have hzero : n - 1 = 0 := by omega
        simp only [hseparator, hone, hzero, Nat.zero_div, bind, Except.bind, pure, Except.pure]
        split_ifs <;> simp_all
  · have hle := s.size_le n
    simp only [sizeMax] at hn ⊢
    omega

/-- Every octet adds two digits and every octet that begins a group, the first apart, one
separator. -/
theorem referenceFrom_length (hs : s.valid = true) (b : List Octet) :
    (referenceFrom s 0 b).length =
      b.length * 2 + if s.separator = 0 then 0 else (b.length - 1) / s.group.toNat := by
  induction b using List.reverseRecOn with
  | nil => simp [referenceFrom]
  | append_singleton b o ih =>
    have hlast : (referenceFrom s b.length [o]).length = (s.before b.length).length + 2 := by
      simp [referenceFrom]
    rw [referenceFrom_append, List.length_append, ih, Nat.zero_add, hlast, List.length_append,
      List.length_singleton]
    by_cases hseparator : s.separator = 0
    · simp [HexStyle.before, hseparator]
      omega
    · have hgroup := valid_group hs hseparator
      rcases Nat.eq_zero_or_pos b.length with hzero | hpos
      · simp [HexStyle.before, hzero]
      · have hdiv := Nat.succ_div (a := b.length - 1) (b := s.group.toNat)
        rw [show b.length - 1 + 1 = b.length by omega] at hdiv
        simp only [HexStyle.before, hseparator, if_false, Nat.add_sub_cancel, hdiv,
          Nat.dvd_iff_mod_eq_zero]
        split_ifs <;> simp_all <;> omega

theorem reference_length (hs : s.valid = true) (b : List Octet) :
    (reference s b).length = s.size b.length := by
  rw [reference, List.length_append, referenceFrom_length hs, HexStyle.size]
  split_ifs <;> simp [Nat.add_comm]

theorem encodeGroups_reference (t : Target) (hseparator : s.separator ≠ 0)
    (hgroup : 0 < s.group.toNat) (b : List Octet) :
    encodeGroups t s b.length b = referenceFrom s 0 b := by
  by_cases hb : b = []
  · rw [hb]
    rfl
  · have h := encodeGroups_eq t hseparator hgroup (Nat.zero_mod _) (Nat.le_refl _) hb
    rw [h]
    simp [HexStyle.before]

/-- `to_hex_chars` writes the reference text where there is room for it, and no check of its own
fails. -/
theorem toHexChars_eq (t : Target) (hs : s.valid = true) {b : List Octet}
    (hb : b.length ≤ (sizeMax - 2) / 3) (room : ℕ) :
    toHexChars t room b s =
      .ok (if room < s.size b.length then .tooLarge else .written (reference s b)) := by
  have htext : (if s.prefixed then [ch '0', ch 'x'] else []) ++
      (if s.separator = 0 then hexEncodeTo t s.digitCase b else encodeGroups t s b.length b) =
        reference s b := by
    rw [reference]
    congr 1
    by_cases hseparator : s.separator = 0
    · rw [if_pos hseparator, hexEncodeTo_eq, referenceFrom_plain hseparator]
    · rw [if_neg hseparator, encodeGroups_reference t hseparator (valid_group hs hseparator)]
  simp only [toHexChars, require_of hs, (hexEncodedSize_eq hs hb).1, htext,
    require_of (reference_length hs b), bind, Except.bind, pure, Except.pure]
  split_ifs <;> rfl

theorem hexEncode_eq (t : Target) (hs : s.valid = true) {b : List Octet}
    (hb : b.length ≤ (sizeMax - 2) / 3) : hexEncode t b s = .ok (reference s b) := by
  simp only [hexEncode, require_of hs, (hexEncodedSize_eq hs hb).1, toHexChars_eq t hs hb,
    lt_irrefl, if_false, require_of (reference_length hs b), bind, Except.bind, pure, Except.pure]

theorem hexEncode_ok (hs : s.valid = true) {t : Target} {b : List Octet} {text : List Ch}
    (h : hexEncode t b s = .ok text) : text = reference s b := by
  by_cases hb : b.length ≤ (sizeMax - 2) / 3
  · rw [hexEncode_eq t hs hb, Except.ok.injEq] at h
    exact h.symm
  · have hsize : hexEncodedSize b.length s = .error .precondition := by
      simp only [hexEncodedSize, require, hs, hb, if_true, if_false, bind, Except.bind]
    simp only [hexEncode, require_of hs, hsize, bind, Except.bind] at h
    cases h

/-- Encoding writes the reference text, on every target, and its length is the size that was asked
for. -/
theorem hexEncode_reference (t : Target) {s : HexStyle} (hs : s.valid = true) {b : List Octet}
    (hb : b.length ≤ (sizeMax - 2) / 3) :
    hexEncode t b s = .ok (reference s b) ∧
      hexEncodedSize b.length s = .ok (reference s b).length ∧
        ∀ room, toHexChars t room b s =
          .ok (if room < (reference s b).length then .tooLarge else .written (reference s b)) := by
  have hlength := reference_length hs b
  refine ⟨hexEncode_eq t hs hb, ?_, ?_⟩
  · rw [hlength, (hexEncodedSize_eq hs hb).1]
  · intro room
    rw [hlength, toHexChars_eq t hs hb]

/-- Five octets in upper case, two a group: one whole word and a short last group. -/
theorem hexEncode_reference_grouped :
    hexEncode (.native .big) [0xde, 0xad, 0xbe, 0xef, 0x01]
        { digitCase := .upper, separator := ch ':', group := 2, prefixed := true } =
      .ok ("0xDEAD:BEEF:01".toList.map ch) := by
  have h := hexEncode_reference (.native .big)
    (s := { digitCase := .upper, separator := ch ':', group := 2, prefixed := true }) (by decide)
    (b := [0xde, 0xad, 0xbe, 0xef, 0x01]) (by simp [sizeMax])
  rw [h.1]
  decide

end IW4x.Hex
