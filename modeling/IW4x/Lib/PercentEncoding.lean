import Mathlib.Tactic

/-!
# Percent-encoding

A byte is kept as it is, or stands as a percent sign with two digits in upper case. Decoding gives
back what was encoded. Where an encoded text is cut, it is still one just if the cut is at the end of
a byte.
-/

namespace PercentEncoding

def percent : UInt8 := 0x25

/-- A hexadecimal digit in upper case. -/
def digit (n : ℕ) : UInt8 := if n < 10 then UInt8.ofNat (0x30 + n) else UInt8.ofNat (0x37 + n)

/-- The number that a hexadecimal digit stands for, in either case. -/
def digitValue (x : UInt8) : Option ℕ :=
  if 0x30 ≤ x ∧ x ≤ 0x39 then some (x.toNat - 0x30)
  else if 0x41 ≤ x ∧ x ≤ 0x46 then some (x.toNat - 0x37)
  else if 0x61 ≤ x ∧ x ≤ 0x66 then some (x.toNat - 0x57)
  else none

def escape (x : UInt8) : List UInt8 := [percent, digit (x.toNat / 16), digit (x.toNat % 16)]

/-- The encoded form of the bytes, of which some are kept. -/
def encode (keep : UInt8 → Bool) (bs : List UInt8) : List UInt8 :=
  bs.flatMap fun x => if keep x then [x] else escape x

/-- The bytes of a text in which escapes stand for bytes and everything else for itself. -/
def decode : List UInt8 → List UInt8
  | x :: y :: z :: t =>
    match if x = percent then (digitValue y).bind fun h => (digitValue z).map (h * 16 + ·)
        else none with
    | some v => UInt8.ofNat v :: decode t
    | none => x :: decode (y :: z :: t)
  | t => t

/-- The text consists of bytes that are kept and of whole escapes, and stands for the bytes. -/
inductive Encoded (keep : UInt8 → Bool) : List UInt8 → List UInt8 → Prop
  | nil : Encoded keep [] []
  | plain {x : UInt8} {t bs : List UInt8} (h : keep x = true) (rest : Encoded keep t bs) :
      Encoded keep (x :: t) (x :: bs)
  | escape (x : UInt8) {t bs : List UInt8} (rest : Encoded keep t bs) :
      Encoded keep (escape x ++ t) (x :: bs)

variable {keep : UInt8 → Bool} {bs t p : List UInt8}

@[simp] theorem encode_nil : encode keep [] = [] := rfl

theorem encode_cons (x : UInt8) (bs : List UInt8) :
    encode keep (x :: bs) = (if keep x then [x] else escape x) ++ encode keep bs := rfl

theorem encode_append (bs bs' : List UInt8) :
    encode keep (bs ++ bs') = encode keep bs ++ encode keep bs' := List.flatMap_append

theorem encode_length (bs : List UInt8) : (encode keep bs).length =
    bs.countP keep + 3 * bs.countP fun x => !keep x := by
  induction bs with
  | nil => rfl
  | cons x bs ih =>
    rw [encode_cons, List.length_append, ih, List.countP_cons, List.countP_cons]
    cases keep x with
    | true =>
      simp only [if_true, List.length_singleton, Bool.not_true, Bool.false_eq_true, if_false]
      omega
    | false =>
      simp only [Bool.false_eq_true, if_false, Bool.not_false, if_true, escape, List.length_cons,
        List.length_nil]
      omega

theorem encode_encoded (bs : List UInt8) : Encoded keep (encode keep bs) bs := by
  induction bs with
  | nil => exact .nil
  | cons x bs ih =>
    rw [encode_cons]
    split_ifs with hkeep
    · exact .plain hkeep ih
    · exact .escape x ih

theorem digitValue_digit : ∀ n < 16, digitValue (digit n) = some n := by decide

theorem decode_escape (x : UInt8) (t : List UInt8) : decode (escape x ++ t) = x :: decode t := by
  have hx := x.toNat_lt
  have hvalue : x.toNat / 16 * 16 + x.toNat % 16 = x.toNat := by omega
  rw [escape, List.cons_append, List.cons_append, List.cons_append, List.nil_append, decode,
    if_pos rfl, digitValue_digit _ (by omega), digitValue_digit _ (by omega)]
  simp [hvalue]

theorem decode_plain {x : UInt8} (hx : x ≠ percent) (t : List UInt8) :
    decode (x :: t) = x :: decode t := by
  match t with
  | [] => rfl
  | [y] => rfl
  | y :: z :: t => simp [decode, hx]

theorem Encoded.decode_eq (hpercent : keep percent = false) (h : Encoded keep t bs) :
    decode t = bs := by
  induction h with
  | nil => rfl
  | @plain x t bs hkeep _ ih =>
    have hx : x ≠ percent := by
      rintro rfl
      rw [hkeep] at hpercent
      exact absurd hpercent (by decide)
    rw [decode_plain hx, ih]
  | @escape x t bs _ ih => rw [decode_escape, ih]

/-- Of the texts for a prefix of the bytes only its encoded form begins that of them all. -/
theorem Encoded.eq_encode (hpercent : keep percent = false) (h : Encoded keep t p) (hp : p <+: bs)
    (ht : t <+: encode keep bs) : t = encode keep p := by
  induction h generalizing bs with
  | nil => rfl
  | @plain x t p hkeep _ ih =>
    obtain ⟨rest, rfl⟩ := hp
    rw [List.cons_append, encode_cons, if_pos hkeep, List.singleton_append,
      List.cons_prefix_cons] at ht
    rw [encode_cons, if_pos hkeep, ← ih (List.prefix_append p rest) ht.2]
    rfl
  | @escape x t p _ ih =>
    obtain ⟨rest, rfl⟩ := hp
    rw [List.cons_append, encode_cons] at ht
    rw [encode_cons]
    split_ifs at ht ⊢ with hkeep
    · have hx : percent = x := by
        rw [PercentEncoding.escape, List.cons_append, List.singleton_append,
          List.cons_prefix_cons] at ht
        exact ht.1
      rw [hx, hkeep] at hpercent
      exact absurd hpercent (by decide)
    · rw [List.prefix_append_right_inj] at ht
      rw [← ih (List.prefix_append p rest) ht]

theorem cut_encoded_iff (hpercent : keep percent = false) (bs : List UInt8) {n : ℕ}
    (hn : n ≤ (encode keep bs).length) :
    (∃ p, p <+: bs ∧ Encoded keep ((encode keep bs).take n) p) ↔
      ∃ p, p <+: bs ∧ (encode keep p).length = n := by
  constructor
  · rintro ⟨p, hp, hencoded⟩
    refine ⟨p, hp, ?_⟩
    rw [← hencoded.eq_encode hpercent hp (List.take_prefix n _), List.length_take,
      Nat.min_eq_left hn]
  · rintro ⟨p, ⟨rest, rfl⟩, rfl⟩
    refine ⟨p, List.prefix_append p rest, ?_⟩
    rw [encode_append, List.take_left]
    exact encode_encoded p

end PercentEncoding
