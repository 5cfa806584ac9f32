import IW4x.Lib.PercentEncoding
import IW4x.Gdk.Format

/-!
# Invitations

An invitation reaches the game as a URI that ends with the connection string, percent-encoded. Both
the encoded string and the URI are written into buffers of 768 bytes, each of which cuts what does
not fit, so that 720 bytes of the encoded string are left behind the prefix.
-/

namespace IW4x.Gdk

open RawMemory Numerals Hex PercentEncoding

def activationCapacity : ℕ := 768

def uriPrefix : Bytes := ascii "ms-xbl-multiplayer://activity?connectionString="

/-- The bytes that `activation_uri` writes as they are. -/
def unreserved (x : UInt8) : Bool :=
  (0x61 ≤ x ∧ x ≤ 0x7A) ∨ (0x41 ≤ x ∧ x ≤ 0x5A) ∨ (0x30 ≤ x ∧ x ≤ 0x39) ∨
    x = 0x2D ∨ x = 0x5F ∨ x = 0x2E ∨ x = 0x7E

/-- The loop of `activation_uri`. -/
def encodeInto : TextWriter → Bytes → Except Contract TextWriter
  | w, [] => .ok w
  | w, x :: c =>
    if unreserved x then encodeInto (w.write [x]) c
    else
      let octet : Unsigned 1 := x.toBitVec
      match Integers.toHexChars 2 octet .upper with
      | .tooLarge => .error .assertion
      | .written s => encodeInto (w.write (percent :: bytesOf s)) c

def activationUri (m : Mem) (c : Bytes) : Except Contract Bytes := do
  let _ ← textOf m activationCapacity (by decide) uriPrefix []
  let w ← encodeInto (TextWriter.start m 0 activationCapacity (by decide)) c
  textOf m activationCapacity (by decide) (uriPrefix ++ braces) [.view w.view]

theorem unreserved_percent : unreserved percent = false := by decide

/-! ## What the URI holds -/

theorem alphabet_digit : ∀ n < 16, UInt8.ofBitVec (hexAlphabet .upper n) = digit n := by decide

theorem octet_digits (x : UInt8) :
    bytesOf (Integers.digitsFrom (w := 1) .upper 2 x.toBitVec) =
      [digit (x.toNat / 16), digit (x.toNat % 16)] := by
  have hx := x.toNat_lt
  have hdigits : lowDigits 16 2 x.toNat = [x.toNat / 16, x.toNat % 16] := by
    rw [lowDigits_cons, lowDigits_cons]
    have hhigh : x.toNat / 16 % 16 = x.toNat / 16 := Nat.mod_eq_of_lt (by omega)
    simp [lowDigits, hhigh]
  rw [Integers.digitsFrom_eq (by norm_num)]
  change bytesOf ((lowDigits 16 2 x.toNat).map _) = _
  simp only [hdigits, bytesOf, List.map_cons, List.map_nil]
  rw [alphabet_digit _ (by omega), alphabet_digit _ (by omega)]

variable {b n : ℕ} {m : Mem} {t : Bytes} {w : TextWriter}

/-- The loop writes the encoded string. -/
theorem encodeInto_carries (h : Carries b n m t w) (c : Bytes) :
    ∃ w', encodeInto w c = .ok w' ∧ Carries b n m (t ++ encode unreserved c) w' := by
  induction c generalizing w t with
  | nil => exact ⟨w, rfl, by simpa using h⟩
  | cons x c ih =>
    rw [encode_cons]
    cases hkept : unreserved x with
    | true =>
      obtain ⟨w', hloop, hcarries⟩ := ih (TextWriter.write_carries h [x])
      refine ⟨w', ?_, ?_⟩
      · rw [encodeInto, if_pos hkept, hloop]
      · simpa using hcarries
    | false =>
      obtain ⟨w', hloop, hcarries⟩ := ih (TextWriter.write_carries h (escape x))
      refine ⟨w', ?_, ?_⟩
      · have hwritten : Integers.toHexChars (w := 1) 2 x.toBitVec .upper =
            .written (Integers.digitsFrom (w := 1) .upper 2 x.toBitVec) := rfl
        rw [encodeInto, if_neg (by simp [hkept])]
        simp only [hwritten, octet_digits]
        exact hloop
      · simpa using hcarries

theorem activationUri_eq (m : Mem) (c : Bytes) :
    activationUri m c = .ok (uriPrefix ++ (encode unreserved c).take 720) := by
  obtain ⟨w, hloop, hcarries⟩ := encodeInto_carries
    (TextWriter.start_carries m 0 (c := activationCapacity) (by decide)) c
  rw [List.nil_append] at hcarries
  rw [activationUri, textOf_eq m (by decide) (by decide), hloop]
  change textOf m activationCapacity _ (uriPrefix ++ braces) [.view w.view] = _
  have hfixed : uriPrefix.length = 47 := by decide
  have hformatted : formatted (uriPrefix ++ braces) [.view w.view] = uriPrefix ++ w.view :=
    formatted_last (by decide) (.view w.view)
  rw [textOf_eq m (by decide) (by decide), hformatted, hcarries.view, text, List.take_append,
    List.take_of_length_le (by rw [hfixed]; decide), hfixed, List.take_take]
  rfl

/-- Up to 720 bytes of encoded string the URI holds it whole, and the string can be read back. -/
theorem activation_read_back (c : Bytes) (hc : (encode unreserved c).length ≤ 720) :
    (∃ t, (∀ m, activationUri m c = .ok (uriPrefix ++ t)) ∧ Encoded unreserved t c ∧
      decode t = c) ∧
    ∀ c', (encode unreserved c').length ≤ 720 → c ≠ c' →
      ∀ m m', activationUri m c ≠ activationUri m' c' := by
  have hwhole (c : Bytes) (h : (encode unreserved c).length ≤ 720) (m : Mem) :
      activationUri m c = .ok (uriPrefix ++ encode unreserved c) := by
    rw [activationUri_eq, List.take_of_length_le h]
  have hdecode (c : Bytes) : decode (encode unreserved c) = c :=
    (encode_encoded c).decode_eq unreserved_percent
  refine ⟨⟨encode unreserved c, hwhole c hc, encode_encoded c, hdecode c⟩, ?_⟩
  intro c' hc' hne m m' heq
  rw [hwhole c hc, hwhole c' hc'] at heq
  have hencoded : encode unreserved c = encode unreserved c' :=
    List.append_cancel_left (Except.ok.inj heq)
  apply hne
  rw [← hdecode c, hencoded, hdecode]

/-- A place, NUL, a percent sign and a byte beyond ASCII all come back. -/
theorem activation_read_back_bytes : ∃ t,
    (∀ m, activationUri m (braces ++ [0, percent, 0xFF]) = .ok (uriPrefix ++ t)) ∧
      decode t = braces ++ [0, percent, 0xFF] := by
  obtain ⟨⟨t, huri, -, hdecode⟩, -⟩ :=
    activation_read_back (braces ++ [0, percent, 0xFF]) (by decide)
  exact ⟨t, huri, hdecode⟩

theorem well_formed_iff (m : Mem) (c : Bytes) :
    (∃ t p, activationUri m c = .ok (uriPrefix ++ t) ∧ p <+: c ∧ Encoded unreserved t p ∧
      decode t = p) ↔
    ∃ p, p <+: c ∧ Encoded unreserved ((encode unreserved c).take 720) p := by
  rw [activationUri_eq]
  constructor
  · rintro ⟨t, p, heq, hp, hencoded, -⟩
    have ht := List.append_cancel_left (Except.ok.inj heq)
    rw [← ht] at hencoded
    exact ⟨p, hp, hencoded⟩
  · rintro ⟨p, hp, hencoded⟩
    exact ⟨_, p, rfl, hp, hencoded, hencoded.decode_eq unreserved_percent⟩

theorem encode_percents (k : ℕ) :
    (encode unreserved (List.replicate k percent)).length = 3 * k := by
  simp [encode_length, List.countP_replicate, unreserved_percent]

/-- Beyond 720 bytes the URI is well formed just if the 720th is the last of what one of the bytes
comes to. -/
theorem cut_uri_iff (m : Mem) (c : Bytes) (hc : 720 < (encode unreserved c).length) :
    (∃ t p, activationUri m c = .ok (uriPrefix ++ t) ∧ p <+: c ∧ Encoded unreserved t p ∧
      decode t = p) ↔
    ∃ p, p <+: c ∧ p.countP unreserved + 3 * p.countP (fun x => !unreserved x) = 720 := by
  rw [well_formed_iff, cut_encoded_iff unreserved_percent c (le_of_lt hc)]
  simp only [encode_length]

/-- A string of percent signs is cut between two of them. -/
theorem cut_uri_iff_percents :
    ∃ t p, activationUri (fun _ => 0) (List.replicate 241 percent) = .ok (uriPrefix ++ t) ∧
      p <+: List.replicate 241 percent ∧ Encoded unreserved t p ∧ decode t = p := by
  have hlong := encode_percents 241
  apply (cut_uri_iff (fun _ => 0) _ (by omega)).mpr
  refine ⟨List.replicate 240 percent, ?_, ?_⟩
  · exact ⟨[percent], List.replicate_succ'.symm⟩
  · rw [← encode_length, encode_percents]

/-- A letter before percent signs puts the cut into the last of them. -/
theorem cut_uri_fails :
    720 < (encode unreserved (0x61 :: List.replicate 240 percent)).length ∧
      ¬ ∃ t p, activationUri (fun _ => 0) (0x61 :: List.replicate 240 percent) =
        .ok (uriPrefix ++ t) ∧ p <+: 0x61 :: List.replicate 240 percent ∧
          Encoded unreserved t p ∧ decode t = p := by
  have hletter (k : ℕ) :
      (encode unreserved (0x61 :: List.replicate k percent)).length = 1 + 3 * k := by
    have hkept : unreserved 0x61 = true := by decide
    rw [encode_cons, if_pos hkept, List.length_append, encode_percents, List.length_singleton]
  have hlong := hletter 240
  refine ⟨by omega, ?_⟩
  rw [well_formed_iff, cut_encoded_iff unreserved_percent _ (by omega)]
  rintro ⟨p, hp, hlength⟩
  -- The encoded form of a prefix is empty or one byte longer than whole escapes.
  rcases List.prefix_cons_iff.mp hp with rfl | ⟨q, rfl, hq⟩
  · simp at hlength
  · rw [(List.prefix_replicate_iff.mp hq).2, hletter] at hlength
    omega

end IW4x.Gdk
