import Mathlib.Data.List.Basic
import Mathlib.Tactic

/-!
# UTF-8 and UTF-16

The two encodings of a string of scalar values, with a decoder for each. Decoding what was encoded
gives the string back, so either encoding tells strings apart. A decoder that may not fail puts a
replacement character in the place of what is no encoding; how many bytes one replacement stands for
is left to it.
-/

namespace Unicode

/-- The bytes of a string. -/
def utf8 (cs : List Char) : List UInt8 := cs.flatMap String.utf8EncodeChar

def utf16Char (c : Char) : List UInt16 :=
  if c.toNat < 0x10000 then [.ofNat c.toNat]
  else
    [.ofNat (0xD800 + (c.toNat - 0x10000) / 0x400), .ofNat (0xDC00 + (c.toNat - 0x10000) % 0x400)]

/-- The units of a string. -/
def utf16 (cs : List Char) : List UInt16 := cs.flatMap utf16Char

/-- The string that is encoded by the units, if there is one. -/
def decode16 : List UInt16 → Option (List Char)
  | [] => some []
  | u :: us =>
    if u.toNat < 0xD800 ∨ 0xDFFF < u.toNat then
      (decode16 us).map (Char.ofNat u.toNat :: ·)
    else match us with
      | [] => none
      | v :: vs =>
        if u.toNat < 0xDC00 ∧ 0xDC00 ≤ v.toNat ∧ v.toNat ≤ 0xDFFF then
          (decode16 vs).map
            (Char.ofNat (0x10000 + (u.toNat - 0xD800) * 0x400 + (v.toNat - 0xDC00)) :: ·)
        else none

/-- The string that is encoded by the units, with a replacement for what encodes nothing. -/
def replace16 : List UInt16 → List Char
  | [] => []
  | u :: us =>
    if u.toNat < 0xD800 ∨ 0xDFFF < u.toNat then Char.ofNat u.toNat :: replace16 us
    else match us with
      | [] => [Char.ofNat 0xFFFD]
      | v :: vs =>
        if u.toNat < 0xDC00 ∧ 0xDC00 ≤ v.toNat ∧ v.toNat ≤ 0xDFFF then
          Char.ofNat (0x10000 + (u.toNat - 0xD800) * 0x400 + (v.toNat - 0xDC00)) :: replace16 vs
        else Char.ofNat 0xFFFD :: replace16 (v :: vs)

/-- The string that is encoded by the bytes, if there is one. -/
def decode8 (bs : List UInt8) : Option (List Char) :=
  bs.toByteArray.utf8Decode?.map Array.toList

@[simp] theorem utf8_nil : utf8 [] = [] := rfl

@[simp] theorem utf8_cons (c : Char) (cs : List Char) :
    utf8 (c :: cs) = String.utf8EncodeChar c ++ utf8 cs := rfl

@[simp] theorem utf16_nil : utf16 [] = [] := rfl

@[simp] theorem utf16_cons (c : Char) (cs : List Char) :
    utf16 (c :: cs) = utf16Char c ++ utf16 cs := rfl

theorem utf8_append (cs ds : List Char) : utf8 (cs ++ ds) = utf8 cs ++ utf8 ds := by
  simp [utf8]

theorem utf16_append (cs ds : List Char) : utf16 (cs ++ ds) = utf16 cs ++ utf16 ds := by
  simp [utf16]

@[simp] theorem decode8_utf8 (cs : List Char) : decode8 (utf8 cs) = some cs := by
  have h : (utf8 cs).toByteArray = cs.utf8Encode := rfl
  rw [decode8, h, List.utf8Decode?_utf8Encode]
  simp

theorem utf8_injective : Function.Injective utf8 := by
  intro cs ds h
  have := congrArg decode8 h
  simpa using this

theorem high_toNat (c : Char) : (UInt16.ofNat (0xD800 + (c.toNat - 0x10000) / 0x400)).toNat =
    0xD800 + (c.toNat - 0x10000) / 0x400 := by
  have hvalid : c.toNat < 0xD800 ∨ 0xDFFF < c.toNat ∧ c.toNat < 0x110000 := c.valid
  exact UInt16.toNat_ofNat_of_lt' (show _ < 65536 by omega)

theorem low_toNat (c : Char) : (UInt16.ofNat (0xDC00 + (c.toNat - 0x10000) % 0x400)).toNat =
    0xDC00 + (c.toNat - 0x10000) % 0x400 :=
  UInt16.toNat_ofNat_of_lt' (show _ < 65536 by omega)

theorem decode16_utf16Char (c : Char) (us : List UInt16) :
    decode16 (utf16Char c ++ us) = (decode16 us).map (c :: ·) := by
  have hvalid : c.toNat < 0xD800 ∨ 0xDFFF < c.toNat ∧ c.toNat < 0x110000 := c.valid
  unfold utf16Char
  split_ifs with h
  · have hu : (UInt16.ofNat c.toNat).toNat = c.toNat := UInt16.toNat_ofNat_of_lt' h
    have hplane : c.toNat < 0xD800 ∨ 0xDFFF < c.toNat := hvalid.imp_right And.left
    simp only [List.cons_append, List.nil_append]
    rw [decode16.eq_def]
    simp only [hu, if_pos hplane, Char.ofNat_toNat]
  · have hhigh := high_toNat c
    have hlow := low_toNat c
    have hvalue : 0x10000 + (0xD800 + (c.toNat - 0x10000) / 0x400 - 0xD800) * 0x400 +
        (0xDC00 + (c.toNat - 0x10000) % 0x400 - 0xDC00) = c.toNat := by omega
    have hsurrogate : ¬ (0xD800 + (c.toNat - 0x10000) / 0x400 < 0xD800 ∨
        0xDFFF < 0xD800 + (c.toNat - 0x10000) / 0x400) := by omega
    have hpair : 0xD800 + (c.toNat - 0x10000) / 0x400 < 0xDC00 ∧
        0xDC00 ≤ 0xDC00 + (c.toNat - 0x10000) % 0x400 ∧
        0xDC00 + (c.toNat - 0x10000) % 0x400 ≤ 0xDFFF := by omega
    simp only [List.cons_append, List.nil_append]
    rw [decode16.eq_def]
    simp only [hhigh, hlow, if_neg hsurrogate, if_pos hpair, hvalue, Char.ofNat_toNat]

@[simp] theorem decode16_utf16 (cs : List Char) : decode16 (utf16 cs) = some cs := by
  induction cs with
  | nil => rfl
  | cons c cs ih => rw [utf16_cons, decode16_utf16Char, ih, Option.map_some]

theorem replace16_of_decode {us : List UInt16} {cs : List Char} (h : decode16 us = some cs) :
    replace16 us = cs := by
  fun_induction decode16 us generalizing cs with
  | case1 => exact Option.some.inj h
  | case2 u us hplane ih =>
    obtain ⟨ds, hds, rfl⟩ := Option.map_eq_some_iff.mp h
    rw [replace16.eq_def]
    simp only [if_pos hplane, ih hds]
  | case3 => cases h
  | case4 u hplane v vs hpair ih =>
    obtain ⟨ds, hds, rfl⟩ := Option.map_eq_some_iff.mp h
    rw [replace16, if_neg hplane]
    simp only [if_pos hpair, ih hds]
  | case5 => cases h

@[simp] theorem replace16_utf16 (cs : List Char) : replace16 (utf16 cs) = cs :=
  replace16_of_decode (decode16_utf16 cs)

theorem utf16_injective : Function.Injective utf16 := by
  intro cs ds h
  have := congrArg decode16 h
  simpa using this

/-! ## Lengths -/

theorem utf16Char_pos (c : Char) : 0 < (utf16Char c).length := by
  unfold utf16Char
  split_ifs <;> simp

theorem utf16Char_length_le (c : Char) : (utf16Char c).length ≤ c.utf8Size := by
  unfold utf16Char
  split_ifs with h
  · exact c.utf8Size_pos
  · have hsize : c.utf8Size = 4 := by
      have hnat : c.toNat = c.val.toNat := rfl
      rw [Char.utf8Size_eq_four_iff, UInt32.lt_iff_toNat_lt]
      simp only [UInt32.reduceToNat]
      omega
    simp [hsize]

theorem length_utf8_cons (c : Char) (cs : List Char) :
    (utf8 (c :: cs)).length = c.utf8Size + (utf8 cs).length := by
  simp

/-! ## A decoder that does not fail -/

/-- What the first bytes are converted to, and how many they are: a character, or a replacement for
as many as `skip` says. -/
def convertFirst (skip : List UInt8 → ℕ) (bs : List UInt8) : List UInt16 × ℕ :=
  match bs.toByteArray.utf8DecodeChar? 0 with
  | some c => (utf16Char c, c.utf8Size)
  | none => ([0xFFFD], max 1 (skip bs))

/-- The units for so many conversions at most. -/
def convertUpTo (skip : List UInt8 → ℕ) : ℕ → List UInt8 → List UInt16
  | 0, _ => []
  | _, [] => []
  | n + 1, bs =>
    let first := convertFirst skip bs
    first.1 ++ convertUpTo skip n (bs.drop first.2)

/-- The units that the bytes are converted to. -/
def convert (skip : List UInt8 → ℕ) (bs : List UInt8) : List UInt16 :=
  convertUpTo skip bs.length bs

variable (skip : List UInt8 → ℕ)

theorem toByteArray_append (bs bs' : List UInt8) :
    (bs ++ bs').toByteArray = bs.toByteArray ++ bs'.toByteArray := by
  simp

theorem convertFirst_char (c : Char) (bs : List UInt8) :
    convertFirst skip (String.utf8EncodeChar c ++ bs) = (utf16Char c, c.utf8Size) := by
  rw [convertFirst, toByteArray_append, ByteArray.utf8DecodeChar?_utf8EncodeChar_append]

/-- Valid bytes are converted to the units of their string. -/
theorem convertUpTo_utf8 (cs : List Char) (n : ℕ) (h : (utf8 cs).length ≤ n) :
    convertUpTo skip n (utf8 cs) = utf16 cs := by
  induction cs generalizing n with
  | nil => cases n <;> rfl
  | cons c cs ih =>
    have hlength := length_utf8_cons c cs
    have hpos := c.utf8Size_pos
    cases n with
    | zero => omega
    | succ n =>
      have hdrop : (String.utf8EncodeChar c ++ utf8 cs).drop c.utf8Size = utf8 cs := by
        rw [← String.length_utf8EncodeChar c, List.drop_left]
      have hne : utf8 (c :: cs) ≠ [] := by
        intro hnil
        rw [hnil] at hlength
        simp at hlength
        omega
      rw [convertUpTo.eq_3 _ _ _ hne, utf8_cons, convertFirst_char]
      simp only [hdrop, utf16_cons]
      rw [ih n (by omega)]

@[simp] theorem convert_utf8 (cs : List Char) : convert skip (utf8 cs) = utf16 cs :=
  convertUpTo_utf8 skip cs _ (le_refl _)

theorem starts_of_decode {bs : List UInt8} {c : Char}
    (h : bs.toByteArray.utf8DecodeChar? 0 = some c) :
    ∃ rest, bs = String.utf8EncodeChar c ++ rest := by
  obtain ⟨l, hl⟩ := ByteArray.exists_of_utf8DecodeChar?_eq_some h
  refine ⟨l.data.toList, ?_⟩
  have hdata := congrArg (fun b : ByteArray => b.data.toList) hl
  simpa using hdata

theorem convertFirst_spec {bs : List UInt8} (h : bs ≠ []) :
    0 < (convertFirst skip bs).1.length ∧
      (convertFirst skip bs).1.length + (bs.drop (convertFirst skip bs).2).length ≤ bs.length := by
  have hpos : 0 < bs.length := List.length_pos_iff.mpr h
  cases hfirst : bs.toByteArray.utf8DecodeChar? 0 with
  | some c =>
    obtain ⟨rest, rfl⟩ := starts_of_decode hfirst
    have hlength := utf16Char_length_le c
    rw [convertFirst_char, List.length_drop, List.length_append, String.length_utf8EncodeChar]
    refine ⟨utf16Char_pos c, ?_⟩
    dsimp only
    omega
  | none =>
    simp only [convertFirst, hfirst, List.length_singleton, List.length_drop]
    omega

theorem convertUpTo_length_le (n : ℕ) (bs : List UInt8) :
    (convertUpTo skip n bs).length ≤ bs.length := by
  induction n generalizing bs with
  | zero => simp [convertUpTo]
  | succ n ih =>
    cases bs with
    | nil => simp [convertUpTo]
    | cons b bs =>
      have hfirst := (convertFirst_spec skip (List.cons_ne_nil b bs)).2
      have hrest := ih ((b :: bs).drop (convertFirst skip (b :: bs)).2)
      simp only [convertUpTo, List.length_append]
      omega

theorem convert_length_le (bs : List UInt8) : (convert skip bs).length ≤ bs.length :=
  convertUpTo_length_le skip _ bs

theorem convert_ne_nil {bs : List UInt8} (h : bs ≠ []) : convert skip bs ≠ [] := by
  cases bs with
  | nil => exact absurd rfl h
  | cons b bs =>
    have hfirst := (convertFirst_spec skip (List.cons_ne_nil b bs)).1
    intro hnil
    simp only [convert, List.length_cons, convertUpTo, List.append_eq_nil_iff] at hnil
    rw [hnil.1] at hfirst
    simp at hfirst

theorem utf16Char_last {c : Char} {u : UInt16} (ascii : u.toNat < 128) :
    (utf16Char c).getLast? = some u ↔ c.toNat = u.toNat := by
  unfold utf16Char
  split_ifs with hplane
  · have hu : (UInt16.ofNat c.toNat).toNat = c.toNat := UInt16.toNat_ofNat_of_lt' hplane
    rw [List.getLast?_singleton, Option.some_inj, ← UInt16.toNat_inj, hu]
  · have hlow := low_toNat c
    rw [List.getLast?_cons_cons, List.getLast?_singleton, Option.some_inj, ← UInt16.toNat_inj, hlow]
    omega

theorem utf16_last {cs : List Char} {u : UInt16} (ascii : u.toNat < 128) :
    (utf16 cs).getLast? = some u ↔ ∃ c, cs.getLast? = some c ∧ c.toNat = u.toNat := by
  induction cs using List.reverseRecOn with
  | nil => simp
  | append_singleton cs c _ =>
    have hne : utf16Char c ≠ [] := List.length_pos_iff.mp (utf16Char_pos c)
    rw [utf16_append, utf16_cons, utf16_nil, List.append_nil, List.getLast?_append_of_ne_nil _ hne,
      utf16Char_last ascii]
    simp

theorem utf16Char_eq_singleton {c : Char} {u : UInt16} (h : u ∈ utf16Char c)
    (ascii : u.toNat < 128) : utf16Char c = [u] := by
  unfold utf16Char at h ⊢
  split_ifs at h ⊢ with hplane
  · rw [List.mem_singleton.mp h]
  · have hhigh := high_toNat c
    have hlow := low_toNat c
    simp only [List.mem_cons, List.not_mem_nil, or_false] at h
    rcases h with rfl | rfl <;> omega

/-- A unit below 128 stands for a character of its own. -/
theorem mem_utf16Char {c : Char} {u : UInt16} (h : u ∈ utf16Char c) (ascii : u.toNat < 128) :
    String.utf8EncodeChar c = [UInt8.ofNat u.toNat] := by
  unfold utf16Char at h
  split_ifs at h with hplane
  · obtain rfl := List.mem_singleton.mp h
    have hu : (UInt16.ofNat c.toNat).toNat = c.toNat := UInt16.toNat_ofNat_of_lt' hplane
    rw [hu] at ascii ⊢
    have hnat : c.toNat = c.val.toNat := rfl
    rw [String.utf8EncodeChar_eq_singleton]
    · have hbyte : c.val.toUInt8 = UInt8.ofNat c.toNat := rfl
      rw [hbyte]
    · rw [Char.utf8Size_eq_one_iff, UInt32.le_iff_toNat_le]
      simp only [UInt32.reduceToNat]
      omega
  · have hhigh := high_toNat c
    have hlow := low_toNat c
    simp only [List.mem_cons, List.not_mem_nil, or_false] at h
    rcases h with rfl | rfl
    · omega
    · omega

theorem mem_convertUpTo {n : ℕ} {bs : List UInt8} {u : UInt16} (h : u ∈ convertUpTo skip n bs)
    (ascii : u.toNat < 128) : UInt8.ofNat u.toNat ∈ bs := by
  induction n generalizing bs with
  | zero => simp [convertUpTo] at h
  | succ n ih =>
    cases bs with
    | nil => simp [convertUpTo] at h
    | cons b bs =>
      simp only [convertUpTo, List.mem_append] at h
      rcases h with h | h
      · cases hfirst : (b :: bs).toByteArray.utf8DecodeChar? 0 with
        | some c =>
          obtain ⟨rest, hbs⟩ := starts_of_decode hfirst
          simp only [convertFirst, hfirst] at h
          rw [hbs, mem_utf16Char h ascii]
          simp
        | none =>
          simp only [convertFirst, hfirst, List.mem_singleton] at h
          subst h
          simp at ascii
      · exact List.mem_of_mem_drop (ih h)

theorem mem_convert {bs : List UInt8} {u : UInt16} (h : u ∈ convert skip bs)
    (ascii : u.toNat < 128) : UInt8.ofNat u.toNat ∈ bs :=
  mem_convertUpTo skip h ascii

/-- Bytes that are converted to ASCII alone are the same text. -/
theorem eq_of_convertUpTo_ascii {n : ℕ} {bs : List UInt8} (hn : bs.length ≤ n)
    (ascii : ∀ u ∈ convertUpTo skip n bs, u.toNat < 128) :
    bs = (convertUpTo skip n bs).map fun u => UInt8.ofNat u.toNat := by
  induction n generalizing bs with
  | zero => simp_all [convertUpTo]
  | succ n ih =>
    cases bs with
    | nil => rfl
    | cons b bs =>
      simp only [convertUpTo, List.mem_append] at ascii ⊢
      cases hfirst : (b :: bs).toByteArray.utf8DecodeChar? 0 with
      | none =>
        have hreplaced := ascii 0xFFFD (.inl (by simp [convertFirst, hfirst]))
        simp at hreplaced
      | some c =>
        obtain ⟨rest, hbs⟩ := starts_of_decode hfirst
        rw [hbs, convertFirst_char] at ascii ⊢
        obtain ⟨u, hu⟩ := List.exists_mem_of_length_pos (utf16Char_pos c)
        have hbyte := mem_utf16Char hu (ascii u (.inl hu))
        have hunit := utf16Char_eq_singleton hu (ascii u (.inl hu))
        have hsize : c.utf8Size = 1 := by
          rw [← String.length_utf8EncodeChar, hbyte, List.length_singleton]
        have hlength : rest.length ≤ n := by
          have hsum := congrArg List.length hbs
          simp only [List.length_cons, hbyte, List.length_append, List.length_nil] at hsum hn
          omega
        simp only [hbyte, hunit, hsize, List.singleton_append, List.drop_one, List.tail_cons,
          List.map_cons] at ascii ⊢
        rw [← ih hlength fun v hv => ascii v (.inr hv)]

theorem eq_of_convert_ascii {bs : List UInt8} (ascii : ∀ u ∈ convert skip bs, u.toNat < 128) :
    bs = (convert skip bs).map fun u => UInt8.ofNat u.toNat :=
  eq_of_convertUpTo_ascii skip le_rfl ascii

end Unicode
