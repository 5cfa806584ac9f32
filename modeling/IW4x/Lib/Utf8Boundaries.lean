import IW4x.Lib.Unicode

/-!
# Boundaries of code points

A byte of UTF-8 either begins a code point or continues one. A prefix of valid UTF-8 ends on a
boundary just where no code point is continued, and the longest such prefix of a length is found by
going back from there. A prefix that is taken of such a prefix is one of the whole.
-/

namespace Unicode

/-- The byte continues a code point. -/
def continues (b : UInt8) : Bool := b &&& 0xC0 = 0x80

/-- So many bytes of the string end on a boundary. -/
def IsBoundary (cs : List Char) (i : ℕ) : Prop := ∃ k, (utf8 (cs.take k)).length = i

/-- The longest prefix that ends on a boundary and has at most so many bytes. -/
structure LongestWithin (cs : List Char) (limit : ℕ) (t : List UInt8) : Prop where
  isPrefix : ∃ k, t = utf8 (cs.take k)
  fits : t.length ≤ limit
  longest : ∀ k, (utf8 (cs.take k)).length ≤ limit → (utf8 (cs.take k)).length ≤ t.length

/-- The last place, from the one given on backwards, at which no code point is continued. -/
def backToBoundary (s : List UInt8) : ℕ → ℕ
  | 0 => 0
  | n + 1 => if (s[n + 1]?).any continues then backToBoundary s n else n + 1

theorem continues_tail : ∀ k < 64, continues (UInt8.ofNat (k + 0x80)) = true := by decide

theorem continues_head : ∀ k < 256, k < 0x80 ∨ 0xC0 ≤ k → continues (UInt8.ofNat k) = false := by
  decide +kernel

/-- A code point begins with a byte that continues none, and the others continue it. -/
theorem encodeChar_bytes (c : Char) : ∃ b bs, String.utf8EncodeChar c = b :: bs ∧
    continues b = false ∧ ∀ x ∈ bs, continues x = true := by
  have htail (k : ℕ) : continues (UInt8.ofNat (k % 0x40 + 0x80)) = true :=
    continues_tail _ (Nat.mod_lt _ (by norm_num))
  unfold String.utf8EncodeChar
  generalize c.val.toNat = v
  dsimp only
  split_ifs with h1 h2 h3
  · refine ⟨_, _, rfl, ?_, ?_⟩
    · exact continues_head v (by omega) (by omega)
    · exact fun _ hx => absurd hx List.not_mem_nil
  · refine ⟨_, _, rfl, ?_, ?_⟩
    · exact continues_head (v / 64 % 0x20 + 0xc0) (by omega) (by omega)
    · exact List.forall_mem_singleton.mpr (htail v)
  · refine ⟨_, _, rfl, ?_, ?_⟩
    · exact continues_head (v / 4096 % 0x10 + 0xe0) (by omega) (by omega)
    · exact List.forall_mem_cons.mpr ⟨htail (v / 64), List.forall_mem_singleton.mpr (htail v)⟩
  · refine ⟨_, _, rfl, ?_, ?_⟩
    · exact continues_head (v / 262144 % 0x08 + 0xf0) (by omega) (by omega)
    · exact List.forall_mem_cons.mpr ⟨htail (v / 4096),
        List.forall_mem_cons.mpr ⟨htail (v / 64), List.forall_mem_singleton.mpr (htail v)⟩⟩

theorem length_utf8_take_le (cs : List Char) (k : ℕ) :
    (utf8 (cs.take k)).length ≤ (utf8 cs).length := by
  conv_rhs => rw [← List.take_append_drop k cs, utf8_append, List.length_append]
  omega

theorem length_utf8_take_mono (cs : List Char) {j k : ℕ} (h : j ≤ k) :
    (utf8 (cs.take j)).length ≤ (utf8 (cs.take k)).length := by
  have := length_utf8_take_le (cs.take k) j
  rwa [List.take_take, Nat.min_eq_left h] at this

theorem take_utf8 (cs : List Char) (k : ℕ) :
    (utf8 cs).take (utf8 (cs.take k)).length = utf8 (cs.take k) := by
  conv_lhs => rw [← List.take_append_drop k cs, utf8_append]
  rw [List.take_append_drop, List.take_left]

/-- Within a string the boundaries are the bytes that continue nothing. -/
theorem isBoundary_iff (cs : List Char) {i : ℕ} (hi : i < (utf8 cs).length) :
    IsBoundary cs i ↔ (utf8 cs)[i]?.any continues = false := by
  induction cs generalizing i with
  | nil => simp at hi
  | cons c cs ih =>
    obtain ⟨b, bs, hbytes, hfirst, hrest⟩ := encodeChar_bytes c
    have hcut (k : ℕ) : (utf8 ((c :: cs).take (k + 1))).length =
        (String.utf8EncodeChar c).length + (utf8 (cs.take k)).length := by
      rw [List.take_succ_cons, utf8_cons, List.length_append]
    rw [utf8_cons] at hi ⊢
    rcases Nat.lt_or_ge i (String.utf8EncodeChar c).length with hlt | hge
    · rw [List.getElem?_append_left hlt]
      cases i with
      | zero =>
        rw [hbytes]
        simp only [List.getElem?_cons_zero, Option.any_some, hfirst, iff_true]
        exact ⟨0, rfl⟩
      | succ i =>
        have hmem : (String.utf8EncodeChar c)[i + 1]?.any continues = true := by
          rw [hbytes] at hlt ⊢
          have hlt' : i < bs.length := by simpa using hlt
          rw [List.getElem?_cons_succ, List.getElem?_eq_getElem hlt', Option.any_some]
          exact hrest _ (List.getElem_mem hlt')
        rw [hmem]
        simp only [Bool.true_eq_false, iff_false]
        rintro ⟨k, hk⟩
        cases k with
        | zero => simp at hk
        | succ k =>
          rw [hcut] at hk
          omega
    · rw [List.getElem?_append_right hge, ← ih (by rw [List.length_append] at hi; omega)]
      constructor
      · rintro ⟨k, hk⟩
        cases k with
        | zero =>
          have hpos : 0 < (String.utf8EncodeChar c).length := by rw [hbytes]; simp
          simp at hk
          omega
        | succ k =>
          rw [hcut] at hk
          exact ⟨k, by omega⟩
      · rintro ⟨k, hk⟩
        exact ⟨k + 1, by rw [hcut]; omega⟩

theorem backToBoundary_spec (cs : List Char) {n : ℕ} (hn : n < (utf8 cs).length) :
    IsBoundary cs (backToBoundary (utf8 cs) n) ∧ backToBoundary (utf8 cs) n ≤ n ∧
      ∀ i, IsBoundary cs i → i ≤ n → i ≤ backToBoundary (utf8 cs) n := by
  induction n with
  | zero => exact ⟨⟨0, rfl⟩, le_rfl, fun _ _ h => h⟩
  | succ n ih =>
    have hboundary := isBoundary_iff cs hn
    rw [backToBoundary]
    split_ifs with hcontinues
    · obtain ⟨hfound, hle, hlast⟩ := ih (by omega)
      refine ⟨hfound, by omega, ?_⟩
      intro i hi hin
      apply hlast i hi
      have hne : i ≠ n + 1 := by
        rintro rfl
        rw [hboundary.mp hi] at hcontinues
        exact absurd hcontinues (by decide)
      omega
    · exact ⟨hboundary.mpr (by simpa using hcontinues), le_rfl, fun _ _ h => h⟩

theorem take_backToBoundary (cs : List Char) {n : ℕ} (hn : n < (utf8 cs).length) :
    LongestWithin cs n ((utf8 cs).take (backToBoundary (utf8 cs) n)) := by
  obtain ⟨⟨k, hk⟩, hle, hlast⟩ := backToBoundary_spec cs hn
  rw [← hk] at hle hlast ⊢
  rw [take_utf8]
  exact ⟨⟨k, rfl⟩, hle, fun j hj => hlast _ ⟨j, rfl⟩ hj⟩

theorem LongestWithin.whole {cs : List Char} {n : ℕ} (h : (utf8 cs).length ≤ n) :
    LongestWithin cs n (utf8 cs) :=
  ⟨⟨cs.length, by rw [List.take_length]⟩, h, fun k _ => length_utf8_take_le cs k⟩

theorem LongestWithin.trans {cs : List Char} {l l' k : ℕ} {t : List UInt8}
    (h : LongestWithin cs l (utf8 (cs.take k))) (h' : LongestWithin (cs.take k) l' t) :
    LongestWithin cs (min l l') t := by
  obtain ⟨j, rfl⟩ := h'.isPrefix
  have hle := h'.fits
  have hwithin := length_utf8_take_le (cs.take k) j
  have hfits := h.fits
  refine ⟨⟨min j k, by rw [List.take_take]⟩, by omega, ?_⟩
  intro i hi
  have hcut := h.longest i (by omega)
  rcases Nat.le_total i k with hik | hik
  · have := h'.longest i
    rw [List.take_take, Nat.min_eq_left hik] at this
    exact this (by omega)
  · have hmono := length_utf8_take_mono cs hik
    have := h'.longest k
    rw [List.take_take, Nat.min_self] at this
    have := this (by omega)
    omega

end Unicode
