import Mathlib.Data.List.TakeWhile
import IW4x.Hex.Decode

/-!
# Relaxed decoding

The relaxed parser drops a prefix, counts the digits and hands the text to a second parser, which
drops a prefix of its own and skips ignored characters as it goes. Both agree on the texts that are
pairs of digits with ignored characters around them.
-/

namespace IW4x.Hex

/-- The prefix at the start of both functions. -/
def dropPrefix : List Ch → List Ch
  | c₀ :: c₁ :: p => if c₀ = ch '0' ∧ (c₁ = ch 'x' ∨ c₁ = ch 'X') then p else c₀ :: c₁ :: p
  | p => p

/-- The loop of `from_hex_chars_relaxed`, `n` octets from the end. -/
def relaxedPairs (ignored : List Ch) : ℕ → List Ch → FromChars
  | 0, p => .read [] p
  | n + 1, p =>
    let p := p.dropWhile (ignored.contains ·)
    match p with
    | c₀ :: c₁ :: rest =>
      let h := hexValue c₀
      let l := hexValue c₁
      if hexAccumulatedInvalid (h ||| l) then .invalid p
      else match relaxedPairs ignored n rest with
        | .invalid stop => .invalid stop
        | .read b p => .read (((h <<< 4) ||| l) :: b) p
    | p => .invalid p

def fromHexCharsRelaxed (p : List Ch) (n : ℕ) (ignored : List Ch) : FromChars :=
  relaxedPairs ignored n (dropPrefix p)

/-- The first loop of `try_hex_decode_relaxed`: the digits from `d` on, or none past a character
that is neither a digit nor ignored. -/
def countDigits (ignored : List Ch) : ℕ → List Ch → Option ℕ
  | d, [] => some d
  | d, c :: p =>
    if hexDigitP c then countDigits ignored (d + 1) p
    else if ignored.contains c then countDigits ignored d p
    else none

def tryHexDecodeRelaxed (t ignored : List Ch) : Except Contract (Option (List Octet)) := do
  let p := dropPrefix t
  match countDigits ignored 0 p with
  | none => return none
  | some d =>
    if d % 2 ≠ 0 then return none
    match fromHexCharsRelaxed p (d / 2) ignored with
    | .invalid _ => return none
    | .read b p =>
      require .assertion (∀ c ∈ p, ignored.contains c = true)
      return some b

/-- Adjacent pairs of digits, and ignored characters before, between and after them. -/
inductive Relaxed (ignored : List Ch) : List Octet → List Ch → Prop where
  | done : Relaxed ignored [] []
  | skip {c : Ch} {b : List Octet} {t : List Ch} :
      c ∈ ignored → Relaxed ignored b t → Relaxed ignored b (c :: t)
  | pair {o : Octet} {h l : Ch} {b : List Octet} {t : List Ch} :
      SpellsOctet o h l → Relaxed ignored b t → Relaxed ignored (o :: b) (h :: l :: t)

/-- `t` less at most one leading `0x` or `0X`. -/
def Dropped (t rest : List Ch) : Prop :=
  rest = t ∨ t = ch '0' :: ch 'x' :: rest ∨ t = ch '0' :: ch 'X' :: rest

/-! ## The two scans -/

variable {ignored : List Ch}

theorem IsDigit.digit {n : ℕ} (hn : n < 16) {c : Ch} (h : IsDigit n c) : hexDigitP c = true := by
  rw [hexDigitP_iff, (isDigit_iff hn c).mp h]
  exact hn

theorem SpellsOctet.digits {o : Octet} {h l : Ch} (ho : SpellsOctet o h l) :
    hexDigitP h = true ∧ hexDigitP l = true :=
  ⟨ho.1.digit (highNibble_lt o), ho.2.digit (lowNibble_lt o)⟩

theorem spellsOctet_relaxed (o : Octet) (c₀ c₁ : Ch) :
    SpellsOctet o c₀ c₁ ↔
      hexAccumulatedInvalid (hexValue c₀ ||| hexValue c₁) = false ∧
        o = (hexValue c₀ <<< 4) ||| hexValue c₁ := by
  rw [spellsOctet_iff]
  refine and_congr_right fun hclean => ?_
  have hl : (hexValue c₁).toNat < 16 := (accumulated_iff _).mp ((accumulated_or _ _).mp hclean).2
  have hmask : hexValue c₁ &&& 0x0f = hexValue c₁ := by
    apply BitVec.eq_of_toNat_eq
    rw [BitVec.toNat_and]
    exact land_full hl
  rw [hmask]

theorem countDigits_eq (d : ℕ) (p : List Ch) :
    countDigits ignored d p =
      if ∀ c ∈ p, hexDigitP c = true ∨ c ∈ ignored then some (d + p.countP hexDigitP)
      else none := by
  induction p generalizing d with
  | nil => simp [countDigits]
  | cons c p ih =>
    simp only [countDigits, ih, List.forall_mem_cons, List.countP_cons, List.contains_iff_mem]
    by_cases hdigit : hexDigitP c = true
    · simp [hdigit, Nat.add_assoc, Nat.add_comm 1]
    · by_cases hc : c ∈ ignored
      · simp [hdigit, hc]
      · simp [hdigit, hc]

theorem Relaxed.scan (hplain : ∀ c ∈ ignored, hexDigitP c = false) {b : List Octet} {t : List Ch}
    (h : Relaxed ignored b t) :
    (∀ c ∈ t, hexDigitP c = true ∨ c ∈ ignored) ∧ t.countP hexDigitP = 2 * b.length := by
  induction h with
  | done => simp
  | @skip c b t hc _ ih =>
    have hnot := hplain c hc
    simp [hc, hnot, ih.2]
    exact fun c hc => ih.1 c hc
  | @pair o h l b t ho _ ih =>
    obtain ⟨hh, hl⟩ := ho.digits
    refine ⟨?_, ?_⟩
    · simp only [List.forall_mem_cons]
      exact ⟨.inl hh, .inl hl, ih.1⟩
    · simp only [List.countP_cons, hh, hl, ih.2, List.length_cons, if_true]
      omega

/-- It is read in full, up to ignored characters. -/
theorem Relaxed.read (hplain : ∀ c ∈ ignored, hexDigitP c = false) {b : List Octet} {t : List Ch}
    (h : Relaxed ignored b t) :
    ∃ p, relaxedPairs ignored b.length t = .read b p ∧ ∀ c ∈ p, c ∈ ignored := by
  induction h with
  | done => exact ⟨[], rfl, by simp⟩
  | @skip c b t hc h ih =>
    obtain ⟨p, hread, hp⟩ := ih
    cases b with
    | nil =>
      obtain ⟨-, rfl⟩ : True ∧ t = p := by simpa [relaxedPairs] using hread
      exact ⟨c :: t, rfl, by simpa [hc] using hp⟩
    | cons o b =>
      refine ⟨p, ?_, hp⟩
      rw [← hread]
      simp [relaxedPairs, hc]
  | @pair o h l b t ho _ ih =>
    obtain ⟨p, hread, hp⟩ := ih
    obtain ⟨hclean, hocc⟩ := (spellsOctet_relaxed o h l).mp ho
    have hnot : h ∉ ignored := by
      intro hmem
      have := hplain h hmem
      simp [ho.digits.1] at this
    refine ⟨p, ?_, hp⟩
    simp [relaxedPairs, hnot, hclean, hread, hocc]

theorem relaxed_skip {u t : List Ch} {b : List Octet} (hu : ∀ c ∈ u, c ∈ ignored)
    (h : Relaxed ignored b t) : Relaxed ignored b (u ++ t) := by
  induction u with
  | nil => exact h
  | cons c u ih =>
    rw [List.forall_mem_cons] at hu
    exact .skip hu.1 (ih hu.2)

/-- What is read is a text of the grammar if only ignored characters are left of it, and every digit
before those is accounted for. -/
theorem relaxedPairs_read (hplain : ∀ c ∈ ignored, hexDigitP c = false) {n : ℕ} {t p : List Ch}
    {b : List Octet} (hread : relaxedPairs ignored n t = .read b p) :
    t.countP hexDigitP = 2 * n + p.countP hexDigitP ∧ (∀ c ∈ p, c ∈ t) ∧
      ((∀ c ∈ p, c ∈ ignored) → Relaxed ignored b t) := by
  induction n generalizing t b with
  | zero =>
    simp only [relaxedPairs, FromChars.read.injEq] at hread
    obtain ⟨rfl, rfl⟩ := hread
    refine ⟨by simp, by simp, ?_⟩
    intro hp
    simpa using relaxed_skip hp .done
  | succ n ih =>
    have hsplit := List.takeWhile_append_dropWhile (p := (ignored.contains ·)) (l := t)
    have hskipped : ∀ c ∈ t.takeWhile (ignored.contains ·), c ∈ ignored := by
      intro c hc
      simpa using List.mem_takeWhile_imp hc
    have hnone : (t.takeWhile (ignored.contains ·)).countP hexDigitP = 0 := by
      rw [List.countP_eq_zero]
      intro c hc
      simp [hplain c (hskipped c hc)]
    simp only [relaxedPairs] at hread
    generalize t.takeWhile (ignored.contains ·) = u at hsplit hskipped hnone
    generalize t.dropWhile (ignored.contains ·) = v at hsplit hread
    match v with
    | [] => cases hread
    | [c] => cases hread
    | h :: l :: rest =>
      simp only at hread
      split_ifs at hread with hbad
      cases hrest : relaxedPairs ignored n rest with
      | invalid stop =>
        rw [hrest] at hread
        cases hread
      | read b' p' =>
        rw [hrest] at hread
        obtain ⟨rfl, rfl⟩ : _ ∧ p' = p := by simpa using hread
        obtain ⟨hcount, hmem, hrelaxed⟩ := ih hrest
        have hocc := (spellsOctet_relaxed _ h l).mpr ⟨by simpa using hbad, rfl⟩
        obtain ⟨hh, hl⟩ := hocc.digits
        rw [← hsplit]
        refine ⟨?_, ?_, ?_⟩
        · rw [List.countP_append, hnone, List.countP_cons, List.countP_cons, hcount, hh, hl]
          simp only [if_true]
          omega
        · intro c hc
          simp [hmem c hc]
        · intro hp
          exact relaxed_skip hskipped (.pair hocc (hrelaxed hp))

/-! ## One prefix -/

theorem digit_zero : hexDigitP (ch '0') = true := by decide

theorem not_relaxed_zero_x (hplain : ∀ c ∈ ignored, hexDigitP c = false) {x : Ch}
    (hx : hexDigitP x = false) {b : List Octet} {t : List Ch} :
    ¬ Relaxed ignored b (ch '0' :: x :: t) := by
  intro h
  cases h with
  | skip hc _ =>
    have := hplain _ hc
    simp [digit_zero] at this
  | pair ho _ =>
    have := ho.digits.2
    simp [hx] at this

theorem dropPrefix_cases (t : List Ch) :
    dropPrefix t = t ∨ ∃ x, hexDigitP x = false ∧ t = ch '0' :: x :: dropPrefix t ∧
      (x = ch 'x' ∨ x = ch 'X') := by
  match t with
  | [] => exact .inl rfl
  | [c] => exact .inl rfl
  | c₀ :: c₁ :: p =>
    by_cases h : c₀ = ch '0' ∧ (c₁ = ch 'x' ∨ c₁ = ch 'X')
    · have hdrop : dropPrefix (c₀ :: c₁ :: p) = p := if_pos h
      rw [hdrop]
      obtain ⟨rfl, hx⟩ := h
      have hdigit : hexDigitP c₁ = false := by
        rcases hx with rfl | rfl <;> decide
      exact .inr ⟨c₁, hdigit, rfl, hx⟩
    · exact .inl (if_neg h)

theorem dropped_iff (hplain : ∀ c ∈ ignored, hexDigitP c = false) (b : List Octet) (t : List Ch) :
    (∃ rest, Dropped t rest ∧ Relaxed ignored b rest) ↔ Relaxed ignored b (dropPrefix t) := by
  constructor
  · rintro ⟨rest, rfl | rfl | rfl, h⟩
    · rcases dropPrefix_cases rest with hsame | ⟨x, hx, hrest, -⟩
      · rwa [hsame]
      · rw [hrest] at h
        exact absurd h (not_relaxed_zero_x hplain hx)
    · exact h
    · exact h
  · intro h
    refine ⟨dropPrefix t, ?_, h⟩
    rcases dropPrefix_cases t with hsame | ⟨x, -, ht, rfl | rfl⟩
    · exact .inl hsame
    · exact .inr (.inl ht)
    · exact .inr (.inr ht)

theorem fromHexCharsRelaxed_read (hplain : ∀ c ∈ ignored, hexDigitP c = false) {p p' : List Ch}
    {n : ℕ} (hn : p.countP hexDigitP = 2 * n) {b : List Octet}
    (h : fromHexCharsRelaxed p n ignored = .read b p') : relaxedPairs ignored n p = .read b p' := by
  rcases dropPrefix_cases p with hsame | ⟨x, hx, hp, -⟩
  · rwa [fromHexCharsRelaxed, hsame] at h
  · have hcount := (relaxedPairs_read hplain h).1
    rw [hp, List.countP_cons, List.countP_cons, digit_zero, hx] at hn
    simp only [if_true, Bool.false_eq_true, if_false] at hn
    omega

theorem Relaxed.read_again (hplain : ∀ c ∈ ignored, hexDigitP c = false) {b : List Octet}
    {p : List Ch} (h : Relaxed ignored b p) {n : ℕ} (hn : p.countP hexDigitP = 2 * n) :
    ∃ p', fromHexCharsRelaxed p n ignored = .read b p' := by
  have hlength : b.length = n := by
    have hscan := (h.scan hplain).2
    omega
  obtain ⟨p', hread, -⟩ := h.read hplain
  refine ⟨p', ?_⟩
  rcases dropPrefix_cases p with hsame | ⟨x, hx, hp, -⟩
  · rw [fromHexCharsRelaxed, hsame, ← hlength, hread]
  · rw [hp] at h
    exact absurd h (not_relaxed_zero_x hplain hx)

theorem Spells.relaxed {s : HexStyle} (hs : s.separator = 0 ∨ s.separator ∈ ignored) {i : ℕ}
    {b : List Octet} {t : List Ch} (h : Spells s i b t) : Relaxed ignored b t := by
  induction b generalizing i t with
  | nil =>
    obtain rfl : t = [] := h
    exact .done
  | cons o b ih =>
    obtain ⟨h, l, rest, rfl, ho, hrest⟩ := h
    have hbefore : ∀ c ∈ s.before i, c ∈ ignored := by
      intro c hc
      rw [HexStyle.before] at hc
      split_ifs at hc with hseparator
      · obtain rfl := List.mem_singleton.mp hc
        exact hs.resolve_left hseparator.1
      · cases hc
    exact relaxed_skip hbefore (.pair ho (ih hrest))

/-- The relaxed parser on a text without its prefix. -/
theorem tryHexDecodeRelaxed_spec (hplain : ∀ c ∈ ignored, hexDigitP c = false) (t : List Ch) :
    ∃ r, tryHexDecodeRelaxed t ignored = .ok r ∧
      ∀ b, r = some b ↔ Relaxed ignored b (dropPrefix t) := by
  generalize hp : dropPrefix t = p
  by_cases hscan : ∀ c ∈ p, hexDigitP c = true ∨ c ∈ ignored
  · have hcount : countDigits ignored 0 p = some (p.countP hexDigitP) := by
      rw [countDigits_eq, if_pos hscan, Nat.zero_add]
    by_cases hodd : p.countP hexDigitP % 2 ≠ 0
    · refine ⟨none, ?_, ?_⟩
      · simp only [tryHexDecodeRelaxed, hp, hcount]
        exact if_pos hodd
      · intro b
        constructor
        · rintro ⟨⟩
        · intro h
          have htwice := (h.scan hplain).2
          omega
    · have hn : p.countP hexDigitP = 2 * (p.countP hexDigitP / 2) := by omega
      generalize p.countP hexDigitP / 2 = n at hn
      have hhalf : p.countP hexDigitP / 2 = n := by omega
      cases hread : fromHexCharsRelaxed p n ignored with
      | invalid stop =>
        refine ⟨none, ?_, ?_⟩
        · simp only [tryHexDecodeRelaxed, hp, hcount, hodd, hhalf, hread, if_false]
          rfl
        · intro b
          constructor
          · rintro ⟨⟩
          · intro h
            obtain ⟨p', hp'⟩ := h.read_again hplain hn
            rw [hread] at hp'
            cases hp'
      | read b' p' =>
        obtain ⟨hdigits, hmem, hrelaxed⟩ :=
          relaxedPairs_read hplain (fromHexCharsRelaxed_read hplain hn hread)
        have hleft : ∀ c ∈ p', c ∈ ignored := by
          intro c hc
          have hzero : p'.countP hexDigitP = 0 := by omega
          have hnot := List.countP_eq_zero.mp hzero c hc
          exact (hscan c (hmem c hc)).resolve_left hnot
        have hcontains : ∀ c ∈ p', ignored.contains c = true := by
          intro c hc
          simpa using hleft c hc
        refine ⟨some b', ?_, ?_⟩
        · simp only [tryHexDecodeRelaxed, hp, hcount, hodd, hhalf, hread, require_of hcontains,
            if_false]
          rfl
        · intro b
          constructor
          · rintro ⟨⟩
            exact hrelaxed hleft
          · intro h
            obtain ⟨p'', hp''⟩ := h.read_again hplain hn
            rw [hread] at hp''
            cases hp''
            rfl
  · have hcount : countDigits ignored 0 p = none := by
      rw [countDigits_eq, if_neg hscan]
    refine ⟨none, ?_, ?_⟩
    · simp only [tryHexDecodeRelaxed, hp, hcount]
      rfl
    · intro b
      constructor
      · rintro ⟨⟩
      · intro h
        exact absurd (h.scan hplain).1 hscan

/-- Relaxed decoding accepts the pairs of digits with ignored characters around them, drops at most
one prefix, and its closing assertion holds. -/
theorem tryHexDecodeRelaxed_iff {ignored : List Ch} (hplain : ∀ c ∈ ignored, hexDigitP c = false)
    (t : List Ch) :
    ∃ r, tryHexDecodeRelaxed t ignored = .ok r ∧
      (∀ b, r = some b ↔ ∃ rest, Dropped t rest ∧ Relaxed ignored b rest) ∧
      ∀ tgt s b, s.valid = true → (s.separator = 0 ∨ s.separator ∈ ignored) →
        hexEncode tgt b s = .ok t → r = some b := by
  obtain ⟨r, hrun, hr⟩ := tryHexDecodeRelaxed_spec hplain t
  simp only [← dropped_iff hplain] at hr
  refine ⟨r, hrun, hr, ?_⟩
  intro tgt s b hs hseparator hencode
  rw [hr b]
  obtain ⟨rest, hspells, htext⟩ := encodes_reference s b
  rw [← hexEncode_ok hs hencode] at htext
  refine ⟨rest, ?_, hspells.relaxed hseparator⟩
  split_ifs at htext with h0x
  · exact .inr htext
  · exact .inl htext.symm

/-- Digits of both cases after a prefix, with separators of two kinds. -/
theorem tryHexDecodeRelaxed_iff_separated :
    Dropped ("0XdE:Ad be".toList.map ch) ("dE:Ad be".toList.map ch) ∧
      ∃ rest, Dropped ("0XdE:Ad be".toList.map ch) rest ∧
        Relaxed (" :".toList.map ch) [0xde, 0xad, 0xbe] rest := by
  have hplain : ∀ c ∈ " :".toList.map ch, hexDigitP c = false := by decide
  obtain ⟨r, hrun, hr, -⟩ := tryHexDecodeRelaxed_iff hplain ("0XdE:Ad be".toList.map ch)
  have hdecode : tryHexDecodeRelaxed ("0XdE:Ad be".toList.map ch) (" :".toList.map ch) =
      .ok (some [0xde, 0xad, 0xbe]) := by
    decide
  rw [hdecode, Except.ok.injEq] at hrun
  exact ⟨.inr (.inr rfl), (hr _).mp hrun.symm⟩

end IW4x.Hex
