import IW4x.Hex.Encode

/-!
# Decoding

The parser recovers the number of octets from the length of the text and then reads every character
where the style has it. It looks at the digits only at the end, through one accumulated octet. What
it accepts is the reference text, in whichever case its digits are.
-/

namespace IW4x.Hex

/-- The two characters are the digits of an octet. -/
def SpellsOctet (o : Octet) (h l : Ch) : Prop :=
  IsDigit (highNibble o) h ∧ IsDigit (lowNibble o) l

/-- Adjacent pairs of digits and nothing else. -/
def Pairs : List Octet → List Ch → Prop
  | [], t => t = []
  | o :: b, t => ∃ h l rest, t = h :: l :: rest ∧ SpellsOctet o h l ∧ Pairs b rest

/-- The text of the octets from the `i`-th on, up to the case of its digits. -/
def Spells (s : HexStyle) : ℕ → List Octet → List Ch → Prop
  | _, [], t => t = []
  | i, o :: b, t =>
    ∃ h l rest, t = s.before i ++ h :: l :: rest ∧ SpellsOctet o h l ∧ Spells s (i + 1) b rest

/-- The reference text of the octets, up to the case of its digits and of the `x` of its prefix. -/
def Encodes (s : HexStyle) (b : List Octet) (t : List Ch) : Prop :=
  ∃ rest, Spells s 0 b rest ∧
    if s.prefixed then t = ch '0' :: ch 'x' :: rest ∨ t = ch '0' :: ch 'X' :: rest else t = rest

/-- The characters of a string, which are no more than a `ptrdiff_t` can count. -/
structure Text where
  chars : List Ch
  bounded : chars.length < 2 ^ 63

/-! ## The parser -/

/-- `hex_decode_from`: the octets, the text that is left and the accumulated octet. -/
def hexDecodeFrom (p : List Ch) (n : ℕ) (bad : BitVec 8) :
    Except Contract (List Octet × List Ch × BitVec 8) :=
  match n, p with
  | 0, p => .ok ([], p, bad)
  | n + 1, c₀ :: c₁ :: p => do
    let h := hexValue c₀
    let l := hexValue c₁
    let (b, p, bad) ← hexDecodeFrom p n (bad ||| h ||| l)
    return (((h <<< 4) ||| (l &&& 0x0f)) :: b, p, bad)
  | _ + 1, _ => .error .range

inductive GroupsRead where
  /-- A character that is not the separator, at `stop`. -/
  | invalid (stop : List Ch)
  | read (b : List Octet) (p : List Ch) (bad : BitVec 8)
  deriving DecidableEq

/-- The loop over the groups in `from_hex_chars`, with the passes of `encodeGroups`. -/
def decodeGroups (s : HexStyle) : ℕ → List Ch → ℕ → BitVec 8 → Except Contract GroupsRead
  | 0, p, _, bad => .ok (.read [] p bad)
  | passes + 1, p, n, bad =>
    if n = 0 then .ok (.read [] p bad)
    else do
      let k := min s.group.toNat n
      let (b, p, bad) ← hexDecodeFrom p k bad
      if n - k = 0 then return .read b p bad
      match p with
      | [] => .error .range
      | c :: rest =>
        if c ≠ s.separator then return .invalid p
        match ← decodeGroups s passes rest (n - k) bad with
        | .invalid stop => return .invalid stop
        | .read b' p bad => return .read (b ++ b') p bad

inductive FromChars where
  | invalid (stop : List Ch)
  /-- The octets, and the text from the pointer that is returned. -/
  | read (b : List Octet) (p : List Ch)
  deriving DecidableEq

/-- The prefix in `from_hex_chars`: the text after it, or none. -/
def readPrefix (s : HexStyle) (text : List Ch) : Except Contract (Option (List Ch)) :=
  if s.prefixed then
    match text with
    | [] => .error .range
    | c₀ :: p =>
      if c₀ ≠ ch '0' then .ok none
      else match p with
        | [] => .error .range
        | c₁ :: p => .ok (if c₁ ≠ ch 'x' ∧ c₁ ≠ ch 'X' then none else some p)
  else .ok (some text)

/-- The digits and separators in `from_hex_chars`. -/
def readGroups (s : HexStyle) (p : List Ch) (n : ℕ) : Except Contract GroupsRead :=
  if s.separator = 0 then do
    let (b, p, bad) ← hexDecodeFrom p n 0
    return .read b p bad
  else decodeGroups s n p n 0

def fromHexChars (text : List Ch) (n : ℕ) (s : HexStyle) : Except Contract FromChars := do
  require .precondition (s.valid = true)
  let need ← hexEncodedSize n s
  if text.length < need then return .invalid text
  match ← readPrefix s text with
  | none => return .invalid text
  | some p =>
    match ← readGroups s p n with
    | .invalid stop => return .invalid stop
    | .read b p bad =>
      if hexAccumulatedInvalid bad then return .invalid text
      require .assertion (text.length - p.length = need)
      return .read b p

/-- The number of octets in `n` characters, in `decode`. -/
def octetCount (s : HexStyle) (n : ℕ) : Option ℕ :=
  if s.separator = 0 then some (n / 2)
  else
    let g := s.group.toNat
    let unit := 2 * g + 1
    let c := (n + 1) / unit * g
    let rem := (n + 1) % unit
    if rem ≠ 0 then
      if rem % 2 = 0 then none else some (c + (rem - 1) / 2)
    else some c

def decode (t : List Ch) (s : HexStyle) : Except Contract (Option (List Octet)) := do
  require .precondition (s.valid = true)
  if s.prefixed ∧ t.length < 2 then return none
  let n := if s.prefixed then t.length - 2 else t.length
  match octetCount s n with
  | none => return none
  | some c =>
    if (← hexEncodedSize c s) ≠ t.length then return none
    match ← fromHexChars t c s with
    | .invalid _ => return none
    | .read b p =>
      require .assertion (p = [])
      return some b

def tryHexDecode (t : List Ch) (s : HexStyle) : Except Contract (Option (List Octet)) := decode t s

/-! ## Digits -/

theorem accumulated_iff : ∀ v : BitVec 8, hexAccumulatedInvalid v = false ↔ v.toNat < 16 := by
  decide +kernel

theorem accumulated_or (v w : BitVec 8) :
    hexAccumulatedInvalid (v ||| w) = false ↔
      hexAccumulatedInvalid v = false ∧ hexAccumulatedInvalid w = false := by
  have hleft : v.toNat ≤ v.toNat ||| w.toNat := Nat.left_le_or
  have hright : w.toNat ≤ v.toNat ||| w.toNat := Nat.right_le_or
  simp only [accumulated_iff, BitVec.toNat_or]
  constructor
  · intro h
    omega
  · rintro ⟨hv, hw⟩
    exact Nat.or_lt_two_pow (n := 4) hv hw

theorem join_nibbles {h l : BitVec 8} (hh : h.toNat < 16) (hl : l.toNat < 16) :
    ((h <<< 4) ||| (l &&& 0x0f)).toNat = h.toNat * 16 + l.toNat := by
  have hlow : (l &&& 0x0f).toNat = l.toNat := by
    rw [BitVec.toNat_and]
    exact land_full hl
  have hhigh : (h <<< 4).toNat = h.toNat <<< 4 := by
    rw [BitVec.toNat_shiftLeft, Nat.shiftLeft_eq]
    exact Nat.mod_eq_of_lt (by omega)
  rw [BitVec.toNat_or, hlow, hhigh, ← Nat.shiftLeft_add_eq_or_of_lt (i := 4) hl, Nat.shiftLeft_eq]

theorem spellsOctet_iff (o : Octet) (c₀ c₁ : Ch) :
    SpellsOctet o c₀ c₁ ↔
      hexAccumulatedInvalid (hexValue c₀ ||| hexValue c₁) = false ∧
        o = (hexValue c₀ <<< 4) ||| (hexValue c₁ &&& 0x0f) := by
  have ho := o.isLt
  rw [SpellsOctet, isDigit_iff (highNibble_lt o), isDigit_iff (lowNibble_lt o), accumulated_or,
    accumulated_iff, accumulated_iff]
  constructor
  · rintro ⟨hhigh, hlow⟩
    have hh : (hexValue c₀).toNat < 16 := hhigh ▸ highNibble_lt o
    have hl : (hexValue c₁).toNat < 16 := hlow ▸ lowNibble_lt o
    refine ⟨⟨hh, hl⟩, BitVec.eq_of_toNat_eq ?_⟩
    rw [join_nibbles hh hl, hhigh, hlow, highNibble, lowNibble]
    omega
  · rintro ⟨⟨hh, hl⟩, heq⟩
    have hjoin := join_nibbles hh hl
    rw [← heq] at hjoin
    simp only [highNibble, lowNibble]
    omega

/-! ## The grammar -/

variable {s : HexStyle}

theorem Pairs.length {b : List Octet} {t : List Ch} (h : Pairs b t) : t.length = 2 * b.length := by
  induction b generalizing t with
  | nil => simp [show t = [] from h]
  | cons o b ih =>
    obtain ⟨h, l, rest, rfl, -, hrest⟩ := h
    simp only [List.length_cons, ih hrest]
    omega

theorem spells_append (i : ℕ) (a b : List Octet) (t : List Ch) :
    Spells s i (a ++ b) t ↔
      ∃ t₁ t₂, t = t₁ ++ t₂ ∧ Spells s i a t₁ ∧ Spells s (i + a.length) b t₂ := by
  induction a generalizing i t with
  | nil => simp [Spells]
  | cons o a ih =>
    have hi : i + 1 + a.length = i + (o :: a).length := by
      rw [List.length_cons]
      omega
    simp only [List.cons_append, Spells, ih, hi]
    constructor
    · rintro ⟨h, l, _, rfl, ho, t₁, t₂, rfl, ha, hb⟩
      exact ⟨s.before i ++ h :: l :: t₁, t₂, by simp, ⟨h, l, t₁, rfl, ho, ha⟩, hb⟩
    · rintro ⟨_, t₂, rfl, ⟨h, l, t₁, rfl, ho, ha⟩, hb⟩
      exact ⟨h, l, t₁ ++ t₂, by simp, ho, t₁, t₂, rfl, ha, hb⟩

theorem Spells.length {i : ℕ} {b : List Octet} {t : List Ch} (h : Spells s i b t) :
    t.length = (referenceFrom s i b).length := by
  induction b generalizing i t with
  | nil => simp [show t = [] from h, referenceFrom]
  | cons o b ih =>
    obtain ⟨h, l, rest, rfl, -, hrest⟩ := h
    simp [referenceFrom, ih hrest]

theorem spells_plain (hseparator : s.separator = 0) (i : ℕ) (b : List Octet) (t : List Ch) :
    Spells s i b t ↔ Pairs b t := by
  induction b generalizing i t with
  | nil => rfl
  | cons o b ih => simp [Spells, Pairs, HexStyle.before, hseparator, ih]

theorem spells_inside {i : ℕ} (hi : 0 < i % s.group.toNat) {b : List Octet} {t : List Ch}
    (room : i % s.group.toNat + b.length ≤ s.group.toNat) : Spells s i b t ↔ Pairs b t := by
  induction b generalizing i t with
  | nil => rfl
  | cons o b ih =>
    have hbefore : s.before i = [] := by
      simp [HexStyle.before, hi.ne']
    rw [List.length_cons] at room
    simp only [Spells, Pairs, hbefore, List.nil_append]
    cases b with
    | nil => rfl
    | cons o' b =>
      rw [List.length_cons] at room
      have hnext : (i + 1) % s.group.toNat = i % s.group.toNat + 1 := by
        rw [Nat.add_mod, Nat.mod_eq_of_lt (b := s.group.toNat) (by omega : 1 < _)]
        exact Nat.mod_eq_of_lt (by omega)
      have hroom : (i + 1) % s.group.toNat + (o' :: b).length ≤ s.group.toNat := by
        rw [hnext, List.length_cons]
        omega
      have hpos : 0 < (i + 1) % s.group.toNat := by omega
      simp only [ih hpos hroom]

/-- A whole group that begins at octet `i`. -/
theorem spells_group {i : ℕ} (hi : i % s.group.toNat = 0) {b : List Octet} (hb : b ≠ [])
    (room : b.length ≤ s.group.toNat) (t : List Ch) :
    Spells s i b t ↔ ∃ rest, t = s.before i ++ rest ∧ Pairs b rest := by
  cases b with
  | nil => exact absurd rfl hb
  | cons o b =>
    have htail : ∀ rest, Spells s (i + 1) b rest ↔ Pairs b rest := by
      intro rest
      cases b with
      | nil => rfl
      | cons o' b =>
        simp only [List.length_cons] at room
        have hnext : (i + 1) % s.group.toNat = 1 := by
          rw [Nat.add_mod, hi, Nat.mod_eq_of_lt (b := s.group.toNat) (by omega : 1 < _),
            Nat.zero_add]
          exact Nat.mod_eq_of_lt (by omega)
        have hroom : (i + 1) % s.group.toNat + (o' :: b).length ≤ s.group.toNat := by
          rw [hnext, List.length_cons]
          omega
        exact spells_inside (by omega) hroom
    simp only [Spells, Pairs, htail]
    constructor
    · rintro ⟨h, l, rest, rfl, ho, hrest⟩
      exact ⟨h :: l :: rest, rfl, h, l, rest, rfl, ho, hrest⟩
    · rintro ⟨_, rfl, h, l, rest, rfl, ho, hrest⟩
      exact ⟨h, l, rest, rfl, ho, hrest⟩

theorem spells_reference (i : ℕ) (b : List Octet) : Spells s i b (referenceFrom s i b) := by
  induction b generalizing i with
  | nil => rfl
  | cons o b ih =>
    exact ⟨_, _, _, rfl, ⟨isDigit_alphabet _ _, isDigit_alphabet _ _⟩, ih (i + 1)⟩

theorem encodes_reference (s : HexStyle) (b : List Octet) : Encodes s b (reference s b) := by
  refine ⟨referenceFrom s 0 b, spells_reference 0 b, ?_⟩
  cases h0x : s.prefixed with
  | false => simp [reference, h0x]
  | true => simp [reference, h0x]

theorem Encodes.length (hs : s.valid = true) {b : List Octet} {t : List Ch} (h : Encodes s b t) :
    t.length = s.size b.length := by
  obtain ⟨rest, hspells, htext⟩ := h
  have hrest := hspells.length.trans (referenceFrom_length hs b)
  rw [HexStyle.size]
  split_ifs at htext with h0x
  · simp only [h0x, if_true, ← hrest]
    rcases htext with rfl | rfl <;> rfl
  · simp only [h0x, Bool.false_eq_true, if_false, htext, hrest, Nat.add_zero]

/-! ## What the parser reads -/

/-- Reading `n` octets reads as many pairs of characters; the accumulated octet stays clean exactly
when they are digits, and then the octets are those they spell. -/
theorem hexDecodeFrom_spec {n : ℕ} {q : List Ch} (hq : q.length = 2 * n) (rest : List Ch)
    (bad : BitVec 8) :
    ∃ b bad', hexDecodeFrom (q ++ rest) n bad = .ok (b, rest, bad') ∧ ∀ b',
      (b = b' ∧ hexAccumulatedInvalid bad' = false ↔
        hexAccumulatedInvalid bad = false ∧ b'.length = n ∧ Pairs b' q) := by
  induction n generalizing q bad with
  | zero =>
    obtain rfl := List.eq_nil_of_length_eq_zero hq
    refine ⟨[], bad, by simp [hexDecodeFrom], ?_⟩
    intro b'
    constructor
    · rintro ⟨rfl, hbad⟩
      exact ⟨hbad, rfl, rfl⟩
    · rintro ⟨hbad, hlength, -⟩
      exact ⟨(List.eq_nil_of_length_eq_zero hlength).symm, hbad⟩
  | succ n ih =>
    obtain ⟨c₀, c₁, q, rfl⟩ : ∃ c₀ c₁ q', q = c₀ :: c₁ :: q' := by
      match q, hq with
      | c₀ :: c₁ :: q, _ => exact ⟨c₀, c₁, q, rfl⟩
    have hlength : q.length = 2 * n := by
      simp only [List.length_cons] at hq
      omega
    obtain ⟨b, bad', hrun, hb⟩ := ih hlength (bad ||| hexValue c₀ ||| hexValue c₁)
    refine ⟨((hexValue c₀ <<< 4) ||| (hexValue c₁ &&& 0x0f)) :: b, bad', ?_, ?_⟩
    · simp only [List.cons_append, hexDecodeFrom, hrun]
      rfl
    · intro b'
      cases b' with
      | nil => simp
      | cons o b' =>
        have htail := hb b'
        rw [BitVec.or_assoc, accumulated_or] at htail
        have hocc := spellsOctet_iff o c₀ c₁
        simp only [List.cons.injEq, List.length_cons, Nat.add_right_cancel_iff, Pairs]
        constructor
        · rintro ⟨⟨ho, rfl⟩, hbad⟩
          obtain ⟨⟨hclean, hvalues⟩, hn, hpairs⟩ := htail.mp ⟨rfl, hbad⟩
          exact ⟨hclean, hn, c₀, c₁, q, ⟨rfl, rfl, rfl⟩, hocc.mpr ⟨hvalues, ho.symm⟩, hpairs⟩
        · rintro ⟨hclean, hn, _, _, _, ⟨rfl, rfl, rfl⟩, hspells, hpairs⟩
          obtain ⟨hvalues, ho⟩ := hocc.mp hspells
          obtain ⟨rfl, hbad⟩ := htail.mpr ⟨⟨hclean, hvalues⟩, hn, hpairs⟩
          exact ⟨⟨ho.symm, rfl⟩, hbad⟩

/-- More than a group: the first group, the separator and what follows. -/
theorem spells_groups (hseparator : s.separator ≠ 0) (hgroup : 0 < s.group.toNat) {i n : ℕ}
    (hi : i % s.group.toNat = 0) (hn : s.group.toNat < n) {q rest : List Ch} {c : Ch}
    (hq : q.length = 2 * s.group.toNat) (b : List Octet) :
    (b.length = n ∧ Spells s i b (s.before i ++ (q ++ c :: rest))) ↔
      c = s.separator ∧ ∃ b₁ b₂, b = b₁ ++ b₂ ∧ b₁.length = s.group.toNat ∧ Pairs b₁ q ∧
        b₂.length = n - s.group.toNat ∧
          Spells s (i + s.group.toNat) b₂ (s.before (i + s.group.toNat) ++ rest) := by
  have hnext : (i + s.group.toNat) % s.group.toNat = 0 := by
    rw [Nat.add_mod_right, hi]
  have hbefore : s.before (i + s.group.toNat) = [s.separator] :=
    if_pos ⟨hseparator, by omega, hnext⟩
  constructor
  · rintro ⟨hlength, hspells⟩
    obtain ⟨b₁, b₂, rfl, hb₁, hb₂⟩ : ∃ b₁ b₂, b = b₁ ++ b₂ ∧
        b₁.length = s.group.toNat ∧ b₂.length = n - s.group.toNat := by
      refine ⟨b.take s.group.toNat, b.drop s.group.toNat, ?_, ?_, ?_⟩
      · rw [List.take_append_drop]
      · rw [List.length_take]
        omega
      · rw [List.length_drop, hlength]
    have hne : b₁ ≠ [] := List.ne_nil_of_length_pos (by omega)
    rw [spells_append, hb₁] at hspells
    obtain ⟨t₁, t₂, htext, hfirst, hlast⟩ := hspells
    obtain ⟨q', rfl, hpairs⟩ := (spells_group hi hne hb₁.le t₁).mp hfirst
    rw [List.append_assoc, List.append_cancel_left_eq] at htext
    obtain ⟨rfl, rfl⟩ := List.append_inj htext (by rw [hq, hpairs.length, hb₁])
    -- The rest begins with its separator.
    cases b₂ with
    | nil =>
      rw [List.length_nil] at hb₂
      omega
    | cons o b₂ =>
      have hstart := hlast
      obtain ⟨h, l, rest', htail, -⟩ := hstart
      rw [hbefore, List.singleton_append, List.cons.injEq] at htail
      obtain ⟨rfl, -⟩ := htail
      rw [hbefore]
      exact ⟨rfl, b₁, o :: b₂, rfl, hb₁, hpairs, hb₂, hlast⟩
  · rintro ⟨rfl, b₁, b₂, rfl, hb₁, hpairs, hb₂, hlast⟩
    have hne : b₁ ≠ [] := List.ne_nil_of_length_pos (by omega)
    refine ⟨?_, ?_⟩
    · rw [List.length_append, hb₁, hb₂]
      omega
    · rw [spells_append, hb₁]
      have hfirst := (spells_group hi hne hb₁.le (s.before i ++ q)).mpr ⟨q, rfl, hpairs⟩
      rw [hbefore] at hlast
      exact ⟨_, _, by simp, hfirst, hlast⟩

/-- The loop over the groups reads `n` octets where the style has them. -/
theorem decodeGroups_spec (hseparator : s.separator ≠ 0) (hgroup : 0 < s.group.toNat)
    {passes i n : ℕ} (hi : i % s.group.toNat = 0) (hpasses : n ≤ passes) (hn : 0 < n)
    {q : List Ch} (hq : q.length = 2 * n + (n - 1) / s.group.toNat) (rest : List Ch)
    (bad : BitVec 8) :
    ∃ r, decodeGroups s passes (q ++ rest) n bad = .ok r ∧
      (∀ b p bad', r = .read b p bad' → p = rest) ∧ ∀ b',
        ((∃ p bad', r = .read b' p bad' ∧ hexAccumulatedInvalid bad' = false) ↔
          hexAccumulatedInvalid bad = false ∧ b'.length = n ∧ Spells s i b' (s.before i ++ q)) := by
  induction passes generalizing i n q bad with
  | zero => omega
  | succ passes ih =>
    by_cases hlast : n ≤ s.group.toNat
    · -- The last group.
      have hdiv : (n - 1) / s.group.toNat = 0 := Nat.div_eq_of_lt (by omega)
      rw [hdiv, Nat.add_zero] at hq
      obtain ⟨b, bad', hrun, hb⟩ := hexDecodeFrom_spec hq rest bad
      refine ⟨.read b rest bad', ?_, ?_, ?_⟩
      · have hmin : min s.group.toNat n = n := min_eq_right hlast
        simp only [decodeGroups, hn.ne', hmin, hrun, bind, Except.bind]
        simp [pure, Except.pure]
      · rintro _ _ _ ⟨⟩
        rfl
      · intro b'
        have hspells : b'.length = n ∧ Pairs b' q ↔
            b'.length = n ∧ Spells s i b' (s.before i ++ q) := by
          refine and_congr_right fun hlength => ?_
          rw [spells_group hi (List.ne_nil_of_length_pos (by omega)) (by omega)]
          simp
        rw [← hspells, ← hb b']
        constructor
        · rintro ⟨_, _, ⟨⟩, hbad⟩
          exact ⟨rfl, hbad⟩
        · rintro ⟨rfl, hbad⟩
          exact ⟨_, _, rfl, hbad⟩
    · -- A full group and more to come.
      rw [Nat.not_le] at hlast
      have hdiv : (n - 1) / s.group.toNat = (n - s.group.toNat - 1) / s.group.toNat + 1 := by
        rw [← Nat.add_div_right _ hgroup]
        congr 1
        omega
      obtain ⟨q₁, c, q₂, rfl, hq₁⟩ : ∃ q₁ c q₂, q = q₁ ++ c :: q₂ ∧
          q₁.length = 2 * s.group.toNat := by
        have hlt : 2 * s.group.toNat < q.length := by
          rw [hq]
          exact Nat.lt_add_right _ (by omega)
        refine ⟨q.take (2 * s.group.toNat), q[2 * s.group.toNat],
          q.drop (2 * s.group.toNat + 1), ?_, ?_⟩
        · rw [← List.drop_eq_getElem_cons hlt, List.take_append_drop]
        · rw [List.length_take]
          omega
      have hq₂ : q₂.length = 2 * (n - s.group.toNat) +
          (n - s.group.toNat - 1) / s.group.toNat := by
        rw [List.length_append, List.length_cons, hq₁] at hq
        omega
      have hnext : (i + s.group.toNat) % s.group.toNat = 0 := by
        rw [Nat.add_mod_right, hi]
      obtain ⟨b₁, bad₁, hrun₁, hb₁⟩ := hexDecodeFrom_spec hq₁ (c :: (q₂ ++ rest)) bad
      have hmin : min s.group.toNat n = s.group.toNat := min_eq_left hlast.le
      have hleft : n - s.group.toNat ≠ 0 := by omega
      have hstep : decodeGroups s (passes + 1) ((q₁ ++ c :: q₂) ++ rest) n bad =
          if c ≠ s.separator then .ok (.invalid (c :: (q₂ ++ rest)))
          else do
            match ← decodeGroups s passes (q₂ ++ rest) (n - s.group.toNat) bad₁ with
            | .invalid stop => return .invalid stop
            | .read b' p bad => return .read (b₁ ++ b') p bad := by
        rw [List.append_assoc, List.cons_append]
        simp only [decodeGroups, hn.ne', hmin, hrun₁, hleft, if_false, bind, Except.bind]
        rfl
      rw [hstep]
      by_cases hc : c = s.separator
      · have hpasses₂ : n - s.group.toNat ≤ passes := by omega
        have hn₂ : 0 < n - s.group.toNat := by omega
        obtain ⟨r, hrun, hrest, hr⟩ := ih hnext hpasses₂ hn₂ hq₂ bad₁
        rw [if_neg (not_not.mpr hc), hrun]
        cases r with
        | invalid stop =>
          refine ⟨.invalid stop, rfl, ?_, ?_⟩
          · rintro _ _ _ ⟨⟩
          · intro b'
            rw [spells_groups hseparator hgroup hi hlast hq₁]
            constructor
            · rintro ⟨_, _, ⟨⟩, -⟩
            · rintro ⟨hbad, -, b₁', b₂', rfl, hlength₁, hpairs, hlength₂, hspells⟩
              obtain ⟨rfl, hbad₁⟩ := (hb₁ b₁').mpr ⟨hbad, hlength₁, hpairs⟩
              obtain ⟨_, _, ⟨⟩, -⟩ := (hr b₂').mpr ⟨hbad₁, hlength₂, hspells⟩
        | read b₂ p bad₂ =>
          refine ⟨.read (b₁ ++ b₂) p bad₂, rfl, ?_, ?_⟩
          · rintro _ _ _ ⟨⟩
            exact hrest _ _ _ rfl
          · intro b'
            rw [spells_groups hseparator hgroup hi hlast hq₁]
            constructor
            · rintro ⟨_, _, ⟨⟩, hbad₂⟩
              obtain ⟨hbad₁, hlength₂, hspells⟩ := (hr b₂).mp ⟨_, _, rfl, hbad₂⟩
              obtain ⟨hbad, hlength₁, hpairs⟩ := (hb₁ b₁).mp ⟨rfl, hbad₁⟩
              exact ⟨hbad, hc, b₁, b₂, rfl, hlength₁, hpairs, hlength₂, hspells⟩
            · rintro ⟨hbad, -, b₁', b₂', rfl, hlength₁, hpairs, hlength₂, hspells⟩
              obtain ⟨rfl, hbad₁⟩ := (hb₁ b₁').mpr ⟨hbad, hlength₁, hpairs⟩
              obtain ⟨_, _, ⟨⟩, hbad₂⟩ := (hr b₂').mpr ⟨hbad₁, hlength₂, hspells⟩
              exact ⟨_, _, rfl, hbad₂⟩
      · refine ⟨.invalid (c :: (q₂ ++ rest)), if_pos hc, ?_, ?_⟩
        · rintro _ _ _ ⟨⟩
        · intro b'
          rw [spells_groups hseparator hgroup hi hlast hq₁]
          constructor
          · rintro ⟨_, _, ⟨⟩, -⟩
          · rintro ⟨-, heq, -⟩
            exact absurd heq hc

theorem readGroups_spec (hs : s.valid = true) {n : ℕ} {q : List Ch}
    (hq : q.length = n * 2 + if s.separator = 0 then 0 else (n - 1) / s.group.toNat) :
    ∃ r, readGroups s q n = .ok r ∧ (∀ b p bad, r = .read b p bad → p = []) ∧ ∀ b,
      ((∃ p bad, r = .read b p bad ∧ hexAccumulatedInvalid bad = false) ↔
        b.length = n ∧ Spells s 0 b q) := by
  have hclean : hexAccumulatedInvalid 0 = false := by decide
  by_cases hseparator : s.separator = 0
  · rw [if_pos hseparator, Nat.add_zero, Nat.mul_comm] at hq
    obtain ⟨b, bad, hrun, hb⟩ := hexDecodeFrom_spec hq [] 0
    rw [List.append_nil] at hrun
    refine ⟨.read b [] bad, ?_, ?_, ?_⟩
    · simp only [readGroups, hseparator, if_true, hrun]
      rfl
    · rintro _ _ _ ⟨⟩
      rfl
    · intro b'
      have hread := hb b'
      rw [hclean] at hread
      simp only [spells_plain hseparator]
      constructor
      · rintro ⟨_, _, ⟨⟩, hbad⟩
        exact (hread.mp ⟨rfl, hbad⟩).2
      · rintro hpairs
        obtain ⟨rfl, hbad⟩ := hread.mpr ⟨rfl, hpairs⟩
        exact ⟨_, _, rfl, hbad⟩
  · rw [if_neg hseparator] at hq
    have hgroup := valid_group hs hseparator
    rcases Nat.eq_zero_or_pos n with rfl | hn
    · have hnil : q = [] := by
        apply List.eq_nil_of_length_eq_zero
        simpa using hq
      refine ⟨.read [] [] 0, ?_, ?_, ?_⟩
      · rw [readGroups, if_neg hseparator, hnil]
        rfl
      · rintro _ _ _ ⟨⟩
        rfl
      · intro b
        constructor
        · rintro ⟨_, _, ⟨⟩, -⟩
          exact ⟨rfl, hnil⟩
        · rintro ⟨hlength, -⟩
          obtain rfl := List.eq_nil_of_length_eq_zero hlength
          exact ⟨_, _, rfl, hclean⟩
    · have hbefore : s.before 0 = [] := by simp [HexStyle.before]
      obtain ⟨r, hrun, hrest, hr⟩ := decodeGroups_spec hseparator hgroup (Nat.zero_mod _)
        (Nat.le_refl n) hn (by rw [hq, Nat.mul_comm]) [] 0
      rw [List.append_nil] at hrun
      refine ⟨r, ?_, hrest, ?_⟩
      · rw [readGroups, if_neg hseparator, hrun]
      · intro b
        rw [hr b, hbefore, List.nil_append]
        simp only [hclean, true_and]

theorem readPrefix_spec {t : List Ch} (ht : s.prefixed = true → 2 ≤ t.length) :
    ∃ r, readPrefix s t = .ok r ∧ ∀ rest, r = some rest ↔
      if s.prefixed then t = ch '0' :: ch 'x' :: rest ∨ t = ch '0' :: ch 'X' :: rest
      else t = rest := by
  cases h0x : s.prefixed with
  | false => exact ⟨some t, by simp [readPrefix, h0x], by simp⟩
  | true =>
    match t, ht h0x with
    | c₀ :: c₁ :: p, _ =>
      by_cases hzero : c₀ = ch '0'
      · by_cases hx : c₁ = ch 'x' ∨ c₁ = ch 'X'
        · refine ⟨some p, ?_, ?_⟩
          · have hnot : ¬ (c₁ ≠ ch 'x' ∧ c₁ ≠ ch 'X') := by tauto
            simp [readPrefix, h0x, hzero, hnot]
          · intro rest
            rcases hx with rfl | rfl <;> simp [hzero]
        · refine ⟨none, ?_, ?_⟩
          · have hand : c₁ ≠ ch 'x' ∧ c₁ ≠ ch 'X' := by tauto
            simp [readPrefix, h0x, hzero, hand]
          · intro rest
            simp only [List.cons.injEq, if_true]
            tauto
      · exact ⟨none, by simp [readPrefix, h0x, hzero], by simp [hzero]⟩

/-- `from_hex_chars` on a text of exactly the size its count asks for. -/
theorem fromHexChars_spec (hs : s.valid = true) {n : ℕ} (hn : n ≤ (sizeMax - 2) / 3) {t : List Ch}
    (ht : t.length = s.size n) :
    ∃ r, fromHexChars t n s = .ok r ∧ (∀ b p, r = .read b p → p = []) ∧
      ∀ b, (∃ p, r = .read b p) ↔ b.length = n ∧ Encodes s b t := by
  have hsize := (hexEncodedSize_eq hs hn).1
  have hshort : ¬ t.length < s.size n := by omega
  have htwo : s.prefixed = true → 2 ≤ t.length := by
    intro h0x
    rw [ht, HexStyle.size, h0x]
    simp
  obtain ⟨lead, hlead, hrest⟩ := readPrefix_spec htwo
  cases lead with
  | none =>
    refine ⟨.invalid t, ?_, ?_, ?_⟩
    · simp only [fromHexChars, require_of hs, hsize, hshort, hlead, if_false, bind, Except.bind]
      rfl
    · rintro _ _ ⟨⟩
    · intro b
      constructor
      · rintro ⟨_, ⟨⟩⟩
      · rintro ⟨-, rest, -, htext⟩
        exact absurd ((hrest rest).mpr htext) (by simp)
  | some q =>
    have htext := (hrest q).mp rfl
    have hq : q.length = n * 2 + if s.separator = 0 then 0 else (n - 1) / s.group.toNat := by
      rw [HexStyle.size] at ht
      cases h0x : s.prefixed with
      | false =>
        simp only [h0x, Bool.false_eq_true, if_false, Nat.add_zero] at ht htext
        rw [← htext, ht]
      | true =>
        simp only [h0x, if_true] at ht htext
        have hlength : t.length = q.length + 2 := by
          rcases htext with rfl | rfl <;> rfl
        omega
    have hencodes : ∀ b, Encodes s b t ↔ Spells s 0 b q := by
      intro b
      constructor
      · rintro ⟨rest, hspells, htext⟩
        obtain rfl : q = rest := Option.some.inj ((hrest rest).mpr htext)
        exact hspells
      · intro hspells
        exact ⟨q, hspells, htext⟩
    obtain ⟨groups, hrun, hend, hgroups⟩ := readGroups_spec hs hq
    simp only [← hencodes] at hgroups
    cases groups with
    | invalid stop =>
      refine ⟨.invalid stop, ?_, ?_, ?_⟩
      · simp only [fromHexChars, require_of hs, hsize, hshort, hlead, hrun, if_false, bind,
          Except.bind]
        rfl
      · rintro _ _ ⟨⟩
      · intro b
        rw [← hgroups b]
        constructor
        · rintro ⟨_, ⟨⟩⟩
        · rintro ⟨_, _, ⟨⟩, -⟩
    | read b p bad =>
      obtain rfl := hend _ _ _ rfl
      cases hbad : hexAccumulatedInvalid bad with
      | true =>
        refine ⟨.invalid t, ?_, ?_, ?_⟩
        · simp only [fromHexChars, require_of hs, hsize, hshort, hlead, hrun, hbad, if_false,
            if_true, bind, Except.bind]
          rfl
        · rintro _ _ ⟨⟩
        · intro b'
          rw [← hgroups b']
          constructor
          · rintro ⟨_, ⟨⟩⟩
          · rintro ⟨_, _, ⟨⟩, hclean⟩
            simp [hbad] at hclean
      | false =>
        have hneed : t.length - ([] : List Ch).length = s.size n := by
          rw [List.length_nil, ht, Nat.sub_zero]
        refine ⟨.read b [], ?_, ?_, ?_⟩
        · simp only [fromHexChars, require_of hs, hsize, hshort, hlead, hrun, hbad, if_false,
            require_of hneed, Bool.false_eq_true, bind, Except.bind]
          rfl
        · rintro _ _ ⟨⟩
          rfl
        · intro b'
          rw [← hgroups b']
          constructor
          · rintro ⟨_, ⟨⟩⟩
            exact ⟨_, _, rfl, hbad⟩
          · rintro ⟨_, _, ⟨⟩, -⟩
            exact ⟨_, rfl⟩

/-! ## The octet count -/

theorem octetCount_groups (hseparator : s.separator ≠ 0) (n : ℕ) :
    octetCount s n =
      if (n + 1) % (2 * s.group.toNat + 1) = 0 then
        some ((n + 1) / (2 * s.group.toNat + 1) * s.group.toNat)
      else if (n + 1) % (2 * s.group.toNat + 1) % 2 = 0 then none
      else some ((n + 1) / (2 * s.group.toNat + 1) * s.group.toNat +
        ((n + 1) % (2 * s.group.toNat + 1) - 1) / 2) := by
  rw [octetCount, if_neg hseparator]
  exact ite_not ..

/-- The characters of `n` octets, less the prefix, give the count away. -/
theorem octetCount_body (hs : s.valid = true) (n : ℕ) :
    octetCount s (n * 2 + if s.separator = 0 then 0 else (n - 1) / s.group.toNat) = some n := by
  by_cases hseparator : s.separator = 0
  · simp [octetCount, hseparator]
  · have hgroup := valid_group hs hseparator
    rw [if_neg hseparator, octetCount_groups hseparator]
    generalize s.group.toNat = g at hgroup
    rcases Nat.eq_zero_or_pos n with rfl | hn
    · have hone : 1 < 2 * g + 1 := by omega
      simp [Nat.div_eq_of_lt hone, Nat.mod_eq_of_lt hone]
    · -- `n` octets are `q` groups that are followed by a separator, and `r + 1` octets.
      have hdiv := Nat.div_add_mod (n - 1) g
      have hr := Nat.mod_lt (n - 1) hgroup
      generalize (n - 1) / g = q at hdiv
      generalize (n - 1) % g = r at hdiv hr
      have hlength : n * 2 + q + 1 = (2 * r + 3) + (2 * g + 1) * q := by
        have hmul : (2 * g + 1) * q = 2 * (g * q) + q := by ring
        omega
      rw [hlength, Nat.add_mul_div_left _ _ (Nat.succ_pos _), Nat.add_mul_mod_self_left]
      by_cases hfull : r + 1 = g
      · have hunit : 2 * r + 3 = 2 * g + 1 := by omega
        have hcount : (1 + q) * g = n := by
          have hmul : (1 + q) * g = g * q + g := by ring
          omega
        simp [hunit, hcount]
      · have hlt : 2 * r + 3 < 2 * g + 1 := by omega
        have hcount : (0 + q) * g + (2 * r + 3 - 1) / 2 = n := by
          have hmul : (0 + q) * g = g * q := by ring
          omega
        have hodd : (2 * r + 3) % 2 ≠ 0 := by omega
        simp only [Nat.div_eq_of_lt hlt, Nat.mod_eq_of_lt hlt, hodd, hcount, if_false]
        simp

theorem octetCount_le {n c : ℕ} (hn : n < 2 ^ 63) (h : octetCount s n = some c) :
    c ≤ (sizeMax - 2) / 3 := by
  have hhalf : 2 * c ≤ n := by
    by_cases hseparator : s.separator = 0
    · simp only [octetCount, hseparator, if_true, Option.some.injEq] at h
      omega
    · rw [octetCount_groups hseparator] at h
      have hdiv := Nat.div_add_mod (n + 1) (2 * s.group.toNat + 1)
      generalize (n + 1) / (2 * s.group.toNat + 1) = q at h hdiv
      generalize (n + 1) % (2 * s.group.toNat + 1) = r at h hdiv
      have hmul : (2 * s.group.toNat + 1) * q = 2 * (q * s.group.toNat) + q := by ring
      have hzero : q = 0 → q * s.group.toNat = 0 := by
        rintro rfl
        exact Nat.zero_mul _
      split_ifs at h with hrem <;> simp only [Option.some.injEq] at h <;> omega
  simp only [sizeMax]
  omega

theorem octetCount_size (hs : s.valid = true) {n length : ℕ} (h : s.size n = length) :
    octetCount s (if s.prefixed then length - 2 else length) = some n := by
  have hbody := octetCount_body hs n
  rw [HexStyle.size] at h
  split_ifs with h0x
  · rw [h0x, if_pos rfl] at h
    rw [← h, Nat.add_sub_cancel, hbody]
  · rw [if_neg h0x, Nat.add_zero] at h
    rw [← h, hbody]

/-- `decode` on any text that a `ptrdiff_t` can count. -/
theorem decode_spec (hs : s.valid = true) {t : List Ch} (hbounded : t.length < 2 ^ 63) :
    ∃ r, decode t s = .ok r ∧ ∀ b, r = some b ↔ Encodes s b t := by
  have hlength : ∀ b, Encodes s b t → s.size b.length = t.length :=
    fun b h => (h.length hs).symm
  by_cases hshort : s.prefixed = true ∧ t.length < 2
  · refine ⟨none, ?_, ?_⟩
    · simp only [decode, require_of hs, hshort, bind, Except.bind]
      rfl
    · intro b
      constructor
      · rintro ⟨⟩
      · intro h
        have hsize := hlength b h
        rw [HexStyle.size, hshort.1, if_pos rfl] at hsize
        omega
  · generalize hcount : octetCount s (if s.prefixed then t.length - 2 else t.length) = count
    cases count with
    | none =>
      refine ⟨none, ?_, ?_⟩
      · simp only [decode, require_of hs, hshort, hcount, if_false, bind, Except.bind]
        rfl
      · intro b
        constructor
        · rintro ⟨⟩
        · intro h
          have hsome := octetCount_size hs (hlength b h)
          rw [hcount] at hsome
          cases hsome
    | some c =>
      have hc : c ≤ (sizeMax - 2) / 3 := by
        refine octetCount_le ?_ hcount
        split_ifs <;> omega
      have hsize := (hexEncodedSize_eq hs hc).1
      by_cases heq : s.size c = t.length
      · obtain ⟨r, hrun, hend, hr⟩ := fromHexChars_spec hs hc heq.symm
        have hread : ∀ b, (∃ p, r = .read b p) ↔ Encodes s b t := by
          intro b
          refine (hr b).trans (and_iff_right_of_imp fun h => ?_)
          have hsome := octetCount_size hs (hlength b h)
          rw [hcount, Option.some.injEq] at hsome
          exact hsome.symm
        have hsame : ¬ s.size c ≠ t.length := not_not.mpr heq
        cases r with
        | invalid stop =>
          refine ⟨none, ?_, ?_⟩
          · simp only [decode, require_of hs, hshort, hcount, hsize, hsame, hrun,
              if_false, bind, Except.bind]
            rfl
          · intro b
            rw [← hread b]
            constructor
            · rintro ⟨⟩
            · rintro ⟨_, ⟨⟩⟩
        | read b p =>
          have hp := hend b p rfl
          refine ⟨some b, ?_, ?_⟩
          · simp only [decode, require_of hs, hshort, hcount, hsize, hsame, hrun,
              require_of hp, if_false, bind, Except.bind]
            rfl
          · intro b'
            rw [← hread b']
            constructor
            · rintro ⟨⟩
              exact ⟨p, rfl⟩
            · rintro ⟨_, ⟨⟩⟩
              rfl
      · refine ⟨none, ?_, ?_⟩
        · have hne : s.size c ≠ t.length := heq
          simp only [decode, require_of hs, hshort, hcount, hsize, if_false, bind,
            Except.bind]
          exact if_pos hne
        · intro b
          constructor
          · rintro ⟨⟩
          · intro h
            have hsome := octetCount_size hs (hlength b h)
            rw [hcount, Option.some.injEq] at hsome
            exact absurd (hsome ▸ hlength b h) heq

/-- Decoding accepts the reference texts and no others, and none of its checks fails. -/
theorem tryHexDecode_iff {s : HexStyle} (hs : s.valid = true) (t : Text) :
    ∃ r, tryHexDecode t.chars s = .ok r ∧
      (∀ b, r = some b ↔ Encodes s b t.chars) ∧
      (∀ tgt b, hexEncode tgt b s = .ok t.chars → r = some b) ∧
      ∀ n, s.size n = t.chars.length →
        octetCount s (if s.prefixed then t.chars.length - 2 else t.chars.length) = some n := by
  obtain ⟨r, hrun, hr⟩ := decode_spec hs t.bounded
  refine ⟨r, hrun, hr, ?_, fun n hn => octetCount_size hs hn⟩
  intro tgt b hencode
  rw [hr b, hexEncode_ok hs hencode]
  exact encodes_reference s b

/-- A separator that is itself a digit, and digits of both cases. -/
theorem tryHexDecode_iff_ambiguous :
    Encodes { separator := ch 'a', group := 2 } [0xde, 0xad, 0xaa, 0xef]
      ("dEaDaAaeF".toList.map ch) := by
  obtain ⟨r, hrun, hr, -⟩ := tryHexDecode_iff (s := { separator := ch 'a', group := 2 })
    (by decide) ⟨"dEaDaAaeF".toList.map ch, by decide⟩
  have hdecode : tryHexDecode ("dEaDaAaeF".toList.map ch) { separator := ch 'a', group := 2 } =
      .ok (some [0xde, 0xad, 0xaa, 0xef]) := by
    decide
  rw [hdecode, Except.ok.injEq] at hrun
  exact (hr _).mp hrun.symm

end IW4x.Hex
