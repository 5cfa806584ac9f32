import Mathlib.Order.Bounds.Defs
import IW4x.Gdk.Format

/-!
# The local user ID

The ID is minted once and kept in a file as a hexadecimal number. What is read back is at most 32
bytes of the file, less the prefix, up to the first character that is no digit.
-/

namespace IW4x.Gdk

open RawMemory Numerals Hex

def charsOf (s : Bytes) : List Ch := s.map UInt8.toBitVec

def xuidText (m : Mem) (v : Unsigned 8) : Except Contract Bytes :=
  textOf m 19 (by decide) braces [.hex ⟨v, 16⟩]

/-- `std::from_chars` for an unsigned integer of 64 bits, to the base 16; `none` where it fails. -/
def fromChars (s : Bytes) : Option (Unsigned 8) :=
  let t := Integers.leadingRun (charsOf s)
  if t = [] then none
  else if Integers.numeral t < 2 ^ 64 then some (BitVec.ofNat _ (Integers.numeral t))
  else none

/-- `file::read` of so many bytes from the content that is left. The answers are those of `ReadFile`,
a number of bytes or a failure; after them every call reads what there is. -/
def readFile : List (Option ℕ) → Bytes → ℕ → Option Bytes
  | _, _, 0 => some []
  | [], data, n + 1 => if n + 1 ≤ data.length then some (data.take (n + 1)) else none
  | none :: _, _, _ + 1 => none
  | some r :: answers, data, n + 1 =>
    let k := min r (min (min (n + 1) 0x10000000) data.length)
    if k = 0 then none
    else (readFile answers (data.drop k) (n + 1 - k)).map (data.take k ++ ·)

/-- How the calls of the file system end. -/
structure FileEnv where
  opens : Bool := true
  sizes : Bool := true
  /-- The answers of `ReadFile` or `WriteFile`. -/
  answers : List (Option ℕ) := []

def xuidShape : Unsigned 8 := 0x0009000000000000

/-- `random_identity`, with what `BCryptGenRandom` gives. -/
def randomIdentity (random : Option (Unsigned 8)) : Option (Unsigned 8) :=
  random.map fun v => xuidShape ||| (v &&& 0x0000FFFFFFFFFFFF)

/-- `mint_identity`, for the file of the identity: what it leaves and the ID, if it raises nothing. -/
def mintIdentity (m : Mem) (fs : FileSystem) (p : Wide) (random : Option (Unsigned 8))
    (env : FileEnv) : Except Contract (FileSystem × Option (Unsigned 8)) :=
  match randomIdentity random with
  | none => .ok (fs, none)
  | some v => do
    let s ← xuidText m v
    match fs.createAlways p env.opens with
    | none => return (fs, none)
    | some fs =>
      let r := writeFile env.answers s
      return (fs.put p r.1, if r.2 then some v else none)

/-- What `read_identity` makes of the bytes that it read. -/
def parseIdentity (b : Bytes) : Option (Unsigned 8) :=
  let s := if ascii "0x" <+: b ∨ ascii "0X" <+: b then b.drop 2 else b
  match fromChars s with
  | none => none
  | some r => if r = 0 then none else some r

def readIdentity (fs : FileSystem) (p : Wide) (env : FileEnv) : Option (Unsigned 8) :=
  match fs.openRead p env.opens with
  | some (some data) =>
    if env.sizes = false ∨ data.length = 0 then none
    else
      let n := if data.length > 32 then 32 else data.length
      match readFile env.answers data n with
      | none => none
      | some b => parseIdentity b
  | _ => none

/-! ## What is read -/

theorem readFile_eq {answers : List (Option ℕ)} {data b : Bytes} {n : ℕ}
    (h : readFile answers data n = some b) : b = data.take n := by
  induction answers generalizing data n b with
  | nil =>
    cases n with
    | zero => simpa [readFile] using h.symm
    | succ n =>
      simp only [readFile] at h
      split_ifs at h
      exact (Option.some.inj h).symm
  | cons a answers ih =>
    cases n with
    | zero => simpa [readFile] using h.symm
    | succ n =>
      cases a with
      | none => simp [readFile] at h
      | some r =>
        simp only [readFile] at h
        split_ifs at h with hzero
        obtain ⟨rest, hrest, rfl⟩ := Option.map_eq_some_iff.mp h
        rw [ih hrest]
        generalize hk : min r (min (min (n + 1) 268435456) data.length) = k
        have hn : n + 1 = k + (n + 1 - k) := by omega
        conv_rhs => rw [hn, List.take_add]

/-! ## The digits of a number -/

def upperDigits : Bytes := ascii "0123456789ABCDEF"

theorem upper_digit : ∀ d < 16, UInt8.ofBitVec (hexAlphabet .upper d) ∈ upperDigits := by decide

theorem shortest_isLeast (v : ℕ) : IsLeast {k | 1 ≤ k ∧ v < 16 ^ k} (shortest v) := by
  constructor
  · exact ⟨Nat.succ_pos _, Nat.lt_pow_succ_log_self (by norm_num) v⟩
  · rintro k ⟨hpos, hlt⟩
    have := Nat.log_lt_of_lt_pow' (b := 16) (by omega) hlt
    exact this

/-- The digits that are written for a number, and what they are worth. -/
theorem hex_digits (v : HexNumber) : ∃ ds, v.text = ascii "0x" ++ ds ∧ ds.length = v.digits ∧
    (∀ x ∈ ds, x ∈ upperDigits) ∧ (∀ x ∈ charsOf ds, hexDigitP x = true) ∧
    Integers.numeral (charsOf ds) = v.value.toNat := by
  have hlt {d : ℕ} (hd : d ∈ lowDigits 16 v.digits v.value.toNat) : d < 16 :=
    lowDigits_lt (by norm_num) hd
  have hchars : charsOf (bytesOf ((lowDigits 16 v.digits v.value.toNat).map (hexAlphabet .upper))) =
      Integers.digitsFrom .upper v.digits v.value := by
    rw [Integers.digitsFrom_eq (by norm_num), charsOf, bytesOf, List.map_map]
    exact List.map_id _
  refine ⟨_, rfl, by simp [bytesOf], ?_, ?_, ?_⟩
  · intro x hx
    rw [bytesOf, List.map_map] at hx
    obtain ⟨d, hd, rfl⟩ := List.mem_map.mp hx
    exact upper_digit d (hlt hd)
  · rw [hchars]
    exact Integers.digitsFrom_digits (by norm_num)
  · have hvalue := (shortest_isLeast v.value.toNat).1.2
    have hpow : 16 ^ shortest v.value.toNat ≤ 16 ^ v.digits :=
      Nat.pow_le_pow_right (by norm_num) (le_max_left _ _)
    rw [hchars, Integers.numeral_digitsFrom (by norm_num)]
    exact Nat.mod_eq_of_lt (lt_of_lt_of_le hvalue hpow)

theorem formatted_xuid (v : Unsigned 8) :
    formatted braces [.hex ⟨v, 16⟩] = HexNumber.text ⟨v, 16⟩ :=
  formatted_last (f := []) (by decide) (.hex ⟨v, 16⟩)

theorem xuidText_eq (m : Mem) (v : Unsigned 8) :
    xuidText m v = .ok (HexNumber.text ⟨v, 16⟩) ∧ (HexNumber.text ⟨v, 16⟩).length = 18 := by
  obtain ⟨ds, htext, hdigits, -⟩ := hex_digits ⟨v, 16⟩
  have hsixteen : HexNumber.digits ⟨v, 16⟩ = 16 := by
    have := shortest_le v
    simp only [HexNumber.digits]
    omega
  have hlength : (HexNumber.text ⟨v, 16⟩).length = 18 := by
    rw [htext, List.length_append, hdigits, hsixteen]
    rfl
  refine ⟨?_, hlength⟩
  rw [xuidText, textOf_eq m (by decide) (by norm_num), formatted_xuid, text,
    List.take_of_length_le (by rw [hlength])]

theorem fromChars_digits {ds : Bytes} (hne : ds ≠ [])
    (hdigits : ∀ x ∈ charsOf ds, hexDigitP x = true) {v : Unsigned 8}
    (hv : Integers.numeral (charsOf ds) = v.toNat) : fromChars ds = some v := by
  have hrun : Integers.leadingRun (charsOf ds) = charsOf ds := List.takeWhile_eq_self_iff.mpr hdigits
  have hlt : v.toNat < 2 ^ 64 := v.isLt
  have hchars : charsOf ds ≠ [] := by simpa [charsOf] using hne
  rw [fromChars, hrun, if_neg hchars, hv, if_pos hlt]
  simp

theorem parseIdentity_text {v : Unsigned 8} (hv : v ≠ 0) :
    parseIdentity (HexNumber.text ⟨v, 16⟩) = some v := by
  obtain ⟨ds, htext, hlength, -, hdigits, hvalue⟩ := hex_digits ⟨v, 16⟩
  have hne : ds ≠ [] := by
    intro hnil
    have hpos : 0 < HexNumber.digits ⟨v, 16⟩ :=
      lt_of_lt_of_le (Nat.succ_pos _) (le_max_left _ _)
    rw [hnil, List.length_nil] at hlength
    omega
  have hdrop : (ascii "0x" ++ ds).drop 2 = ds := rfl
  rw [parseIdentity, htext, if_pos (.inl (List.prefix_append _ _)), hdrop,
    fromChars_digits hne hdigits hvalue]
  exact if_neg hv

theorem readIdentity_text {fs : FileSystem} {p : Wide} {env : FileEnv} {v : Unsigned 8} (hv : v ≠ 0)
    (hopen : fs.openRead p env.opens = some (some (HexNumber.text ⟨v, 16⟩)))
    (hsizes : env.sizes = true)
    (hread : readFile env.answers (HexNumber.text ⟨v, 16⟩) 18 ≠ none) :
    readIdentity fs p env = some v := by
  have hlength := (xuidText_eq (fun _ => 0) v).2
  obtain ⟨b, hb⟩ := Option.ne_none_iff_exists'.mp hread
  have hall := readFile_eq hb
  rw [List.take_of_length_le (by rw [hlength])] at hall
  subst hall
  simp only [readIdentity, hopen, hsizes, hlength]
  simp [hb, parseIdentity_text hv]

/-- An ID that is minted is read back from the file that it leaves. -/
theorem mintIdentity_read {m : Mem} {fs fs' : FileSystem} {p : Wide} {random : Option (Unsigned 8)}
    {env env' : FileEnv} {v : Unsigned 8} (h : mintIdentity m fs p random env = .ok (fs', some v))
    (hopens : env'.opens = true) (hsizes : env'.sizes = true)
    (hread : readFile env'.answers (HexNumber.text ⟨v, 16⟩) 18 ≠ none) :
    readIdentity fs' p env' = some v := by
  cases random with
  | none =>
    have := (Prod.mk.inj (Except.ok.inj h)).2
    exact absurd this (by simp)
  | some r =>
    simp only [mintIdentity, randomIdentity, Option.map_some] at h
    have hne : xuidShape ||| (r &&& 0x0000FFFFFFFFFFFF) ≠ 0 := by
      intro hzero
      exact absurd (BitVec.or_eq_zero_iff.mp hzero).1 (by decide)
    generalize xuidShape ||| (r &&& 0x0000FFFFFFFFFFFF) = u at h hne
    rw [(xuidText_eq m u).1] at h
    cases hcreate : fs.createAlways p env.opens with
    | none =>
      rw [hcreate] at h
      have := (Prod.mk.inj (Except.ok.inj h)).2
      exact absurd this (by simp)
    | some fs₁ =>
      rw [hcreate] at h
      obtain ⟨hfiles, hid⟩ := Prod.mk.inj (Except.ok.inj h)
      obtain ⟨hmay, -, rfl⟩ := FileSystem.createAlways_eq_some hcreate
      by_cases hdone : (writeFile env.answers (HexNumber.text ⟨u, 16⟩)).2 = true
      · rw [if_pos hdone] at hid
        obtain rfl := Option.some.inj hid
        rw [writeFile_true hdone] at hfiles
        subst hfiles
        apply readIdentity_text hne _ hsizes hread
        simp [FileSystem.openRead, hmay, hopens]
      · rw [if_neg hdone] at hid
        exact absurd hid (by simp)

/-- The file of an ID gives the ID back, and a number is written with a prefix and as many digits in
upper case as it needs and its width asks for. -/
theorem identity_read_back :
    (∀ (m : Mem) (v : Unsigned 8), v ≠ 0 → ∃ s,
      xuidText m v = .ok s ∧ s = formatted braces [.hex ⟨v, 16⟩] ∧ s.length = 18 ∧
        ∀ (fs : FileSystem) (p : Wide) (env : FileEnv), fs.openRead p env.opens = some (some s) →
          env.sizes = true → readFile env.answers s s.length ≠ none →
            readIdentity fs p env = some v) ∧
    ∀ v : HexNumber, ∃ n ds, IsLeast {k | 1 ≤ k ∧ v.value.toNat < 16 ^ k} n ∧
      ds.length = max n (min v.width 16) ∧ (∀ x ∈ ds, x ∈ upperDigits) ∧
      Integers.numeral (charsOf ds) = v.value.toNat ∧
      ∀ {b c m t w}, Carries b c m t w → t.length + (2 + ds.length) ≤ c - 1 →
        ∃ w', w.writeHex v = .ok w' ∧ w'.view = t ++ (ascii "0x" ++ ds) ∧ w'.whole = true := by
  constructor
  · intro m v hv
    obtain ⟨htext, hlength⟩ := xuidText_eq m v
    refine ⟨_, htext, (formatted_xuid v).symm, hlength, ?_⟩
    intro fs p env hopen hsizes hread
    exact readIdentity_text hv hopen hsizes (hlength ▸ hread)
  · intro v
    obtain ⟨ds, htext, hlength, hupper, -, hvalue⟩ := hex_digits v
    refine ⟨_, ds, shortest_isLeast _, hlength, hupper, hvalue, ?_⟩
    intro b c m t w h hroom
    obtain ⟨w', hwrite, hcarries⟩ := TextWriter.writeValue_carries h (.hex v)
    have hwhole : (t ++ v.text).length ≤ c - 1 := by
      rw [htext, List.length_append, List.length_append]
      exact hroom
    refine ⟨w', hwrite, ?_, hcarries.whole.mpr hwhole⟩
    rw [← htext]
    exact hcarries.view.trans (List.take_of_length_le hwhole)

theorem identity_read_back_one : ∃ s, xuidText (fun _ => 0) 1 = .ok s ∧
    readIdentity (FileSystem.put ⟨fun _ => none, fun _ => false⟩ (wide "identity") s)
      (wide "identity") {} = some 1 := by
  obtain ⟨s, htext, -, hlength, hread⟩ := identity_read_back.1 (fun _ => 0) 1 (by decide)
  refine ⟨s, htext, hread _ _ {} ?_ rfl ?_⟩
  · have hmay : (FileSystem.put ⟨fun _ => none, fun _ => false⟩ (wide "identity") s).mayOpen
        (wide "identity") = true := by
      rw [FileSystem.put_mayOpen]
      decide
    simp [FileSystem.openRead, hmay]
  · rw [hlength]
    simp [readFile, hlength]

end IW4x.Gdk
