import Mathlib.Data.List.ReduceOption
import IW4x.Gdk.Gamertag
import IW4x.Gdk.Identity

/-!
# The tokens of the player

A token is asked for on behalf of a service, and is begun where a claimant knows the service as its
own. It is the ID and the name of the player in plain text, and is answered in one buffer: four words,
of which two point at texts, and behind them the text of the token.
-/

namespace IW4x.Gdk

open RawMemory Unicode Hex

/-! ## The claimants -/

def E_NOTIMPL : HResult := 0x80004001

def maxClaimants : ℕ := 4

section

variable {P : Type*} [DecidableEq P]

/-- `serve`, with the claims that there are; `none` is the null pointer. -/
def serve (claims : List P) : Option P → List P
  | none => claims
  | some p =>
    if p ∈ claims then claims
    else if claims.length = maxClaimants then claims
    else claims ++ [p]

def served (accepts : P → Bytes → Bytes → Bool) (claims : List P) (method url : Bytes) : Bool :=
  claims.any fun p => accepts p method url

/-- What `get_token_and_signature_async` does. -/
inductive TokenStart where
  | raised (r : Raised)
  | answered (hr : HResult)
  | begun

/-- `get_token_and_signature_async`, for a handle that is the user's or is not, up to `begin`. -/
def getTokenAndSignatureAsync (accepts : P → Bytes → Bytes → Bool) (claims : List P) (user : Bool)
    (method url : Option Bytes) : TokenStart :=
  let m := cString (method.getD [])
  let x := cString (url.getD [])
  if user = false then .raised (raise E_INVALIDARG (ascii "not a user handle of ours") [])
  else if served accepts claims m x = false then .answered E_NOTIMPL
  else .begun

theorem eraseDups_concat (l : List P) (p : P) :
    (l ++ [p]).eraseDups = if p ∈ l then l.eraseDups else l.eraseDups ++ [p] := by
  rw [List.eraseDups_append]
  split_ifs with hmem
  · simp [List.removeAll, hmem]
  · simp [List.removeAll, hmem, List.eraseDups_cons]

/-- One more claimant. -/
theorem serve_take (l : List P) (p : P) :
    serve (l.eraseDups.take maxClaimants) (some p) = (l ++ [p]).eraseDups.take maxClaimants := by
  rw [eraseDups_concat]
  have hfull : ¬ l.eraseDups.length < maxClaimants →
      (l.eraseDups ++ [p]).take maxClaimants = l.eraseDups.take maxClaimants := fun hlength =>
    List.take_append_of_le_length (not_lt.mp hlength)
  by_cases hroom : l.eraseDups.length < maxClaimants
  · have hall : l.eraseDups.take maxClaimants = l.eraseDups := List.take_of_length_le hroom.le
    rw [hall]
    simp only [serve, List.mem_eraseDups]
    split_ifs with hmem hlength
    · exact hall.symm
    · omega
    · rw [List.take_of_length_le]
      rw [List.length_append, List.length_singleton]
      omega
  · have hlength : (l.eraseDups.take maxClaimants).length = maxClaimants := by
      rw [List.length_take]
      omega
    have hsame : serve (l.eraseDups.take maxClaimants) (some p) = l.eraseDups.take maxClaimants := by
      rw [serve, if_pos hlength, ite_self]
    rw [hsame]
    split_ifs
    · rfl
    · exact (hfull hroom).symm

theorem claims_eq (calls : List (Option P)) :
    calls.foldl serve [] = calls.reduceOption.eraseDups.take maxClaimants := by
  induction calls using List.reverseRecOn with
  | nil => rfl
  | append_singleton calls call ih =>
    rw [List.foldl_append, ih, List.foldl_cons, List.foldl_nil, List.reduceOption_append]
    cases call with
    | none => rw [List.reduceOption_singleton, Option.toList_none, List.append_nil, serve]
    | some p => exact serve_take _ p

/-- Whatever was claimed before, a token is begun for the handle of the user where one of the first
four claimants knows the method and the URL, and only there, and elsewhere it is not implemented; a
handle that is not the user's is refused as such, whatever the claimants would say. -/
theorem token_begun_iff (accepts : P → Bytes → Bytes → Bool) (calls : List (Option P)) (user : Bool)
    (method url : Option Bytes) :
    (getTokenAndSignatureAsync accepts (calls.foldl serve []) user method url = .begun ↔
      user = true ∧ ∃ p ∈ calls.reduceOption.eraseDups.take maxClaimants,
        accepts p (cString (method.getD [])) (cString (url.getD [])) = true) ∧
    (user = false → getTokenAndSignatureAsync accepts (calls.foldl serve []) user method url =
      .raised (raise E_INVALIDARG (ascii "not a user handle of ours") [])) ∧
    (user = true → (∀ p ∈ calls.reduceOption.eraseDups.take maxClaimants,
        accepts p (cString (method.getD [])) (cString (url.getD [])) = false) →
      getTokenAndSignatureAsync accepts (calls.foldl serve []) user method url =
        .answered E_NOTIMPL) := by
  rw [claims_eq, getTokenAndSignatureAsync]
  cases user with
  | false => simp
  | true =>
    simp only [Bool.true_eq_false, if_false, true_and, ← List.any_eq_true]
    cases hserved : served accepts (calls.reduceOption.eraseDups.take maxClaimants)
      (cString (method.getD [])) (cString (url.getD [])) with
    | true =>
      refine ⟨by simpa [served] using hserved, (nomatch ·), fun _ hnone => ?_⟩
      obtain ⟨p, hp, haccepts⟩ := List.any_eq_true.mp hserved
      exact absurd haccepts (by simp [hnone p hp])
    | false => exact ⟨by simpa [served] using hserved, (nomatch ·), fun _ _ => rfl⟩

end

/-! ## The token -/

def tokenCapacity : ℕ := 256

/-- `sizeof (token_and_signature)`. -/
def tokenHeader : ℕ := 32

structure TokenOperation where
  token : Bytes

namespace TokenOperation

/-- `work`, in memory that may hold anything, and the size that it answers. -/
def work (n : LocalName) (xuid : Unsigned 8) (m : Mem) :
    Except Contract (LocalName × TokenOperation × ℕ) := do
  let (n, m', k) ← gamertag n xuid m (some 0) gamertagCapacity
  let token ← textOf m' tokenCapacity (by decide)
    (ascii "IW4x1.0 xuid=" ++ braces ++ ascii " gamertag=" ++ braces)
    [.hex ⟨xuid, 16⟩, .view (RawMemory.read m' 0 k)]
  return (n, ⟨token⟩, tokenHeader + token.length + 1)

theorem word_fits : 64 ≤ 64 := le_refl 64

/-- `result`, where the empty signature is at `empty`. -/
def result (o : TokenOperation) (size : BitVec 64) (buffer : Option ℕ) (empty : ℕ) (m : Mem) :
    Except Raised Mem :=
  let n := tokenHeader + o.token.length + 1
  match buffer with
  | none => .error (raise E_POINTER (ascii "no buffer") [])
  | some d =>
    if size.toNat < n then
      .error (raise insufficientBuffer
        (ascii "a " ++ braces ++ ascii " byte buffer holds none of a " ++ braces ++
          ascii " byte token")
        [.integral false size word_fits, .integral false (BitVec.ofNat 64 n) word_fits])
    else
      let p := d + tokenHeader
      let m := RawMemory.write m p (o.token ++ [0])
      let m := RawMemory.write m d (littleEndian 8 o.token.length)
      let m := RawMemory.write m (d + 16) (littleEndian 8 p)
      let m := RawMemory.write m (d + 8) (littleEndian 8 0)
      .ok (RawMemory.write m (d + 24) (littleEndian 8 empty))

/-- What `get_token_and_signature_result` puts in `used`. -/
def used (m : Mem) (d : ℕ) : ℕ := (tokenHeader + word m d 8 + 1) % 2 ^ 64

end TokenOperation

/-! ## Reading a token back -/

def playerName (n : LocalName) (xuid : Unsigned 8) : Bytes :=
  if n.value = [] then ascii "IW4x-" ++ HexNumber.text ⟨xuid &&& 0xFFFFFFFF, 8⟩ else n.value

/-- The text at the pointer of an answer, of the size that the answer says. -/
def answeredToken (m : Mem) (d : ℕ) : Bytes := RawMemory.read m (word m (d + 16) 8) (word m d 8)

/-- The ID and the name that a token says. -/
def parseToken (t : Bytes) : Option (Unsigned 8 × Bytes) :=
  if ascii "IW4x1.0 xuid=0x" <+: t ∧ ascii " gamertag=" <+: t.drop 31 then
    (fromChars ((t.drop 15).take 16)).map fun v => (v, t.drop 41)
  else none

def tokenText (xuid : Unsigned 8) (name : Bytes) : Bytes :=
  ascii "IW4x1.0 xuid=" ++ HexNumber.text ⟨xuid, 16⟩ ++ ascii " gamertag=" ++ name

theorem hexText_length (v : HexNumber) : (HexNumber.text v).length ≤ 18 := by
  have hshort := shortest_le v.value
  obtain ⟨ds, htext, hlength, -⟩ := hex_digits v
  have htwo : (ascii "0x").length = 2 := rfl
  rw [htext, List.length_append, hlength, htwo, HexNumber.digits]
  omega

theorem playerName_fits (n : LocalName) (xuid : Unsigned 8) :
    (playerName n xuid).length < gamertagCapacity := by
  rw [playerName]
  split_ifs
  · have hdigits := hexText_length ⟨xuid &&& 0xFFFFFFFF, 8⟩
    have hfive : (ascii "IW4x-").length = 5 := rfl
    rw [List.length_append, hfive, gamertagCapacity]
    omega
  · exact n.fits

theorem defaultName_eq {n : LocalName} (m : Mem) (xuid : Unsigned 8) (h : n.value = []) :
    defaultName m xuid = .ok ⟨playerName n xuid, playerName_fits n xuid⟩ := by
  have hliteral : literal (ascii "IW4x-" ++ braces) = (ascii "IW4x-", []) := by decide
  have htext : text gamertagCapacity (formatted (ascii "IW4x-" ++ braces)
      [.hex ⟨xuid &&& 0xFFFFFFFF, 8⟩]) = playerName n xuid := by
    have hfits := playerName_fits n xuid
    rw [formatted_last hliteral, text, playerName, if_pos h]
    rw [playerName, if_pos h] at hfits
    exact List.take_of_length_le (Nat.le_pred_of_lt hfits)
  rw [defaultName, textOf_eq m (by decide) (by decide), htext]
  change (if h : _ then _ else _) = _
  rw [dif_pos (playerName_fits n xuid)]

/-- The whole name is handed out where there is room for any. -/
theorem gamertag_whole (n : LocalName) (xuid : Unsigned 8) (m : Mem) :
    ∃ n' m', gamertag n xuid m (some 0) gamertagCapacity =
        .ok (n', m', (playerName n xuid).length) ∧ n'.value = playerName n xuid ∧
      RawMemory.read m' 0 (playerName n xuid).length = playerName n xuid := by
  have hfits := playerName_fits n xuid
  have hsize : gamertagCapacity ≠ 0 := by decide
  have hbounded : bounded (playerName n xuid) (gamertagCapacity - 1) = (playerName n xuid).length :=
    if_pos (Nat.le_pred_of_lt hfits)
  have hcopy {n' : LocalName} (hvalue : n'.value = playerName n xuid) : (do
      require .assertion (bounded n'.value (gamertagCapacity - 1) < gamertagCapacity)
      return (n', RawMemory.write (RawMemory.write m 0
        (n'.value.take (bounded n'.value (gamertagCapacity - 1))))
        (0 + bounded n'.value (gamertagCapacity - 1)) [0],
          bounded n'.value (gamertagCapacity - 1)) : Except Contract _) =
      .ok (n', RawMemory.write m 0 (playerName n xuid ++ [0]), (playerName n xuid).length) := by
    rw [hvalue, hbounded, require_of hfits, List.take_length, write_write]
    rfl
  have hread : RawMemory.read (RawMemory.write m 0 (playerName n xuid ++ [0])) 0
      (playerName n xuid).length = playerName n xuid :=
    (holds_append.mp (write_holds m 0 _)).1.read
  by_cases hnil : n.value = []
  · refine ⟨⟨playerName n xuid, hfits⟩, _, ?_, rfl, hread⟩
    simp only [gamertag, if_neg hsize, if_pos hnil, defaultName_eq m xuid hnil]
    exact hcopy rfl
  · have hvalue : n.value = playerName n xuid := by rw [playerName, if_neg hnil]
    refine ⟨n, _, ?_, hvalue, hread⟩
    simp only [gamertag, if_neg hsize, if_neg hnil]
    exact hcopy hvalue

theorem formatted_token (xuid : Unsigned 8) (name : Bytes) :
    formatted (ascii "IW4x1.0 xuid=" ++ braces ++ ascii " gamertag=" ++ braces)
      [.hex ⟨xuid, 16⟩, .view name] = tokenText xuid name := by
  have hfirst : literal (ascii "IW4x1.0 xuid=" ++ braces ++ ascii " gamertag=" ++ braces) =
      (ascii "IW4x1.0 xuid=", ascii " gamertag=" ++ braces) := by decide
  have hrest : formatted (ascii " gamertag=" ++ braces) [.view name] = ascii " gamertag=" ++ name :=
    formatted_last (by decide) (.view name)
  rw [formatted_cons, hfirst]
  change ascii "IW4x1.0 xuid=" ++ HexNumber.text ⟨xuid, 16⟩ ++
    formatted (ascii " gamertag=" ++ braces) [.view name] = _
  rw [hrest, tokenText, List.append_assoc _ (ascii " gamertag=")]

theorem xuid_digits (xuid : Unsigned 8) : ∃ ds, HexNumber.text ⟨xuid, 16⟩ = ascii "0x" ++ ds ∧
    ds.length = 16 ∧ fromChars ds = some xuid := by
  obtain ⟨ds, htext, hlength, -, hdigits, hvalue⟩ := hex_digits ⟨xuid, 16⟩
  have hsixteen : ds.length = 16 := by
    have hshort := shortest_le xuid
    rw [hlength]
    simp only [HexNumber.digits]
    omega
  have hne : ds ≠ [] := by
    intro hnil
    rw [hnil] at hsixteen
    cases hsixteen
  exact ⟨ds, htext, hsixteen, fromChars_digits hne hdigits hvalue⟩

theorem tokenText_length (xuid : Unsigned 8) (name : Bytes) :
    (tokenText xuid name).length = 41 + name.length := by
  have hid := (xuidText_eq (fun _ => 0) xuid).2
  have hstart : (ascii "IW4x1.0 xuid=").length = 13 := by decide
  have hmiddle : (ascii " gamertag=").length = 10 := by decide
  simp only [tokenText, List.length_append, hid, hstart, hmiddle]

theorem parseToken_tokenText (xuid : Unsigned 8) (name : Bytes) :
    parseToken (tokenText xuid name) = some (xuid, name) := by
  obtain ⟨ds, htext, hlength, hvalue⟩ := xuid_digits xuid
  have hsplit : tokenText xuid name =
      ascii "IW4x1.0 xuid=0x" ++ (ds ++ (ascii " gamertag=" ++ name)) := by
    rw [tokenText, htext]
    simp only [← List.append_assoc]
    rfl
  have hstart : (ascii "IW4x1.0 xuid=0x").length = 15 := by decide
  have hmiddle : (ascii " gamertag=").length = 10 := by decide
  have hbehind : (tokenText xuid name).drop 15 = ds ++ (ascii " gamertag=" ++ name) := by
    rw [hsplit, ← hstart, List.drop_left]
  have hsecond : (tokenText xuid name).drop 31 = ascii " gamertag=" ++ name := by
    rw [show 31 = 15 + ds.length by rw [hlength], ← List.drop_drop, hbehind, List.drop_left]
  have hlast : (tokenText xuid name).drop 41 = name := by
    rw [show 41 = 31 + (ascii " gamertag=").length by rw [hmiddle], ← List.drop_drop, hsecond,
      List.drop_left]
  have hdigits : (ds ++ (ascii " gamertag=" ++ name)).take 16 = ds := by
    rw [← hlength, List.take_left]
  rw [parseToken, if_pos, hbehind, hdigits, hvalue, hlast]
  · rfl
  · rw [hsecond, hsplit]
    exact ⟨List.prefix_append _ _, List.prefix_append _ _⟩

/-- No token is cut. -/
theorem work_eq (n : LocalName) (xuid : Unsigned 8) (m : Mem) : ∃ n',
    TokenOperation.work n xuid m = .ok (n', ⟨tokenText xuid (playerName n xuid)⟩,
      74 + (playerName n xuid).length) := by
  obtain ⟨n', m', hname, -, hread⟩ := gamertag_whole n xuid m
  have hlength := tokenText_length xuid (playerName n xuid)
  have hfits := playerName_fits n xuid
  rw [gamertagCapacity] at hfits
  refine ⟨n', ?_⟩
  rw [TokenOperation.work, hname]
  change (do
    let token ← textOf m' tokenCapacity (by decide)
      (ascii "IW4x1.0 xuid=" ++ braces ++ ascii " gamertag=" ++ braces)
      [.hex ⟨xuid, 16⟩, .view (RawMemory.read m' 0 (playerName n xuid).length)]
    return (n', TokenOperation.mk token, tokenHeader + token.length + 1) : Except Contract _) = _
  rw [hread, textOf_eq m' (by decide) (by decide), formatted_token, text,
    List.take_of_length_le (by rw [hlength, tokenCapacity]; omega)]
  change Except.ok (n', TokenOperation.mk _, tokenHeader + (tokenText xuid _).length + 1) = _
  rw [hlength, tokenHeader]
  congr 3
  omega

/-! ## The answer -/

/-- What an answer leaves in memory. -/
theorem result_eq (o : TokenOperation) {size : BitVec 64} (hsize : 32 + o.token.length < size.toNat)
    (d empty : ℕ) (m : Mem) : ∃ m', o.result size (some d) empty m = .ok m' ∧
      Changes (span d (32 + o.token.length + 1)) m m' ∧ Holds m' (d + 32) (o.token ++ [0]) ∧
      Holds m' d (littleEndian 8 o.token.length) ∧ Holds m' (d + 16) (littleEndian 8 (d + 32)) ∧
      Holds m' (d + 8) (littleEndian 8 0) ∧ Holds m' (d + 24) (littleEndian 8 empty) := by
  have hroom : ¬ size.toNat < 32 + o.token.length + 1 := by omega
  have htext : (o.token ++ [0]).length = o.token.length + 1 := List.length_append
  have hlength := littleEndian_length 8 o.token.length
  have hpointer := littleEndian_length 8 (d + 32)
  have hzero := littleEndian_length 8 0
  have hempty := littleEndian_length 8 empty
  have hok : o.result size (some d) empty m = .ok (RawMemory.write (RawMemory.write (RawMemory.write
      (RawMemory.write (RawMemory.write m (d + 32) (o.token ++ [0])) d
        (littleEndian 8 o.token.length)) (d + 16) (littleEndian 8 (d + 32)))
      (d + 8) (littleEndian 8 0)) (d + 24) (littleEndian 8 empty)) := if_neg hroom
  refine ⟨_, hok, ?_, ?_, ?_, ?_, ?_, write_holds _ _ _⟩
  · refine ((((write_within m ?_ ?_).trans (write_within _ ?_ ?_)).trans
      (write_within _ ?_ ?_)).trans (write_within _ ?_ ?_)).trans (write_within _ ?_ ?_)
    all_goals omega
  · refine ((((write_holds m (d + 32) _).beside ?_).beside ?_).beside ?_).beside ?_
    all_goals omega
  · refine (((write_holds _ d _).beside ?_).beside ?_).beside ?_
    all_goals omega
  · refine ((write_holds _ (d + 16) _).beside ?_).beside ?_
    all_goals omega
  · apply (write_holds _ (d + 8) _).beside
    omega

theorem answeredToken_eq {m : Mem} {d : ℕ} {t : Bytes} (htext : Holds m (d + 32) (t ++ [0]))
    (hsize : Holds m d (littleEndian 8 t.length)) (hpointer : Holds m (d + 16) (littleEndian 8 (d + 32)))
    (ht : t.length < 2 ^ 64) (hd : d + 32 < 2 ^ 64) :
    answeredToken m d = t ∧ word m d 8 = t.length := by
  have hpow : 256 ^ 8 = 2 ^ 64 := by norm_num
  have hlength : word m d 8 = t.length := by
    rw [hsize.word, hpow, Nat.mod_eq_of_lt ht]
  have hplace : word m (d + 16) 8 = d + 32 := by
    rw [hpointer.word, hpow, Nat.mod_eq_of_lt hd]
  refine ⟨?_, hlength⟩
  rw [answeredToken, hlength, hplace]
  exact (holds_append.mp htext).1.read

def tooSmall (size n : ℕ) : Bytes :=
  ascii "a " ++ decimal size ++ ascii " byte buffer holds none of a " ++ decimal n ++
    ascii " byte token"

theorem raise_tooSmall (size : BitVec 64) {n : ℕ} (hn : n < 2 ^ 64) :
    raise insufficientBuffer
      (ascii "a " ++ braces ++ ascii " byte buffer holds none of a " ++ braces ++
        ascii " byte token")
      [.integral false size TokenOperation.word_fits,
        .integral false (BitVec.ofNat 64 n) TokenOperation.word_fits] =
      ⟨insufficientBuffer, tooSmall size.toNat n⟩ := by
  have hfirst : literal (ascii "a " ++ braces ++ ascii " byte buffer holds none of a " ++ braces ++
      ascii " byte token") =
      (ascii "a ", ascii " byte buffer holds none of a " ++ braces ++ ascii " byte token") := by
    decide
  have hsecond : Placeholders.cut braces (cString (ascii " byte buffer holds none of a " ++ (braces ++
      ascii " byte token"))) = some (ascii " byte buffer holds none of a ", ascii " byte token") := by
    decide
  have hvalue : (BitVec.ofNat 64 n).toNat = n := by
    rw [BitVec.toNat_ofNat, Nat.mod_eq_of_lt hn]
  have htext : formatted (ascii "a " ++ braces ++ ascii " byte buffer holds none of a " ++ braces ++
      ascii " byte token") [.integral false size TokenOperation.word_fits,
        .integral false (BitVec.ofNat 64 n) TokenOperation.word_fits] = tooSmall size.toNat n := by
    rw [formatted_cons, hfirst]
    simp only [List.map_cons, List.map_nil, Placeholders.fill, hsecond, Value.text, tooSmall, hvalue,
      Bool.false_eq_true, if_false, List.append_assoc]
  have hsize := decimal_length (v := (size.toNat : ℤ)) (by omega) (by have := size.isLt; omega)
  have hlimit := decimal_length (v := (n : ℤ)) (by omega) (by omega)
  have hparts : (tooSmall size.toNat n).length =
      2 + (decimal size.toNat).length + 29 + (decimal n).length + 11 := by
    have h₁ : (ascii "a ").length = 2 := by decide
    have h₂ : (ascii " byte buffer holds none of a ").length = 29 := by decide
    have h₃ : (ascii " byte token").length = 11 := by decide
    simp only [tooSmall, List.length_append, h₁, h₂, h₃]
  rw [raise, htext, text, List.take_of_length_le]
  rw [hparts]
  simp only [TextWriter.digits, descriptionSize] at *
  omega

/-- The text of a token is never cut, whatever the name. A buffer of the size that the work answers
has room for it, and no smaller one: that is refused with both sizes. What is answered ends with the
buffer of that size and touches nothing else; the size and the pointer in it lead to a text with a
terminator, from which the ID and the name are read back, the signature is empty, and `used` says the
size of the work. -/
theorem token_read_back (n : LocalName) (xuid : Unsigned 8) (m₀ : Mem) : ∃ n' o k,
    TokenOperation.work n xuid m₀ = .ok (n', o, k) ∧
      (∀ (size : BitVec 64) (d empty : ℕ) (m : Mem), size.toNat < k →
        o.result size (some d) empty m = .error ⟨insufficientBuffer, tooSmall size.toNat k⟩) ∧
      ∀ (size : BitVec 64) (d empty : ℕ) (m : Mem), k ≤ size.toNat → d + k ≤ 2 ^ 64 →
        empty < 2 ^ 64 → ∃ m', o.result size (some d) empty m = .ok m' ∧ Changes (span d k) m m' ∧
          parseToken (answeredToken m' d) = some (xuid, playerName n xuid) ∧
          Holds m' (word m' (d + 16) 8) (answeredToken m' d ++ [0]) ∧
          word m' (d + 8) 8 = 0 ∧ word m' (d + 24) 8 = empty ∧ TokenOperation.used m' d = k := by
  obtain ⟨n', hwork⟩ := work_eq n xuid m₀
  have hlength := tokenText_length xuid (playerName n xuid)
  have hname := playerName_fits n xuid
  rw [gamertagCapacity] at hname
  have hpow : 256 ^ 8 = 2 ^ 64 := by norm_num
  refine ⟨n', _, _, hwork, ?_, ?_⟩
  · intro size d empty m hsmall
    have hfew : size.toNat < tokenHeader + (tokenText xuid (playerName n xuid)).length + 1 := by
      rw [tokenHeader, hlength]
      omega
    have htotal : tokenHeader + (tokenText xuid (playerName n xuid)).length + 1 =
        74 + (playerName n xuid).length := by
      rw [tokenHeader, hlength]
      omega
    have hrefused := raise_tooSmall size
      (n := tokenHeader + (tokenText xuid (playerName n xuid)).length + 1) (by omega)
    rw [TokenOperation.result, if_pos hfew, hrefused, htotal]
  · intro size d empty m hsize hd hempty
    have hroom : 32 + (tokenText xuid (playerName n xuid)).length < size.toNat := by
      rw [hlength]
      omega
    obtain ⟨m', hok, hchanges, htext, hsizeword, hpointer, hzero, hsignature⟩ :=
      result_eq ⟨tokenText xuid (playerName n xuid)⟩ hroom d empty m
    simp only [hlength] at hchanges hsizeword
    rw [← hlength] at hsizeword
    obtain ⟨hread, hword⟩ := answeredToken_eq (t := tokenText xuid (playerName n xuid)) htext
      hsizeword hpointer (by omega) (by omega)
    have hplace : word m' (d + 16) 8 = d + 32 := by
      rw [hpointer.word, hpow, Nat.mod_eq_of_lt (by omega)]
    refine ⟨m', hok, ?_, ?_, ?_, hzero.word, ?_, ?_⟩
    · apply hchanges.mono
      apply span_subset le_rfl
      omega
    · rw [hread, parseToken_tokenText]
    · rw [hread, hplace]
      exact htext
    · rw [hsignature.word, hpow, Nat.mod_eq_of_lt hempty]
    · rw [TokenOperation.used, hword, hlength, tokenHeader, Nat.mod_eq_of_lt (by omega)]
      omega

end IW4x.Gdk
