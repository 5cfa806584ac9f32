import IW4x.Lib.Utf8Boundaries
import IW4x.Gdk.Failures

/-!
# The name of the player

The name that is set is cut to 100 bytes, and what is asked for is cut again to the buffer or to the
bound of a component. Neither cut splits a code point, and the two come to one.
-/

namespace IW4x.Gdk

open RawMemory Unicode Hex

def gamertagCapacity : ℕ := 101

structure LocalName where
  value : Bytes
  fits : value.length < gamertagCapacity

/-- `bounded`. Its loop goes back from the limit as long as a code point is continued there. -/
def bounded (s : Bytes) (limit : ℕ) : ℕ :=
  if s.length ≤ limit then s.length else backToBoundary s limit

/-- The name of a player who has set none. -/
def defaultName (m : Mem) (xuid : Unsigned 8) : Except Contract LocalName := do
  let d ← textOf m gamertagCapacity (by decide) (ascii "IW4x-" ++ braces)
    [.hex ⟨xuid &&& 0xFFFFFFFF, 8⟩]
  if h : d.length < gamertagCapacity then .ok ⟨d, h⟩ else .error .assertion

/-- `gamertag`, with the number of bytes that it answers. -/
def gamertag (n : LocalName) (xuid : Unsigned 8) (m : Mem) (b : Option ℕ) (size : ℕ) :
    Except Contract (LocalName × Mem × ℕ) :=
  match b with
  | none => .ok (n, m, 0)
  | some b =>
    if size = 0 then .ok (n, m, 0)
    else do
      let n ← if n.value = [] then defaultName m xuid else .ok n
      let k := bounded n.value (size - 1)
      require .assertion (k < size)
      return (n, RawMemory.write (RawMemory.write m b (n.value.take k)) (b + k) [0], k)

def setGamertag (n : LocalName) (v : Bytes) : Except Contract LocalName :=
  let k := bounded v (gamertagCapacity - 1)
  if h : k < gamertagCapacity then
    if n.value = v.take k then .ok n
    else .ok ⟨v.take k, lt_of_le_of_lt (List.length_take_le k v) h⟩
  else .error .assertion

def componentBound (c : BitVec 32) : Option ℕ :=
  if c = 0 then some 15
  else if c = 1 then some 96
  else if c = 2 then some 0
  else if c = 3 then some 100
  else none

/-- What a call raises: the code of a failure and its description. -/
structure Raised where
  code : HResult
  what : Bytes

def raise (code : HResult) (f : Bytes) (args : List Value) : Raised :=
  ⟨code, text descriptionSize (formatted f args)⟩

/-- `copy_out`, with the number that it puts in `used`. -/
def copyOut (v : Bytes) (size : BitVec 64) (buffer : Option ℕ) (m : Mem) :
    Except Raised (Mem × ℕ) :=
  match buffer with
  | none => .error (raise E_POINTER (ascii "no buffer") [])
  | some b =>
    let n := v.length + 1
    if size.toNat < n then
      .error (raise insufficientBuffer
        (ascii "a " ++ braces ++ ascii " byte buffer holds none of a " ++ braces ++
          ascii " byte answer")
        [.integral false size (by decide), .integral false (BitVec.ofNat 64 n) (by decide)])
    else .ok (RawMemory.write (RawMemory.write m b v) (b + v.length) [0], n)

def componentName (n : LocalName) (xuid : Unsigned 8) (m : Mem) (bound : ℕ) :
    Except Contract (LocalName × Mem × ℕ) :=
  if bound ≠ 0 then gamertag n xuid m (some 0) (bound + 1) else .ok (n, m, 0)

def getGamertag (n : LocalName) (xuid : Unsigned 8) (user : Bool) (c : BitVec 32)
    (size : BitVec 64) (buffer : Option ℕ) (m : Mem) :
    Except Contract (LocalName × Except Raised (Mem × ℕ)) :=
  if user = false then
    .ok (n, .error (raise E_INVALIDARG (ascii "not a user handle of ours") []))
  else
    match componentBound c with
    | none =>
      .ok (n, .error (raise E_INVALIDARG (ascii "unrecovered gamertag component " ++ braces)
        [.integral false c (by decide)]))
    | some bound => do
      require .assertion (bound < gamertagCapacity)
      let (n, m', k) ← componentName n xuid m bound
      return (n, copyOut (RawMemory.read m' 0 k) size buffer m)

/-! ## Cutting a name -/

theorem bounded_longest (cs : List Char) (limit : ℕ) :
    LongestWithin cs limit ((utf8 cs).take (bounded (utf8 cs) limit)) := by
  rw [bounded]
  split_ifs with hfits
  · rw [List.take_length]
    exact .whole hfits
  · exact take_backToBoundary cs (by omega)

theorem bounded_le (cs : List Char) (limit : ℕ) :
    bounded (utf8 cs) limit ≤ limit ∧ bounded (utf8 cs) limit ≤ (utf8 cs).length := by
  rw [bounded]
  split_ifs with hfits
  · exact ⟨hfits, le_rfl⟩
  · have := (backToBoundary_spec cs (n := limit) (by omega)).2.1
    omega

/-- The name is the longest prefix of the string that has room. -/
def Named (cs : List Char) (n : LocalName) : Prop := LongestWithin cs (gamertagCapacity - 1) n.value

theorem setGamertag_named (n : LocalName) (cs : List Char) :
    ∃ n', setGamertag n (utf8 cs) = .ok n' ∧ Named cs n' := by
  have hlongest := bounded_longest cs (gamertagCapacity - 1)
  have hle := (bounded_le cs (gamertagCapacity - 1)).1
  have hlt : bounded (utf8 cs) (gamertagCapacity - 1) < gamertagCapacity := by
    rw [gamertagCapacity] at hle ⊢
    omega
  rw [setGamertag, dif_pos hlt]
  split_ifs with hsame
  · exact ⟨n, rfl, by rw [Named, hsame]; exact hlongest⟩
  · exact ⟨_, rfl, hlongest⟩

theorem Named.ne_nil {cs : List Char} {n : LocalName} (h : Named cs n) (hcs : cs ≠ []) :
    n.value ≠ [] := by
  intro hnil
  cases cs with
  | nil => exact hcs rfl
  | cons c cs =>
    have hone : (utf8 ((c :: cs).take 1)).length = c.utf8Size := by
      simp [utf8, String.length_utf8EncodeChar]
    have hfour := c.utf8Size_le_four
    have hpos := c.utf8Size_pos
    have := h.longest 1 (by rw [hone, gamertagCapacity]; omega)
    rw [hone, hnil, List.length_nil] at this
    omega

/-- A name that is set is cut once more, and that is one cut of the string. -/
theorem gamertag_named {cs : List Char} {n : LocalName} (h : Named cs n) (hcs : cs ≠ [])
    (xuid : Unsigned 8) {size : ℕ} (hsize : 0 < size) :
    ∃ t, LongestWithin cs (min (gamertagCapacity - 1) (size - 1)) t ∧
      ∀ (m : Mem) (b : ℕ), ∃ m', gamertag n xuid m (some b) size = .ok (n, m', t.length) ∧
        Holds m' b (t ++ [0]) ∧ Changes (span b (t.length + 1)) m m' := by
  obtain ⟨k, hk⟩ := h.isPrefix
  have hne := h.ne_nil hcs
  have hname : LongestWithin cs (gamertagCapacity - 1) (utf8 (cs.take k)) := hk ▸ h
  have hlongest := bounded_longest (cs.take k) (size - 1)
  obtain ⟨hle, hin⟩ := bounded_le (cs.take k) (size - 1)
  rw [← hk] at hlongest hle hin
  have hlength : (n.value.take (bounded n.value (size - 1))).length =
      bounded n.value (size - 1) := by
    rw [List.length_take, Nat.min_eq_left hin]
  have hlt : bounded n.value (size - 1) < size := by omega
  refine ⟨n.value.take (bounded n.value (size - 1)), hname.trans hlongest, ?_⟩
  intro m b
  refine ⟨RawMemory.write m b (n.value.take (bounded n.value (size - 1)) ++ [0]), ?_,
    write_holds _ _ _, ?_⟩
  · simp only [gamertag, if_neg hsize.ne', if_neg hne]
    change (do
      require .assertion (bounded n.value (size - 1) < size)
      return (n, _, bounded n.value (size - 1)) : Except Contract _) = _
    rw [require_of hlt, ← write_write, hlength]
    rfl
  · have hchanges := write_changes m b (n.value.take (bounded n.value (size - 1)) ++ [0])
    rwa [List.length_append] at hchanges

theorem componentBound_lt {c : BitVec 32} {bound : ℕ} (h : componentBound c = some bound) :
    bound < gamertagCapacity := by
  rw [componentBound] at h
  split_ifs at h <;> (obtain rfl := Option.some.inj h; decide)

theorem copyOut_eq (t : Bytes) {size : BitVec 64} (h : t.length < size.toNat) (b : ℕ) (m : Mem) :
    copyOut t size (some b) m = .ok (RawMemory.write m b (t ++ [0]), t.length + 1) := by
  simp only [copyOut, if_neg (not_lt.mpr (Nat.succ_le_of_lt h)), write_write]

/-- Where the buffer of the caller holds a component, that is the string cut to the bound of it. -/
theorem getGamertag_named {cs : List Char} {n : LocalName} (h : Named cs n) (hcs : cs ≠ [])
    (xuid : Unsigned 8) {c : BitVec 32} {bound : ℕ} (hbound : componentBound c = some bound) :
    ∃ t, LongestWithin cs (min (gamertagCapacity - 1) bound) t ∧
      ∀ (m : Mem) (b : ℕ) (size : BitVec 64), t.length < size.toNat → ∃ m',
        getGamertag n xuid true c size (some b) m = .ok (n, .ok (m', t.length + 1)) ∧
          Holds m' b (t ++ [0]) ∧ Changes (span b (t.length + 1)) m m' := by
  have hlt := componentBound_lt hbound
  have hget (t : Bytes) (hcut : ∀ m : Mem, ∃ m',
      componentName n xuid m bound = .ok (n, m', t.length) ∧ Holds m' 0 t) :
      ∀ (m : Mem) (b : ℕ) (size : BitVec 64), t.length < size.toNat → ∃ m',
        getGamertag n xuid true c size (some b) m = .ok (n, .ok (m', t.length + 1)) ∧
          Holds m' b (t ++ [0]) ∧ Changes (span b (t.length + 1)) m m' := by
    intro m b size hroom
    obtain ⟨m₁, hname, hholds⟩ := hcut m
    refine ⟨RawMemory.write m b (t ++ [0]), ?_, write_holds _ _ _, ?_⟩
    · rw [getGamertag, if_neg (by decide), hbound]
      dsimp only
      rw [require_of hlt, hname]
      change Except.ok (n, copyOut (RawMemory.read m₁ 0 t.length) size (some b) m) = _
      rw [hholds.read, copyOut_eq t hroom]
    · have hchanges := write_changes m b (t ++ [0])
      rwa [List.length_append] at hchanges
  by_cases hzero : bound = 0
  · subst hzero
    refine ⟨[], ⟨⟨0, rfl⟩, Nat.zero_le _, fun k hk => ?_⟩, hget [] fun m => ⟨m, rfl, ?_⟩⟩
    · rw [Nat.min_zero] at hk
      exact hk
    · intro i hi
      cases hi
  · obtain ⟨t, hlongest, hname⟩ := gamertag_named h hcs xuid (Nat.succ_pos bound)
    rw [Nat.succ_sub_one] at hlongest
    refine ⟨t, hlongest, hget t fun m => ?_⟩
    obtain ⟨m', hok, hholds, -⟩ := hname m 0
    exact ⟨m', by rw [componentName, if_pos hzero]; exact hok, (holds_append.mp hholds).1⟩

/-- After a name is set that is not empty, what is handed out is the longest prefix of it that ends
on a boundary and fits; a buffer of no bytes is left alone. -/
theorem gamertag_longest {cs : List Char} (hcs : cs ≠ []) (n : LocalName) (xuid : Unsigned 8) :
    ∃ n', setGamertag n (utf8 cs) = .ok n' ∧
      (∀ size, 0 < size → ∃ t, LongestWithin cs (min 100 (size - 1)) t ∧
        ∀ (m : Mem) (b : ℕ), ∃ m', gamertag n' xuid m (some b) size = .ok (n', m', t.length) ∧
          Holds m' b (t ++ [0]) ∧ Changes (span b (t.length + 1)) m m') ∧
      (∀ (m : Mem) (b : Option ℕ) (size : ℕ), b = none ∨ size = 0 →
        gamertag n' xuid m b size = .ok (n', m, 0)) ∧
      ∀ c bound, componentBound c = some bound → ∃ t, LongestWithin cs (min 100 bound) t ∧
        ∀ (m : Mem) (b : ℕ) (size : BitVec 64), t.length < size.toNat → ∃ m',
          getGamertag n' xuid true c size (some b) m = .ok (n', .ok (m', t.length + 1)) ∧
            Holds m' b (t ++ [0]) ∧ Changes (span b (t.length + 1)) m m' := by
  obtain ⟨n', hset, hnamed⟩ := setGamertag_named n cs
  refine ⟨n', hset, ?_, ?_, ?_⟩
  · intro size hsize
    exact gamertag_named hnamed hcs xuid hsize
  · rintro m b size (rfl | rfl)
    · rfl
    · cases b <;> rfl
  · intro c bound hbound
    exact getGamertag_named hnamed hcs xuid hbound

/-- A buffer of two bytes has no room for a code point of two. -/
theorem gamertag_longest_accent : ∃ n', setGamertag ⟨[], by decide⟩ (utf8 ['é', 'a']) = .ok n' ∧
    ∃ t, LongestWithin ['é', 'a'] (min 100 (2 - 1)) t ∧
      ∀ (m : Mem) (b : ℕ), ∃ m', gamertag n' 0 m (some b) 2 = .ok (n', m', t.length) ∧
        Holds m' b (t ++ [0]) := by
  have hcs : ['é', 'a'] ≠ [] := by decide
  obtain ⟨n', hset, hname, -⟩ := gamertag_longest hcs ⟨[], by decide⟩ 0
  obtain ⟨t, hlongest, hgamertag⟩ := hname 2 (by decide)
  refine ⟨n', hset, t, hlongest, fun m b => ?_⟩
  obtain ⟨m', hok, hholds, -⟩ := hgamertag m b
  exact ⟨m', hok, hholds⟩

/-- A buffer of no bytes is given no terminator. -/
theorem gamertag_unended : ∃ n', setGamertag ⟨[], by decide⟩ (utf8 ['a']) = .ok n' ∧
    ¬ ∃ t m', gamertag n' 0 (fun _ => 1) (some 0) 0 = .ok (n', m', t.length) ∧
      Holds m' 0 (t ++ [0]) := by
  obtain ⟨n', hset, -⟩ := setGamertag_named ⟨[], by decide⟩ ['a']
  refine ⟨n', hset, ?_⟩
  rintro ⟨t, m', hok, hholds⟩
  have hsame : gamertag n' 0 (fun _ => 1) (some 0) 0 = .ok (n', fun _ => 1, 0) := rfl
  have hmem : m' = fun _ => 1 := by
    have := Except.ok.inj (hok.symm.trans hsame)
    simp only [Prod.mk.injEq] at this
    exact this.2.1
  have hend := (holds_append.mp hholds).2 0 (by simp)
  rw [hmem] at hend
  exact absurd hend (by simp)

end IW4x.Gdk
