import IW4x.Gdk.Types
import IW4x.Gdk.Format

/-!
# Failures

A failure carries a status code and a description of at most 191 bytes. What is appended to it is
written by a writer of its own over the bytes that are left, which may be none but the terminator.
-/

namespace IW4x.Gdk

open RawMemory Hex

def descriptionSize : ℕ := 192

structure Failure where
  code : HResult
  /-- The address of `what_`. -/
  what : ℕ
  /-- `size_`. -/
  size : BitVec 32

namespace Failure

/-- The constructor of `failure`, for an object with its description at `what`. -/
def make (m : Mem) (what : ℕ) (code : HResult) (f : Bytes) (args : List Value) :
    Except Contract (Failure × Mem) := do
  let w ← (TextWriter.start m what descriptionSize (by decide)).format f args
  return (⟨code, what, BitVec.ofNat 32 w.size⟩, w.mem)

def append (r : Failure) (m : Mem) (f : Bytes) (args : List Value) :
    Except Contract (Failure × Mem) :=
  if h : r.size.toNat < descriptionSize then do
    let w ← (TextWriter.start m (r.what + r.size.toNat) (descriptionSize - r.size.toNat)
      (by omega)).format f args
    return ({ r with size := r.size + BitVec.ofNat 32 w.size }, w.mem)
  else .error .assertion

/-- Any number of calls of `append`. -/
def appendAll : Failure → Mem → List (Bytes × List Value) → Except Contract (Failure × Mem)
  | r, m, [] => .ok (r, m)
  | r, m, (f, args) :: calls => do
    let (r, m) ← r.append m f args
    appendAll r m calls

end Failure

/-- The description holds of the text what there is room for. -/
structure Describes (r : Failure) (m m' : Mem) (t : Bytes) : Prop where
  size : r.size.toNat = min t.length (descriptionSize - 1)
  /-- The bytes and the terminator. -/
  text : Holds m' r.what (t.take (descriptionSize - 1) ++ [0])
  /-- Only the description is written to. -/
  inside : Changes (span r.what descriptionSize) m m'

namespace Failure

variable {m m' : Mem} {t : Bytes} {r : Failure}

theorem make_describes (m : Mem) (what : ℕ) (code : HResult) (f : Bytes) (args : List Value) :
    ∃ r m', make m what code f args = .ok (r, m') ∧ r.code = code ∧ r.what = what ∧
      Describes r m m' (formatted f args) := by
  obtain ⟨w, hformat, hcarries⟩ :=
    format_carries (TextWriter.start_carries m what (c := descriptionSize) (by decide)) f args
  rw [List.nil_append] at hcarries
  refine ⟨⟨code, what, BitVec.ofNat 32 w.size⟩, w.mem, ?_, rfl, rfl, ?_, hcarries.text,
    hcarries.inside⟩
  · rw [make, hformat]
    rfl
  · have hsize := hcarries.size
    have hroom : descriptionSize = 192 := rfl
    rw [BitVec.toNat_ofNat, Nat.mod_eq_of_lt (by omega), hsize]

/-- What is appended comes behind the description, as far as there is room. -/
theorem append_describes (h : Describes r m m' t) (f : Bytes) (args : List Value) :
    ∃ r' m'', r.append m' f args = .ok (r', m'') ∧ r'.code = r.code ∧ r'.what = r.what ∧
      Describes r' m m'' (t ++ formatted f args) := by
  have hroom : descriptionSize = 192 := rfl
  have hsize := h.size
  have hlt : r.size.toNat < descriptionSize := by omega
  have hpos : 0 < descriptionSize - r.size.toNat := by omega
  obtain ⟨w, hformat, hcarries⟩ :=
    format_carries (TextWriter.start_carries m' (r.what + r.size.toNat) hpos) f args
  rw [List.nil_append] at hcarries
  have hlength : (t.take (descriptionSize - 1)).length = r.size.toNat := by
    rw [List.length_take]
    omega
  have hrest : descriptionSize - r.size.toNat - 1 = descriptionSize - 1 - t.length := by omega
  have hadded := hcarries.size
  refine ⟨{ r with size := r.size + BitVec.ofNat 32 w.size }, w.mem, ?_, rfl, rfl, ?_, ?_, ?_⟩
  · rw [append, dif_pos hlt, hformat]
    rfl
  · rw [BitVec.toNat_add, BitVec.toNat_ofNat, List.length_append]
    omega
  · have htext := hcarries.text
    have hold := (holds_append.mp h.text).1
    rw [List.take_append, List.append_assoc, holds_append, hlength, ← hrest]
    refine ⟨?_, htext⟩
    exact hold.kept hcarries.inside (span_disjoint (.inr (by omega)))
  · apply h.inside.trans
    exact hcarries.inside.mono (span_subset (by omega) (by omega))

theorem appendAll_describes (h : Describes r m m' t) (calls : List (Bytes × List Value)) :
    ∃ r' m'', r.appendAll m' calls = .ok (r', m'') ∧ r'.code = r.code ∧ r'.what = r.what ∧
      Describes r' m m'' (t ++ (calls.map fun c => formatted c.1 c.2).flatten) := by
  induction calls generalizing r m' t with
  | nil => exact ⟨r, m', rfl, rfl, rfl, by simpa using h⟩
  | cons call calls ih =>
    obtain ⟨r₁, m₁, happend, hcode, hwhat, hfirst⟩ := append_describes h call.1 call.2
    obtain ⟨r₂, m₂, hall, hcode', hwhat', hrest⟩ := ih hfirst
    refine ⟨r₂, m₂, ?_, hcode'.trans hcode, hwhat'.trans hwhat, ?_⟩
    · rw [appendAll, happend]
      exact hall
    · simpa using hrest

end Failure

/-- Whatever is written, a buffer holds a prefix of the whole text with its terminator and the writer
knows whether it is all there; and so does the description of a failure, whatever is appended. -/
theorem text_is_prefix :
    (∀ (m : Mem) (b c : ℕ) (h : 0 < c) (vs : List Value), ∃ w,
      (TextWriter.start m b c h).writeAll vs = .ok w ∧
        w.size = min (vs.map Value.text).flatten.length (c - 1) ∧
        Holds w.mem b ((vs.map Value.text).flatten.take (c - 1) ++ [0]) ∧
        Changes (span b c) m w.mem ∧
        (w.whole = true ↔ (vs.map Value.text).flatten.length ≤ c - 1)) ∧
    ∀ (m : Mem) (what : ℕ) (code : HResult) (f : Bytes) (args : List Value)
      (calls : List (Bytes × List Value)), ∃ r m₁ r' m',
      Failure.make m what code f args = .ok (r, m₁) ∧ r.appendAll m₁ calls = .ok (r', m') ∧
        r'.code = code ∧ r'.what = what ∧
        r'.size.toNat = min (((f, args) :: calls).map fun c => formatted c.1 c.2).flatten.length
          (descriptionSize - 1) ∧
        Holds m' what ((((f, args) :: calls).map fun c => formatted c.1 c.2).flatten.take
          (descriptionSize - 1) ++ [0]) ∧
        Changes (span what descriptionSize) m m' := by
  constructor
  · intro m b c h vs
    obtain ⟨w, hall, hcarries⟩ := TextWriter.writeAll_carries (TextWriter.start_carries m b h) vs
    exact ⟨w, hall, hcarries.size, hcarries.text, hcarries.inside, hcarries.whole⟩
  · intro m what code f args calls
    obtain ⟨r, m₁, hmake, rfl, rfl, hfirst⟩ := Failure.make_describes m what code f args
    obtain ⟨r', m', hall, hcode, hwhat, hrest⟩ := Failure.appendAll_describes hfirst calls
    refine ⟨r, m₁, r', m', hmake, hall, hcode, hwhat, hrest.size, ?_, ?_⟩
    · rw [← hwhat]
      exact hrest.text
    · rw [← hwhat]
      exact hrest.inside

/-- Three bytes of five fit. -/
theorem text_is_prefix_cut : ∃ w,
    (TextWriter.start (fun _ => 0) 0 4 (by decide)).writeAll [.char 0x21, .bool true] = .ok w ∧
      w.size = 3 ∧ Holds w.mem 0 (ascii "!tr" ++ [0]) ∧ w.whole = false := by
  obtain ⟨w, hall, hsize, htext, -, hwhole⟩ :=
    text_is_prefix.1 (fun _ => 0) 0 4 (by decide) [.char 0x21, .bool true]
  have hcut : ¬ ([.char 0x21, .bool true].map Value.text).flatten.length ≤ 4 - 1 := by decide
  have hfalse : w.whole = false := by
    rw [← Bool.not_eq_true, hwhole]
    exact hcut
  exact ⟨w, hall, hsize, htext, hfalse⟩

end IW4x.Gdk
