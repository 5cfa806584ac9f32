import IW4x.Contracts.Rules
import IW4x.Gdk.PathBuffer

/-!
# Paths and their invariant

The operations on a path as the source writes them, over an array, a size and a flag that may be
anything, with the invariant that the source checks where an operation starts and where it ends. No
sequence of operations violates it, and each comes to what it comes to on the paths that cannot be
built without it.
-/

namespace IW4x.Gdk

open Contracts Scopes Unicode

/-- The members of a `path`. -/
structure RawPath where
  /-- `value_`. -/
  value : Wide
  /-- `size_`. -/
  size : ℕ
  /-- `truncated_`. -/
  truncated : Bool

def PathBuffer.toRaw (p : PathBuffer) : RawPath := ⟨p.value, p.size, p.truncated⟩

namespace RawPath

/-- The expression that the source checks. -/
def sound (p : RawPath) : Bool := decide (p.size < 512) && decide (p.value[p.size]? = some 0)

/-- Where the check in a function of the source stands. -/
def site (function : String) (line : ℕ) : Site :=
  ⟨"path.cxx".toList, function.toList, "size_ < capacity && value_[size_] == L'\\0'".toList, line⟩

/-- Nothing. -/
def skip : Checked RawPath Empty := .act fun p => (p, none)

/-- `extend`, with so many wide characters. -/
def extendUnits (w : Option Wide) : Checked RawPath Empty :=
  .sealing (.invariant (site "extend" 22) sound (.act fun p =>
    (match w with
    | none => p
    | some w =>
      if w.length = 0 then p
      else
        let room := 512 - p.size - 1
        let n := if w.length > room then room else w.length
        { value := overwrite (overwrite p.value p.size (w.take n)) (p.size + n) [0]
          size := p.size + n
          truncated := p.truncated || decide (w.length > room) }, none)))

def extend (w : Option Wide) : Checked RawPath Empty :=
  .sealing (match w with
    | none => skip
    | some w => extendUnits (some (wideString w)))

/-- `extend`, with a text in UTF-8. -/
def extendText (conv : Conversion) (t : Bytes) : Checked RawPath Empty :=
  .sealing (if t = [] then skip
    else
      match conv.call t (BitVec.ofNat 32 t.length).toInt 512 with
      | none => .act fun p => ({ p with truncated := true }, none)
      | some [] => .act fun p => ({ p with truncated := true }, none)
      | some w => extendUnits (some w))

/-- The last unit is there, and is no separator. -/
def inName (p : RawPath) : Bool := decide (p.size ≠ 0 ∧ p.value[p.size - 1]? ≠ some backslash)

/-- The last unit is a separator, and not the first unit. -/
def atSeparator (p : RawPath) : Bool := decide (p.size > 1 ∧ p.value[p.size - 1]? = some backslash)

/-- The separator that `append` puts first. -/
def separated : Checked RawPath Empty := .branch inName (extendUnits (some [backslash])) skip

def append (w : Option Wide) : Checked RawPath Empty := .sealing (.seq separated (extend w))

/-- `append`, with a text in UTF-8. -/
def appendText (conv : Conversion) (t : Bytes) : Checked RawPath Empty :=
  .sealing (.seq separated (extendText conv t))

def clear : Checked RawPath Empty :=
  .sealing (.act fun p =>
    ({ value := overwrite p.value 0 [0], size := 0, truncated := false }, none))

/-- The body of both loops of `to_directory`. -/
def shorten : Checked RawPath Empty := .act fun p => ({ p with size := p.size - 1 }, none)

def toDirectory : Checked RawPath Empty :=
  .sealing (.invariant (site "to_directory" 95) sound
    (.seq (.loop size inName shorten)
      (.seq (.loop size atSeparator shorten)
        (.act fun p => ({ p with value := overwrite p.value p.size [0] }, none)))))

end RawPath

/-- The operation as the source writes it. -/
def PathOp.checked (conv : Conversion) : PathOp → Checked RawPath Empty
  | .extend w => RawPath.extend w
  | .extendUnits w => RawPath.extendUnits w
  | .extendText t => RawPath.extendText conv t
  | .append w => RawPath.append w
  | .appendText t => RawPath.appendText conv t
  | .clear => RawPath.clear
  | .toDirectory => RawPath.toDirectory

/-- Operations one after the other. -/
def checkedPath (conv : Conversion) : List PathOp → Checked RawPath Empty
  | [] => RawPath.skip
  | op :: ops => .seq (op.checked conv) (checkedPath conv ops)

section

variable {current : RawPath → Option Contracts.Handler} {l : Level}

theorem PathBuffer.toRaw_sound (p : PathBuffer) : p.toRaw.sound = true := by
  simp [RawPath.sound, PathBuffer.toRaw, p.fits, p.ended]

/-- The function takes the one path to the other, meets its checks and throws nothing. -/
def Takes (current : RawPath → Option Contracts.Handler) (l : Level) (p : PathBuffer)
    (c : Checked RawPath Empty) (q : PathBuffer) : Prop :=
  Meets current l (· = p.toRaw) c (· = q.toRaw) fun _ _ => False

theorem Takes.skip (p : PathBuffer) : Takes current l p RawPath.skip p := Meets.act fun _ h => h

theorem Takes.seq {p q r : PathBuffer} {c d : Checked RawPath Empty} (h : Takes current l p c q)
    (h' : Takes current l q d r) : Takes current l p (.seq c d) r :=
  Meets.seq h h'

theorem Takes.sealing {p q : PathBuffer} {c : Checked RawPath Empty} (h : Takes current l p c q) :
    Takes current l p (.sealing c) q :=
  Meets.sealing h

theorem Takes.invariant {p q : PathBuffer} {v : Site} {c : Checked RawPath Empty}
    (h : Takes current l p c q) : Takes current l p (.invariant v RawPath.sound c) q := by
  apply Meets.invariant _ _ h
  · rintro s rfl
    exact p.toRaw_sound
  · rintro s rfl
    exact q.toRaw_sound

theorem takes_extendUnits (p : PathBuffer) (w : Option Wide) :
    Takes current l p (RawPath.extendUnits w) (p.extendUnits w).1 := by
  apply Takes.sealing
  apply Takes.invariant
  apply Meets.act
  rintro s rfl
  cases w with
  | none => rfl
  | some w =>
    by_cases hempty : w.length = 0
    · simp only [PathBuffer.extendUnits, PathBuffer.toRaw, if_pos hempty]
    · simp only [PathBuffer.extendUnits, PathBuffer.toRaw, if_neg hempty]
      rfl

theorem takes_extend (p : PathBuffer) (w : Option Wide) :
    Takes current l p (RawPath.extend w) (p.extend w).1 := by
  apply Takes.sealing
  cases w with
  | none => exact .skip p
  | some w => exact takes_extendUnits p _

theorem takes_extendText (conv : Conversion) (p : PathBuffer) (t : Bytes) :
    Takes current l p (RawPath.extendText conv t) (p.extendText conv t).1 := by
  apply Takes.sealing
  unfold PathBuffer.extendText
  split_ifs with hempty
  · exact .skip p
  · cases conv.call t (BitVec.ofNat 32 t.length).toInt 512 with
    | none => exact Meets.act fun s hs => by rw [hs]; rfl
    | some w =>
      cases w with
      | nil => exact Meets.act fun s hs => by rw [hs]; rfl
      | cons u us => exact takes_extendUnits p _

theorem takes_separated (p : PathBuffer) : Takes current l p RawPath.separated p.separated := by
  apply Meets.branch
  · rintro s rfl hs
    have hinName : p.size ≠ 0 ∧ p.value[p.size - 1]? ≠ some backslash := of_decide_eq_true hs
    rw [PathBuffer.separated, if_pos hinName]
    exact takes_extendUnits p _
  · rintro s rfl hs
    have hnot : ¬ (p.size ≠ 0 ∧ p.value[p.size - 1]? ≠ some backslash) := of_decide_eq_false hs
    rw [PathBuffer.separated, if_neg hnot]
    exact Takes.skip p

theorem takes_append (p : PathBuffer) (w : Option Wide) :
    Takes current l p (RawPath.append w) (p.append w).1 :=
  ((takes_separated p).seq (takes_extend _ w)).sealing

theorem takes_appendText (conv : Conversion) (p : PathBuffer) (t : Bytes) :
    Takes current l p (RawPath.appendText conv t) (p.appendText conv t).1 :=
  ((takes_separated p).seq (takes_extendText conv _ t)).sealing

theorem takes_clear (p : PathBuffer) : Takes current l p RawPath.clear p.clear :=
  (Meets.act fun s hs => by rw [hs]; rfl : Takes current l p _ p.clear).sealing

/-- The loops of `to_directory` change nothing but the size. -/
def Shortened (p : PathBuffer) (count : ℕ → ℕ) (n : ℕ) (s : RawPath) : Prop :=
  s.value = p.value ∧ s.truncated = p.truncated ∧ count s.size = n

theorem meets_shorten (p : PathBuffer) (cond : RawPath → Bool) (count : ℕ → ℕ) (n : ℕ)
    (more : ∀ s : RawPath, s.value = p.value → cond s = true → s.size ≠ 0 ∧
      count (s.size - 1) = count s.size) :
    Meets current l (Shortened p count n) (.loop RawPath.size cond RawPath.shorten)
      (fun s => Shortened p count n s ∧ cond s = false) fun _ _ => False := by
  apply Meets.loop RawPath.size
  · rintro s ⟨hvalue, -, -⟩ hs
    exact Nat.pos_of_ne_zero (more s hvalue hs).1
  · exact fun s _ => le_rfl
  · intro k
    apply Meets.act
    rintro s ⟨⟨hvalue, hcut, hcount⟩, hs, rfl⟩
    obtain ⟨hsize, hstep⟩ := more s hvalue hs
    exact ⟨⟨hvalue, hcut, hstep.trans hcount⟩, by dsimp only; omega⟩

theorem toSeparator_step (v : Wide) {n : ℕ} (hn : n ≠ 0) (h : v[n - 1]? ≠ some backslash) :
    PathBuffer.toSeparator v (n - 1) = PathBuffer.toSeparator v n := by
  cases n with
  | zero => exact absurd rfl hn
  | succ n => exact (if_pos h).symm

theorem toSeparator_end (v : Wide) {n : ℕ} (h : ¬ (n ≠ 0 ∧ v[n - 1]? ≠ some backslash)) :
    PathBuffer.toSeparator v n = n := by
  cases n with
  | zero => rfl
  | succ n => exact if_neg fun hunit => h ⟨n.succ_ne_zero, hunit⟩

theorem dropSeparators_step (v : Wide) {n : ℕ} (hn : n > 1) (h : v[n - 1]? = some backslash) :
    PathBuffer.dropSeparators v (n - 1) = PathBuffer.dropSeparators v n := by
  match n, hn with
  | n + 2, _ => exact (if_pos h).symm

theorem dropSeparators_end (v : Wide) {n : ℕ} (h : ¬ (n > 1 ∧ v[n - 1]? = some backslash)) :
    PathBuffer.dropSeparators v n = n := by
  match n with
  | 0 => rfl
  | 1 => rfl
  | n + 2 => exact if_neg fun hunit => h ⟨by omega, hunit⟩

theorem takes_toDirectory (p : PathBuffer) :
    Takes current l p RawPath.toDirectory p.toDirectory := by
  let m := PathBuffer.toSeparator p.value p.size
  apply Takes.sealing
  apply Takes.invariant
  apply Meets.seq (R := Shortened p id m)
  · apply (meets_shorten p RawPath.inName (PathBuffer.toSeparator p.value) m _).conseq
    · rintro s rfl
      exact ⟨rfl, rfl, rfl⟩
    · rintro s ⟨⟨hvalue, hcut, hcount⟩, hs⟩
      have hend := of_decide_eq_false hs
      rw [hvalue] at hend
      exact ⟨hvalue, hcut, (toSeparator_end p.value hend).symm.trans hcount⟩
    · intro s hvalue hs
      obtain ⟨hsize, hunit⟩ := of_decide_eq_true hs
      rw [hvalue] at hunit
      exact ⟨hsize, toSeparator_step p.value hsize hunit⟩
  · apply Meets.seq (R := Shortened p id (PathBuffer.dropSeparators p.value m))
    · apply (meets_shorten p RawPath.atSeparator (PathBuffer.dropSeparators p.value) _ _).conseq
      · rintro s ⟨hvalue, hcut, hsize⟩
        exact ⟨hvalue, hcut, congrArg _ hsize⟩
      · rintro s ⟨⟨hvalue, hcut, hcount⟩, hs⟩
        have hend := of_decide_eq_false hs
        rw [hvalue] at hend
        exact ⟨hvalue, hcut, (dropSeparators_end p.value hend).symm.trans hcount⟩
      · intro s hvalue hs
        obtain ⟨hsize, hunit⟩ := of_decide_eq_true hs
        rw [hvalue] at hunit
        exact ⟨by omega, dropSeparators_step p.value hsize hunit⟩
    · apply Meets.act
      rintro ⟨v, n, cut⟩ ⟨rfl, rfl, hsize⟩
      obtain rfl : n = _ := hsize
      rfl

theorem takes_op (conv : Conversion) (p : PathBuffer) (op : PathOp) :
    Takes current l p (op.checked conv) (op.run conv p) := by
  cases op with
  | extend w => exact takes_extend p w
  | extendUnits w => exact takes_extendUnits p w
  | extendText t => exact takes_extendText conv p t
  | append w => exact takes_append p w
  | appendText t => exact takes_appendText conv p t
  | clear => exact takes_clear p
  | toDirectory => exact takes_toDirectory p

theorem takes_ops (conv : Conversion) (p : PathBuffer) (ops : List PathOp) :
    Takes current l p (checkedPath conv ops) (runPath conv p ops) := by
  induction ops generalizing p with
  | nil => exact .skip p
  | cons op ops ih => exact (takes_op conv p op).seq (ih _)

/-- Whatever is done with a path, at every checking level, with any handler and wherever it is called
from: no invariant is violated, nothing is thrown, and the array, the size and the flag are those of
the paths that cannot be built without the invariant. -/
theorem paths_keep_invariant (current : RawPath → Option Contracts.Handler) (l : Level)
    (conv : Conversion) (garbage : Wide) (hgarbage : garbage.length = 512) (ops : List PathOp) (u : ℕ) :
    (expand current l (checkedPath conv ops)).exec u (PathBuffer.empty garbage hgarbage).toRaw =
      .normal (runPath conv (.empty garbage hgarbage) ops).toRaw := by
  have htakes : Takes current l (.empty garbage hgarbage) (checkedPath conv ops)
      (runPath conv (.empty garbage hgarbage) ops) := takes_ops conv _ ops
  obtain ⟨hsaid, hout⟩ := htakes u _ rfl
  cases hr : (expand current l (checkedPath conv ops)).exec u
      (PathBuffer.empty garbage hgarbage).toRaw with
  | mk o said =>
    rw [hr] at hsaid hout
    cases o with
    | normal t =>
      obtain rfl : t = _ := hout
      obtain rfl : said = [] := List.eq_nil_iff_forall_not_mem.mpr hsaid
      rfl
    | thrown t e => exact hout.elim
    | ended e => exact hout.elim

theorem paths_keep_invariant_name :
    (expand (fun _ => none) .audit (checkedPath (.ofConvert fun _ => 1)
      [.append (some (wide "a")), .toDirectory])).exec 0
        (PathBuffer.empty (List.replicate 512 0) List.length_replicate).toRaw =
      .normal (runPath (.ofConvert fun _ => 1) (.empty (List.replicate 512 0) List.length_replicate)
        [.append (some (wide "a")), .toDirectory]).toRaw :=
  paths_keep_invariant (fun _ => none) .audit _ _ List.length_replicate _ 0

end

end IW4x.Gdk
