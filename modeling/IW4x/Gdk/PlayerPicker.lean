import IW4x.Lib.Runs
import IW4x.Gdk.PlayerIds
import IW4x.Gdk.Tokens

/-!
# Picking players

A pick keeps the prompt and the candidates that it is asked about. Its work shows them to the picker
that is installed, and keeps what the picker wrote of its choice. The game asks for the selection with
an array of its own and says how many players the array has room for.
-/

namespace IW4x.Gdk

open Runs RawMemory Hex

def promptCapacity : ℕ := 256

theorem promptCapacity_pos : 0 < promptCapacity := by decide

def maxCandidates : ℕ := 4096

/-- A `player_picker`. Of the prompt, the candidates and how many they are, the array for the choice
and how many it may be, it makes what is then in the array and how many it chose. -/
structure PlayerPicker where
  choose : Bytes → Bytes → ℕ → Bytes → ℕ → Bytes × ℕ
  inside : ∀ prompt candidates count chosen maximum,
    (choose prompt candidates count chosen maximum).1.length = chosen.length

/-- What `new` gives for a number of bytes. -/
abbrev NewArray : Type := (n : ℕ) → Option { a : Bytes // a.length = n }

/-- `pick_operation`. An ID has eight bytes. -/
structure PickOperation where
  prompt : Bytes
  candidates : Bytes
  count : ℕ
  maximum : ℕ
  chosen : Bytes
  chosenCount : ℕ
  listed : candidates.length = 8 * count
  held : 8 * chosenCount ≤ chosen.length

namespace PickOperation

theorem listed_read (m : Mem) (p n : ℕ) : (RawMemory.read m p (8 * n)).length = 8 * n := by
  simp [RawMemory.read]

def construct (prompt : Bytes) (xuids : Option ℕ) (count maximum : ℕ) (new : NewArray) (m : Mem) :
    Except Stop PickOperation :=
  match textOf m promptCapacity promptCapacity_pos braces [.view prompt] with
  | .error c => .error (.contract c)
  | .ok text =>
    if maxCandidates < count then .error (.contract .precondition)
    else if count = 0 then .ok ⟨text, [], 0, maximum, [], 0, rfl, le_rfl⟩
    else
      match xuids with
      | none => .error (.contract .precondition)
      | some p =>
        match new (8 * count) with
        | none => .error (.raised (raise E_OUTOFMEMORY
            (ascii "no room for " ++ braces ++ ascii " candidates")
            [.integral false (BitVec.ofNat 64 count) TokenOperation.word_fits]))
        | some _ => .ok ⟨text, RawMemory.read m p (8 * count), count, maximum, [], 0,
            listed_read m p count, le_rfl⟩

def chosenArray (new : NewArray) (maximum : ℕ) : Option { a : Bytes // a.length = 8 * maximum } :=
  if h : maximum = 0 then some ⟨[], by rw [h]; rfl⟩ else new (8 * maximum)

theorem held_choice {a b : Bytes} {maximum n : ℕ} (ha : a.length = 8 * maximum)
    (hb : b.length = a.length) : 8 * min n maximum ≤ b.length := by
  rw [hb, ha]
  exact Nat.mul_le_mul_left 8 (min_le_right _ _)

/-- `work`, with the picker that is installed, and the size that it answers. -/
def work (o : PickOperation) (picker : Option PlayerPicker) (new : NewArray) :
    Except Raised (PickOperation × ℕ) :=
  match picker with
  | none => .ok (o, 0)
  | some p =>
    match chosenArray new o.maximum with
    | none => .error (raise E_OUTOFMEMORY (ascii "no room for " ++ braces ++ ascii " choices")
        [.integral false (BitVec.ofNat 64 o.maximum) TokenOperation.word_fits])
    | some a =>
      .ok ({ o with
        chosen := (p.choose o.prompt o.candidates o.count a.1 o.maximum).1
        chosenCount := min (p.choose o.prompt o.candidates o.count a.1 o.maximum).2 o.maximum
        held := held_choice a.2 (p.inside _ _ _ _ _) },
        min (p.choose o.prompt o.candidates o.count a.1 o.maximum).2 o.maximum * 8)

def result (o : PickOperation) (size : BitVec 64) (buffer : Option ℕ) (m : Mem) :
    Except Raised Mem :=
  let n := o.chosenCount * 8
  if size.toNat < n then
    .error (raise insufficientBuffer
      (ascii "a " ++ braces ++ ascii " byte buffer holds none of a " ++ braces ++
        ascii " byte selection")
      [.integral false size TokenOperation.word_fits,
        .integral false (BitVec.ofNat 64 n) TokenOperation.word_fits])
  else if n ≠ 0 then
    match buffer with
    | none => .error (raise E_POINTER (ascii "no result pointer") [])
    | some d => .ok (RawMemory.write m d (o.chosen.take n))
  else .ok m

end PickOperation

/-- `show_player_picker_async`, up to `begin`. -/
def showPlayerPickerAsync (prompt : Option Bytes) (count : BitVec 32) (xuids : Option ℕ)
    (maximum : BitVec 32) (new : NewArray) (m : Mem) : Except Stop PickOperation :=
  let p := cString (prompt.getD [])
  if maxCandidates < count.toNat then
    .error (.raised (raise E_INVALIDARG (braces ++ ascii " candidates is more than a picker takes")
      [.integral false count dword_fits]))
  else
    PickOperation.construct p xuids (if xuids = none then 0 else count.toNat) maximum.toNat new m

/-- What a block stands for, to those who ask for a selection with it. -/
inductive PickBlock where
  /-- No pick, or one whose selection was taken. -/
  | unknown
  | running (o : PickOperation)
  | finished (status : HResult) (o : PickOperation)

/-- What a call answers, and what it leaves. -/
structure PickReply where
  code : HResult
  mem : Mem
  block : PickBlock

/-- `result`, of the asynchronous operations: `take_result` for a pick. -/
def takeSelection (size : BitVec 64) (buffer : Option ℕ) (m : Mem) : PickBlock → PickReply
  | .unknown => ⟨E_INVALIDARG, m, .unknown⟩
  | .running o => ⟨pending, m, .running o⟩
  | .finished status o =>
    if failed status then ⟨status, m, .unknown⟩
    else
      match o.result size buffer m with
      | .error r => ⟨r.code, m, .unknown⟩
      | .ok m => ⟨status, m, .unknown⟩

/-- `pending_operation`, and its `count`. -/
def PickBlock.count : PickBlock → Option ℕ
  | .unknown => none
  | .running o => some o.chosenCount
  | .finished _ o => some o.chosenCount

/-- `show_player_picker_result`, where the pick does not end in the middle of the call. What it raises
is the code that it answers. -/
def showPlayerPickerResult (b : PickBlock) (maximum : BitVec 32) (out number : Option ℕ) (m : Mem) :
    PickReply :=
  match b.count with
  | none => ⟨(raise E_INVALIDARG (ascii "not a player picker operation of ours") []).code, m, b⟩
  | some c =>
    let n := if c > maximum.toNat then maximum.toNat else c
    let r := takeSelection (BitVec.ofNat 64 (n * 8)) out m b
    if failed r.code then r
    else
      match number with
      | none => { r with code := (raise E_POINTER (ascii "no result pointer") []).code }
      | some d => { r with mem := RawMemory.write r.mem d (littleEndian 4 n) }

/-! ## Runs of a pick -/

inductive PickInput where
  /-- `perform`, with the picker that is installed by then. -/
  | work (picker : Option PlayerPicker) (new : NewArray)
  /-- The task of the pick is canceled. -/
  | cancel
  /-- `show_player_picker_result`, in the memory of the game. -/
  | ask (maximum : BitVec 32) (out number : Option ℕ) (m : Mem)

/-- A call of `show_player_picker_result` that has returned. -/
structure PickAnswer where
  maximum : BitVec 32
  out : Option ℕ
  number : Option ℕ
  before : Mem
  code : HResult
  after : Mem

inductive PickEvent where
  | chosen (picker : Option PlayerPicker) (o : PickOperation)
  | failed (code : HResult)
  | answered (x : PickAnswer)

namespace PickBlock

def step : Step PickBlock PickInput PickEvent := fun b input =>
  match input with
  | .ask maximum out number m =>
    let r := showPlayerPickerResult b maximum out number m
    some (r.block, [.answered ⟨maximum, out, number, m, r.code, r.mem⟩])
  | .work picker new =>
    match b with
    | .running o =>
      match o.work picker new with
      | .ok (o, _) => some (.finished S_OK o, [.chosen picker o])
      | .error r => some (.finished r.code o, [.failed r.code])
    | _ => none
  | .cancel =>
    match b with
    | .running o => some (.finished E_ABORT o, [.failed E_ABORT])
    | _ => none

end PickBlock

def PickOperation.Picks (o : PickOperation) (picker : Option PlayerPicker) (o' : PickOperation) :
    Prop :=
  match picker with
  | none => o' = o
  | some p => ∃ a, a.length = 8 * o.maximum ∧
      o'.chosen = (p.choose o.prompt o.candidates o.count a o.maximum).1 ∧
      o'.chosenCount = min (p.choose o.prompt o.candidates o.count a o.maximum).2 o.maximum

/-- The game has the selection: all of it, the number with it, and nothing else is changed. -/
structure PickAnswer.Whole (x : PickAnswer) (o : PickOperation) : Prop where
  room : o.chosenCount ≤ x.maximum.toNat
  number : ∃ n, x.number = some n ∧ word x.after n 4 = o.chosenCount ∧
    (x.out = none → o.chosenCount = 0 ∧ Changes (span n 4) x.before x.after) ∧
    ∀ d, x.out = some d → Disjoint (span d (8 * o.chosenCount)) (span n 4) →
      RawMemory.read x.after d (8 * o.chosenCount) = o.chosen.take (8 * o.chosenCount) ∧
        Changes (span d (8 * o.chosenCount) ∪ span n 4) x.before x.after

/-- The game has the selection, all of it and nothing else changed, but not the number: the call, which
had no pointer for that, has failed. -/
structure PickAnswer.Numberless (x : PickAnswer) (o : PickOperation) : Prop where
  code : x.code = E_POINTER
  number : x.number = none
  room : o.chosenCount ≤ x.maximum.toNat
  nowhere : x.out = none → o.chosenCount = 0 ∧ x.after = x.before
  somewhere : ∀ d, x.out = some d →
    RawMemory.read x.after d (8 * o.chosenCount) = o.chosen.take (8 * o.chosenCount) ∧
      Changes (span d (8 * o.chosenCount)) x.before x.after

/-! ## What the picker is shown -/

theorem construct_eq {prompt : Bytes} {xuids : Option ℕ} {count maximum : ℕ} {new : NewArray}
    {m : Mem} {o : PickOperation}
    (h : PickOperation.construct prompt xuids count maximum new m = .ok o) :
    o.prompt = text promptCapacity prompt ∧ o.maximum = maximum ∧ o.count = count ∧
      o.chosenCount = 0 ∧ ∀ p, xuids = some p → o.candidates = RawMemory.read m p (8 * count) := by
  have hprompt : formatted braces [.view prompt] = prompt :=
    formatted_last (f := []) (by decide) (.view prompt)
  rw [PickOperation.construct, textOf_eq m promptCapacity_pos (by decide), hprompt] at h
  dsimp only at h
  split_ifs at h with hmany hnone
  · rw [← Except.ok.inj h]
    refine ⟨rfl, rfl, hnone.symm, rfl, fun p _ => ?_⟩
    rw [hnone]
    rfl
  · split at h
    · cases h
    · rename_i p
      split at h
      · cases h
      · rw [← Except.ok.inj h]
        refine ⟨rfl, rfl, rfl, rfl, fun q hq => ?_⟩
        rw [Option.some.inj hq]

theorem work_picks {o o' : PickOperation} {picker : Option PlayerPicker} {new : NewArray} {k : ℕ}
    (h : o.work picker new = .ok (o', k)) : o.Picks picker o' := by
  cases picker with
  | none => exact (Prod.mk.inj (Except.ok.inj h)).1.symm
  | some p =>
    unfold PickOperation.work at h
    dsimp only at h
    split at h
    · cases h
    · rename_i a _
      rw [← (Prod.mk.inj (Except.ok.inj h)).1]
      exact ⟨a.1, a.2, rfl, rfl⟩

/-! ## What the game is given -/

/-- What the operation gives it gives whole. -/
theorem result_cases (o : PickOperation) (size : BitVec 64) (buffer : Option ℕ) (m : Mem) :
    (∃ r, o.result size buffer m = .error r ∧ failed r.code = true ∧ r.code ≠ pending) ∨
      o.chosenCount * 8 ≤ size.toNat ∧ ∃ m', o.result size buffer m = .ok m' ∧
        (buffer = none → o.chosenCount = 0 ∧ m' = m) ∧
        ∀ d, buffer = some d → m' = RawMemory.write m d (o.chosen.take (8 * o.chosenCount)) := by
  unfold PickOperation.result
  dsimp only
  split_ifs with hsmall hsome
  · exact .inl ⟨_, rfl, (by decide : failed insufficientBuffer = true),
      (by decide : insufficientBuffer ≠ pending)⟩
  · cases buffer with
    | none =>
      exact .inl ⟨_, rfl, (by decide : failed E_POINTER = true), (by decide : E_POINTER ≠ pending)⟩
    | some d =>
      refine .inr ⟨not_lt.mp hsmall, _, rfl, ?_, ?_⟩
      · intro h
        cases h
      · intro d' hd
        rw [Option.some.inj hd, Nat.mul_comm]
  · have hzero : o.chosenCount = 0 := by omega
    refine .inr ⟨not_lt.mp hsmall, m, rfl, fun _ => ⟨hzero, rfl⟩, ?_⟩
    intro d _
    rw [hzero, Nat.mul_zero, List.take_zero, write_nil]

theorem selection_length (o : PickOperation) :
    (o.chosen.take (8 * o.chosenCount)).length = 8 * o.chosenCount := by
  rw [List.length_take, min_eq_left o.held]

theorem selection_written (o : PickOperation) (d : ℕ) (m : Mem) :
    RawMemory.read (RawMemory.write m d (o.chosen.take (8 * o.chosenCount))) d
        (8 * o.chosenCount) = o.chosen.take (8 * o.chosenCount) ∧
      Changes (span d (8 * o.chosenCount)) m
        (RawMemory.write m d (o.chosen.take (8 * o.chosenCount))) := by
  constructor
  · have hread := (write_holds m d (o.chosen.take (8 * o.chosenCount))).read
    rwa [selection_length] at hread
  · exact write_within _ le_rfl (by rw [selection_length])

theorem PickAnswer.whole {o : PickOperation} {x : PickAnswer} {n : ℕ} {m : Mem}
    (hroom : o.chosenCount ≤ x.maximum.toNat) (hnumber : x.number = some n)
    (hnone : x.out = none → o.chosenCount = 0 ∧ m = x.before)
    (hsome : ∀ d, x.out = some d →
      m = RawMemory.write x.before d (o.chosen.take (8 * o.chosenCount)))
    (hafter : x.after = RawMemory.write m n (littleEndian 4 o.chosenCount)) : x.Whole o where
  room := hroom
  number := by
    have hheld := o.held
    have hsmall := x.maximum.isLt
    have hfour := littleEndian_length 4 o.chosenCount
    have hwrite : Changes (span n 4) m x.after := by
      rw [hafter]
      exact write_within m le_rfl (by rw [hfour])
    refine ⟨n, hnumber, ?_, ?_, ?_⟩
    · have hword : Holds x.after n (littleEndian 4 o.chosenCount) := by
        rw [hafter]
        exact write_holds m n _
      rw [hword.word]
      exact Nat.mod_eq_of_lt (by omega)
    · intro hout
      obtain ⟨hzero, rfl⟩ := hnone hout
      exact ⟨hzero, hwrite⟩
    · intro d hd hapart
      have hlength := selection_length o
      have hplaced : Holds m d (o.chosen.take (8 * o.chosenCount)) := by
        rw [hsome d hd]
        exact write_holds _ d _
      constructor
      · have hkept := hplaced.kept hwrite (by rw [hlength]; exact hapart.symm)
        have hread := hkept.read
        rwa [hlength] at hread
      · have hselection : Changes (span d (8 * o.chosenCount)) x.before m := by
          rw [hsome d hd]
          exact (selection_written o d x.before).2
        exact (hselection.mono Set.subset_union_left).trans (hwrite.mono Set.subset_union_right)

def Ended (status : HResult) : Prop := status = S_OK ∨ failed status = true ∧ status ≠ pending

/-- A call on a pick that has ended takes the selection, or loses it. -/
theorem ask_finished {status : HResult} (hstatus : Ended status) (o : PickOperation)
    (maximum : BitVec 32) (out number : Option ℕ) (m : Mem) :
    ∃ code mem, showPlayerPickerResult (.finished status o) maximum out number m =
        ⟨code, mem, .unknown⟩ ∧ code ≠ pending ∧
      (code = S_OK → status = S_OK ∧ PickAnswer.Whole ⟨maximum, out, number, m, code, mem⟩ o) ∧
      (code ≠ S_OK → mem = m ∨
        status = S_OK ∧ PickAnswer.Numberless ⟨maximum, out, number, m, code, mem⟩ o) := by
  have hsmall := maximum.isLt
  rcases hstatus with rfl | ⟨hfailed, hne⟩
  · generalize hn : (if o.chosenCount > maximum.toNat then maximum.toNat else o.chosenCount) = n
    have hle : n ≤ maximum.toNat ∧ n ≤ o.chosenCount := by
      rw [← hn]
      split_ifs <;> omega
    have hsize : (BitVec.ofNat 64 (n * 8)).toNat = n * 8 := by
      rw [BitVec.toNat_ofNat]
      exact Nat.mod_eq_of_lt (by omega)
    rcases result_cases o (BitVec.ofNat 64 (n * 8)) out m with
      ⟨r, hresult, hfailed, hne⟩ | ⟨hroom, m', hresult, hnone, hsome⟩
    · refine ⟨r.code, m, ?_, hne, ?_, fun _ => .inl rfl⟩
      · simp [showPlayerPickerResult, PickBlock.count, takeSelection, hn, hresult, hfailed]
      · intro hok
        rw [hok] at hfailed
        exact absurd hfailed (by decide)
    · obtain rfl : n = o.chosenCount := by
        rw [hsize] at hroom
        omega
      cases number with
      | none =>
        refine ⟨E_POINTER, m', ?_, by decide, fun hok => absurd hok (by decide), ?_⟩
        · simp [showPlayerPickerResult, PickBlock.count, takeSelection, hn, hresult, raise]
        · intro _
          refine .inr ⟨rfl, rfl, rfl, hle.1, hnone, fun d hd => ?_⟩
          rw [hsome d hd]
          exact selection_written o d m
      | some d =>
        refine ⟨S_OK, RawMemory.write m' d (littleEndian 4 o.chosenCount), ?_, by decide,
          fun _ => ⟨rfl, ?_⟩, fun hok => absurd rfl hok⟩
        · simp [showPlayerPickerResult, PickBlock.count, takeSelection, hn, hresult]
        · exact PickAnswer.whole hle.1 rfl hnone hsome rfl
  · have hask : showPlayerPickerResult (.finished status o) maximum out number m =
        ⟨status, m, .unknown⟩ := by
      simp only [showPlayerPickerResult, PickBlock.count, takeSelection, hfailed, if_true]
    refine ⟨status, m, hask, hne, ?_, fun _ => .inl rfl⟩
    intro hok
    rw [hok] at hfailed
    exact absurd hfailed (by decide)

theorem ask_running (o : PickOperation) (maximum : BitVec 32) (out number : Option ℕ) (m : Mem) :
    showPlayerPickerResult (.running o) maximum out number m = ⟨pending, m, .running o⟩ := by
  have hfailed : failed pending = true := by decide
  simp only [showPlayerPickerResult, PickBlock.count, takeSelection, hfailed, if_true]

theorem ask_unknown (maximum : BitVec 32) (out number : Option ℕ) (m : Mem) :
    showPlayerPickerResult .unknown maximum out number m = ⟨E_INVALIDARG, m, .unknown⟩ := by
  simp only [showPlayerPickerResult, PickBlock.count, raise]

/-! ## Whole runs -/

namespace PickBlock

/-- Some call has been answered for good. -/
def Over (tr : List PickEvent) : Prop := ∃ x, .answered x ∈ tr ∧ x.code ≠ pending

/-- What an answer is, after what is known by then. -/
structure Accounted (o : PickOperation) (tr : List PickEvent) (x : PickAnswer) : Prop where
  once : Over tr → x.code = E_INVALIDARG ∧ x.after = x.before
  whole : x.code = S_OK → ∃ picker o', .chosen picker o' ∈ tr ∧ o.Picks picker o' ∧ x.Whole o'
  untouched : x.code ≠ S_OK → x.after = x.before ∨
    ∃ picker o', .chosen picker o' ∈ tr ∧ o.Picks picker o' ∧ x.Numberless o'

def Stands (o : PickOperation) (tr : List PickEvent) : PickBlock → Prop
  | .unknown => True
  | .running o' => o' = o ∧ ¬ Over tr
  | .finished status o' => ¬ Over tr ∧ Ended status ∧
      (status = S_OK → ∃ picker, .chosen picker o' ∈ tr ∧ o.Picks picker o')

theorem not_over_append {tr ev : List PickEvent} (h : ¬ Over tr) (hev : ¬ Over ev) :
    ¬ Over (tr ++ ev) := by
  rintro ⟨x, hx, hcode⟩
  rcases List.mem_append.mp hx with hx | hx
  · exact h ⟨x, hx, hcode⟩
  · exact hev ⟨x, hx, hcode⟩

theorem not_over_singleton {e : PickEvent} (h : ∀ x, e = .answered x → x.code = pending) :
    ¬ Over [e] := by
  rintro ⟨x, hx, hcode⟩
  exact hcode (h x (List.mem_singleton.mp hx).symm)

/-- A call, in the middle of a run. -/
theorem ask_step {o : PickOperation} {tr : List PickEvent} {b : PickBlock} (h : Stands o tr b)
    (maximum : BitVec 32) (out number : Option ℕ) (m : Mem) :
    ∃ code mem b', showPlayerPickerResult b maximum out number m = ⟨code, mem, b'⟩ ∧
      Accounted o tr ⟨maximum, out, number, m, code, mem⟩ ∧
      Stands o (tr ++ [.answered ⟨maximum, out, number, m, code, mem⟩]) b' := by
  cases b with
  | unknown =>
    refine ⟨_, _, _, ask_unknown .., ⟨fun _ => ⟨rfl, rfl⟩, ?_, fun _ => .inl rfl⟩, trivial⟩
    exact fun hok => absurd hok (by decide : E_INVALIDARG ≠ S_OK)
  | running o' =>
    obtain ⟨rfl, hnot⟩ := h
    refine ⟨_, _, _, ask_running .., ⟨fun hover => absurd hover hnot, ?_, fun _ => .inl rfl⟩, rfl, ?_⟩
    · exact fun hok => absurd hok (by decide : pending ≠ S_OK)
    · apply not_over_append hnot
      apply not_over_singleton
      intro x hx
      rw [← PickEvent.answered.inj hx]
  | finished status o' =>
    obtain ⟨hnot, hstatus, hchosen⟩ := h
    obtain ⟨code, mem, hask, -, hok, huntouched⟩ := ask_finished hstatus o' maximum out number m
    refine ⟨code, mem, .unknown, hask, ⟨fun hover => absurd hover hnot, ?_, ?_⟩, trivial⟩
    · intro hcode
      obtain ⟨hstatus, hwhole⟩ := hok hcode
      obtain ⟨picker, hmem, hpicks⟩ := hchosen hstatus
      exact ⟨picker, o', hmem, hpicks, hwhole⟩
    · intro hcode
      rcases huntouched hcode with hsame | ⟨hstatus, hnumberless⟩
      · exact .inl hsame
      · obtain ⟨picker, hmem, hpicks⟩ := hchosen hstatus
        exact .inr ⟨picker, o', hmem, hpicks, hnumberless⟩

theorem work_failed {o : PickOperation} {picker : Option PlayerPicker} {new : NewArray} {r : Raised}
    (h : o.work picker new = .error r) : failed r.code = true ∧ r.code ≠ pending := by
  unfold PickOperation.work at h
  split at h
  · cases h
  · split at h
    · rw [← Except.error.inj h]
      exact ⟨(by decide : failed E_OUTOFMEMORY = true), (by decide : E_OUTOFMEMORY ≠ pending)⟩
    · cases h

theorem stands_step {o : PickOperation} {tr ev : List PickEvent} {b b' : PickBlock}
    {input : PickInput} (h : Stands o tr b) (hstep : step b input = some (b', ev)) :
    Stands o (tr ++ ev) b' ∧ ∀ x, .answered x ∈ ev → ev = [.answered x] ∧ Accounted o tr x := by
  cases input with
  | ask maximum out number m =>
    obtain ⟨code, mem, b₁, hask, haccounted, hstands⟩ := ask_step h maximum out number m
    simp only [step, hask] at hstep
    obtain ⟨rfl, rfl⟩ := Prod.mk.inj (Option.some.inj hstep)
    refine ⟨hstands, fun x hx => ?_⟩
    obtain rfl := PickEvent.answered.inj (List.mem_singleton.mp hx)
    exact ⟨rfl, haccounted⟩
  | work picker new =>
    cases b with
    | unknown => cases hstep
    | finished status o' => cases hstep
    | running o' =>
      obtain ⟨rfl, hnot⟩ := h
      cases hwork : o'.work picker new with
      | error r =>
        simp only [step, hwork] at hstep
        obtain ⟨rfl, rfl⟩ := Prod.mk.inj (Option.some.inj hstep)
        obtain ⟨hfailed, hne⟩ := work_failed hwork
        refine ⟨⟨not_over_append hnot (not_over_singleton (by simp)), .inr ⟨hfailed, hne⟩, ?_⟩,
          by simp⟩
        intro hok
        rw [hok] at hfailed
        exact absurd hfailed (by decide)
      | ok r =>
        simp only [step, hwork] at hstep
        obtain ⟨rfl, rfl⟩ := Prod.mk.inj (Option.some.inj hstep)
        refine ⟨⟨not_over_append hnot (not_over_singleton (by simp)), .inl rfl, fun _ => ?_⟩,
          by simp⟩
        exact ⟨picker, List.mem_append_right _ List.mem_cons_self, work_picks hwork⟩
  | cancel =>
    cases b with
    | unknown => cases hstep
    | finished status o' => cases hstep
    | running o' =>
      obtain ⟨rfl, hnot⟩ := h
      obtain ⟨rfl, rfl⟩ := Prod.mk.inj (Option.some.inj hstep)
      refine ⟨⟨not_over_append hnot (not_over_singleton (by simp)), ?_, ?_⟩, by simp⟩
      · exact .inr ⟨by decide, by decide⟩
      · exact fun hok => absurd hok (by decide)

/-- A selection is handed over whole or not at all, and once at most. With it comes its number, but for
a call without a pointer for that, which fails. -/
theorem selections_whole {prompt : Option Bytes} {count maximum : BitVec 32} {xuids : Option ℕ}
    {new : NewArray} {m₀ : Mem} {o : PickOperation} {tr : List PickEvent} {b : PickBlock}
    (hstart : showPlayerPickerAsync prompt count xuids maximum new m₀ = .ok o)
    (h : Reaches step always (.running o) tr b) :
    (o.prompt = (cString (prompt.getD [])).take 255 ∧ o.maximum = maximum.toNat ∧
      ∀ p, xuids = some p → o.count = count.toNat ∧ count.toNat ≤ maxCandidates ∧
        o.candidates = RawMemory.read m₀ p (8 * count.toNat)) ∧
    ∀ before x after, tr = before ++ .answered x :: after →
      (x.code ≠ pending → ∀ y, .answered y ∈ after → y.code = E_INVALIDARG ∧ y.after = y.before) ∧
      (x.code = S_OK → ∃ picker o', .chosen picker o' ∈ before ∧ o.Picks picker o' ∧ x.Whole o') ∧
      (x.code ≠ S_OK → x.after = x.before ∨
        ∃ picker o', .chosen picker o' ∈ before ∧ o.Picks picker o' ∧ x.Numberless o') := by
  constructor
  · simp only [showPlayerPickerAsync] at hstart
    split_ifs at hstart with hmany hnull
    · obtain ⟨hprompt, hmaximum, -, -⟩ := construct_eq hstart
      exact ⟨hprompt, hmaximum, fun p hp => by rw [hnull] at hp; cases hp⟩
    · obtain ⟨hprompt, hmaximum, hcount, -, hread⟩ := construct_eq hstart
      exact ⟨hprompt, hmaximum, fun p hp => ⟨hcount, not_lt.mp hmany, hread p hp⟩⟩
  · have hrun : Stands o tr b ∧
        ∀ a e c, tr = a ++ e :: c → ∀ x, e = .answered x → Accounted o a x := by
      refine h.invariant (P := fun tr b => Stands o tr b ∧
        ∀ a e c, tr = a ++ e :: c → ∀ x, e = .answered x → Accounted o a x) ?_ ?_
      · constructor
        · constructor
          · rfl
          · rintro ⟨x, hx, -⟩
            cases hx
        · simp
      · rintro tr b input b' ev ⟨hstands, hall⟩ - hstep
        obtain ⟨hstands', hanswer⟩ := stands_step hstands hstep
        refine ⟨hstands', split_append hall ?_⟩
        rintro a e c hev x rfl
        obtain ⟨hsingle, haccounted⟩ := hanswer x (by rw [hev]; simp)
        obtain rfl : a = [] := by
          rw [hsingle] at hev
          cases a with
          | nil => rfl
          | cons e' a =>
            have hlength := congrArg List.length hev
            simp at hlength
        rwa [List.append_nil]
    rintro before x after rfl
    obtain ⟨-, hall⟩ := hrun
    obtain ⟨-, hwhole, huntouched⟩ := hall before _ after rfl x rfl
    refine ⟨fun hcode y hy => ?_, hwhole, huntouched⟩
    obtain ⟨c, d, rfl⟩ := List.append_of_mem hy
    have hy := hall (before ++ .answered x :: c) _ d (by simp) y rfl
    exact hy.once ⟨x, by simp, hcode⟩

def firstCandidate : PlayerPicker where
  choose _ candidates _ chosen _ := ((candidates ++ chosen).take chosen.length, 1)
  inside := by simp

def plentiful : NewArray := fun n => some ⟨List.replicate n 0, List.length_replicate⟩

/-- The game has two candidates at the start of its memory. -/
def candidateMemory : Mem := fun x => if x = 0 then 7 else 0

def twoCandidates : PickOperation :=
  ⟨[], RawMemory.read candidateMemory 0 16, 2, 1, [], 0, rfl, le_rfl⟩

theorem selections_whole_first : ∃ x : PickAnswer, x.code = S_OK ∧
    ∃ picker o', twoCandidates.Picks picker o' ∧ x.Whole o' := by
  have hstart : showPlayerPickerAsync none 2 (some 0) 1 plentiful candidateMemory =
      .ok twoCandidates := by
    have htext : textOf candidateMemory promptCapacity promptCapacity_pos braces [.view []] =
        .ok [] := by
      rw [textOf_eq _ promptCapacity_pos (by decide)]
      rfl
    have hprompt : cString (Option.getD none []) = [] := rfl
    simp only [showPlayerPickerAsync, PickOperation.construct, hprompt, htext]
    rfl
  have hwork : ∃ o k, twoCandidates.work (some firstCandidate) plentiful = .ok (o, k) ∧
      o.chosenCount = 1 := ⟨_, _, rfl, rfl⟩
  obtain ⟨o, k, hwork, hone⟩ := hwork
  have hchosen : step (.running twoCandidates) (.work (some firstCandidate) plentiful) =
      some (.finished S_OK o, [.chosen (some firstCandidate) o]) := by
    simp only [step, hwork]
  have hask : ∃ mem, showPlayerPickerResult (.finished S_OK o) 1 (some 256) (some 512)
      candidateMemory = ⟨S_OK, mem, .unknown⟩ := by
    refine ⟨RawMemory.write (RawMemory.write candidateMemory 256 (o.chosen.take 8)) 512
      (littleEndian 4 1), ?_⟩
    simp [showPlayerPickerResult, PickBlock.count, takeSelection, PickOperation.result, hone]
  obtain ⟨mem, hask⟩ := hask
  have hanswer : step (.finished S_OK o) (.ask 1 (some 256) (some 512) candidateMemory) =
      some (.unknown, [.answered ⟨1, some 256, some 512, candidateMemory, S_OK, mem⟩]) := by
    simp only [step, hask]
  have hrun : Reaches step always (.running twoCandidates) _ _ :=
    Reaches.next (Reaches.next .start trivial hchosen) trivial hanswer
  obtain ⟨-, hall⟩ := selections_whole hstart hrun
  obtain ⟨-, hwhole, -⟩ := hall [.chosen (some firstCandidate) o] _ [] rfl
  obtain ⟨picker, o', -, hpicks, hdone⟩ := hwhole rfl
  exact ⟨_, rfl, picker, o', hpicks, hdone⟩

end PickBlock

end IW4x.Gdk
