import IW4x.Gdk.Identity

/-!
# Reading and writing files

The calls of the system transfer as many bytes as they like, up to what they are asked for. `read` and
`write` ask again for what is left, at most 2^28 bytes at a time, until all is there or a call fails
or transfers nothing.
-/

namespace IW4x.Gdk

open RawMemory Hex

/-- `INVALID_HANDLE_VALUE`. -/
def invalidHandle : BitVec 64 := BitVec.allOnes 64

structure File where
  handle : BitVec 64

def File.opened (f : File) : Bool := f.handle ≠ invalidHandle

/-- A call of the system that transfers up to so many bytes from or to an address. It answers with
their number, or fails. -/
abbrev Transfer (σ : Type) := σ → ℕ → (c : BitVec 32) → σ × Option { r : BitVec 32 // r ≤ c }

/-- `ReadFile` and `WriteFile`, for a handle. The state has the files, the memory and whatever else the
answers depend on. -/
structure FileCalls (σ : Type) where
  readFile : BitVec 64 → Transfer σ
  writeFile : BitVec 64 → Transfer σ

/-- A call that was made, with its answer. -/
structure Request where
  /-- The address that the slice begins at. -/
  p : ℕ
  /-- The bytes asked for. -/
  c : BitVec 32
  r : Option (BitVec 32)

/-- How many bytes are asked for, of those that are left. -/
def chunk (n : BitVec 64) : BitVec 32 := (if n > 0x10000000 then 0x10000000 else n).setWidth 32

theorem chunk_toNat (n : BitVec 64) : (chunk n).toNat = min n.toNat 0x10000000 := by
  have hlimit : n > 0x10000000 ↔ 0x10000000 < n.toNat := by
    rw [gt_iff_lt, BitVec.lt_def]
    rfl
  rw [chunk, BitVec.toNat_setWidth]
  simp only [hlimit]
  split_ifs with hlong
  · rw [Nat.min_eq_right hlong.le]
    rfl
  · rw [Nat.min_eq_left (not_lt.mp hlong)]
    exact Nat.mod_eq_of_lt (by omega)

theorem left_toNat {n : BitVec 64} {r : BitVec 32} (hr : r ≤ chunk n) :
    r.toNat ≤ n.toNat ∧ (n - r.setWidth 64).toNat = n.toNat - r.toNat := by
  have hle : r.toNat ≤ (chunk n).toNat := hr
  rw [chunk_toNat] at hle
  have hwide : (r.setWidth 64).toNat = r.toNat := by
    rw [BitVec.toNat_setWidth]
    exact Nat.mod_eq_of_lt (by omega)
  refine ⟨by omega, ?_⟩
  rw [BitVec.toNat_sub_of_le (by rw [BitVec.le_def, hwide]; omega), hwide]

variable {σ : Type}

/-- The loop of both `read` and `write`, with the calls that it makes. -/
def transfer (call : Transfer σ) (s : σ) (p : ℕ) (n : BitVec 64) : σ × List Request × Bool :=
  if _h : n = 0 then (s, [], true)
  else
    match call s p (chunk n) with
    | (s, none) => (s, [⟨p, chunk n, none⟩], false)
    | (s, some r) =>
      if _hr : r.val = 0 then (s, [⟨p, chunk n, some r⟩], false)
      else
        let rest := transfer call s (p + r.val.toNat) (n - r.val.setWidth 64)
        (rest.1, ⟨p, chunk n, some r⟩ :: rest.2.1, rest.2.2)
termination_by n.toNat
decreasing_by
  have hleft := left_toNat r.property
  have hpos : r.val.toNat ≠ 0 := fun hzero => _hr (BitVec.eq_of_toNat_eq hzero)
  omega

namespace File

def read (f : File) (calls : FileCalls σ) (s : σ) (b : ℕ) (n : BitVec 64) :
    Except Contract (σ × List Request × Bool) := do
  require .precondition (f.opened = true)
  require .precondition (b ≠ 0 ∨ n = 0)
  return transfer (calls.readFile f.handle) s b n

def write (f : File) (calls : FileCalls σ) (s : σ) (b : ℕ) (n : BitVec 64) :
    Except Contract (σ × List Request × Bool) := do
  require .precondition (f.opened = true)
  require .precondition (b ≠ 0 ∨ n = 0)
  return transfer (calls.writeFile f.handle) s b n

end File

/-! ## What a transfer does -/

/-- The calls are those that the system answers, one after the other. -/
inductive Requested (call : Transfer σ) : σ → List Request → σ → Prop
  | nil {s : σ} : Requested call s [] s
  | cons {s s₁ s' : σ} {p : ℕ} {c : BitVec 32} {r : Option { r : BitVec 32 // r ≤ c }}
      {cs : List Request} (h : call s p c = (s₁, r)) (rest : Requested call s₁ cs s') :
      Requested call s (⟨p, c, r.map Subtype.val⟩ :: cs) s'

namespace Request

/-- The number of bytes that a call transfers. -/
def count (c : Request) : ℕ := (c.r.getD 0).toNat

/-- The call fails or transfers nothing. -/
def stops (c : Request) : Prop := c.r = none ∨ c.r = some 0

/-- The addresses that a call transfers. -/
def slice (c : Request) : Set ℕ := span c.p c.count

end Request

/-- The number of bytes that the calls transfer. -/
def moved (cs : List Request) : ℕ := (cs.map Request.count).sum

/-- What is done for `n` bytes from an address on. -/
structure Transfers (call : Transfer σ) (s : σ) (b : ℕ) (n : BitVec 64) (s' : σ) (cs : List Request)
    (ok : Bool) : Prop where
  answered : Requested call s cs s'
  /-- Every slice that is transferred begins where the one before ends. -/
  slices : cs.map Request.slice = tiles b (cs.map Request.count)
  /-- Every call goes on behind what was transferred, and asks for bytes that are left and no more than
  2^28 of them. -/
  asks : ∀ before c after, cs = before ++ c :: after → c.p = b + moved before ∧
    0 < c.c.toNat ∧ c.c.toNat ≤ n.toNat - moved before ∧ c.c.toNat ≤ 2 ^ 28
  /-- A call that stops is the last one. -/
  last : ∀ before c after, cs = before ++ c :: after → c.stops → after = []
  whole : ok = true ↔ moved cs = n.toNat
  stopped : ok = false ↔ ∃ c ∈ cs, c.stops
  bounded : cs.length ≤ n.toNat

section

variable {call : Transfer σ} {s s₁ s' : σ} {b : ℕ} {n : BitVec 64} {cs : List Request} {ok : Bool}

@[simp] theorem moved_nil : moved [] = 0 := rfl

@[simp] theorem moved_cons (c : Request) (cs : List Request) :
    moved (c :: cs) = c.count + moved cs := rfl

theorem Transfers.apart (h : Transfers call s b n s' cs ok) :
    (cs.map Request.slice).Pairwise Disjoint := by
  rw [h.slices]
  exact tiles_pairwise b _

theorem Transfers.covers (h : Transfers call s b n s' cs ok) (x : ℕ) :
    (∃ c ∈ cs.map Request.slice, x ∈ c) ↔ b ≤ x ∧ x < b + moved cs := by
  rw [h.slices]
  exact mem_tiles

theorem chunk_pos (hn : n ≠ 0) : 0 < (chunk n).toNat := by
  have hpos : n.toNat ≠ 0 := BitVec.toNat_ne.mp hn
  rw [chunk_toNat]
  omega

theorem Transfers.done : Transfers call s b 0 s [] true where
  answered := .nil
  slices := rfl
  asks := by simp
  last := by simp
  whole := by simp
  stopped := by simp
  bounded := le_rfl

/-- A call that fails or transfers nothing is the last one. -/
theorem Transfers.stop (hn : n ≠ 0) {r : Option { r : BitVec 32 // r ≤ chunk n }}
    (hcall : call s b (chunk n) = (s₁, r))
    (hstop : Request.stops ⟨b, chunk n, r.map Subtype.val⟩) :
    Transfers call s b n s₁ [⟨b, chunk n, r.map Subtype.val⟩] false := by
  have hleft := chunk_toNat n
  have hpos := chunk_pos hn
  have hanswered : Requested call s [⟨b, chunk n, r.map Subtype.val⟩] s₁ := .cons hcall .nil
  generalize r.map Subtype.val = a at hstop hanswered ⊢
  have hnothing : Request.count ⟨b, chunk n, a⟩ = 0 := by
    rcases hstop with rfl | rfl
    · rfl
    · rfl
  have honly {before after : List Request} {c : Request}
      (h : [⟨b, chunk n, a⟩] = before ++ c :: after) :
      before = [] ∧ c = ⟨b, chunk n, a⟩ ∧ after = [] := by
    cases before with
    | nil =>
      obtain ⟨rfl, rfl⟩ := List.cons.inj h
      exact ⟨rfl, rfl, rfl⟩
    | cons d before => simp at h
  constructor
  · exact hanswered
  · rfl
  · intro before c after h
    obtain ⟨rfl, rfl, -⟩ := honly h
    simp only [moved_nil]
    omega
  · intro before c after h _
    exact (honly h).2.2
  · simp only [Bool.false_eq_true, moved_cons, moved_nil, hnothing, false_iff]
    omega
  · simp only [List.mem_singleton, exists_eq_left, true_iff]
    exact hstop
  · rw [List.length_singleton]
    omega

/-- A call that transfers bytes is followed by the calls for what is left. -/
theorem Transfers.more (hn : n ≠ 0) {r : { r : BitVec 32 // r ≤ chunk n }}
    (hcall : call s b (chunk n) = (s₁, some r)) (hpos : r.val ≠ 0)
    (rest : Transfers call s₁ (b + r.val.toNat) (n - r.val.setWidth 64) s' cs ok) :
    Transfers call s b n s' (⟨b, chunk n, some r⟩ :: cs) ok := by
  obtain ⟨hle, hleft⟩ := left_toNat r.property
  have hchunk := chunk_toNat n
  have hstart := chunk_pos hn
  have hnonzero : r.val.toNat ≠ 0 := BitVec.toNat_ne.mp hpos
  have hcount : Request.count ⟨b, chunk n, some r⟩ = r.val.toNat := rfl
  have hgoes : ¬ Request.stops ⟨b, chunk n, some r⟩ := by
    rintro (h | h)
    · cases h
    · exact hpos (Option.some.inj h)
  have hmoved := rest.whole
  have hbound := rest.bounded
  constructor
  · exact .cons hcall rest.answered
  · rw [List.map_cons, List.map_cons, rest.slices]
    rfl
  · intro before c after h
    cases before with
    | nil =>
      obtain ⟨rfl, -⟩ := List.cons.inj h
      simp only [moved_nil]
      omega
    | cons d before =>
      obtain ⟨rfl, hrest⟩ := List.cons.inj h
      have hasks := rest.asks before c after hrest
      rw [moved_cons, hcount]
      omega
  · intro before c after h hstops
    cases before with
    | nil =>
      obtain ⟨rfl, -⟩ := List.cons.inj h
      exact absurd hstops hgoes
    | cons d before => exact rest.last before c after (List.cons.inj h).2 hstops
  · rw [hmoved, moved_cons, hcount]
    omega
  · rw [rest.stopped, List.exists_mem_cons_iff]
    simp only [hgoes, false_or]
  · rw [List.length_cons]
    omega

end

theorem Requested.of_mem {call : Transfer σ} {s s' : σ} {cs : List Request} {c : Request}
    (h : Requested call s cs s') (hc : c ∈ cs) :
    ∃ s₁ s₂ r, call s₁ c.p c.c = (s₂, r) ∧ c.r = r.map Subtype.val := by
  induction h with
  | nil => cases hc
  | cons hcall _ ih =>
    rcases List.mem_cons.mp hc with rfl | hc
    · exact ⟨_, _, _, hcall, rfl⟩
    · exact ih hc

theorem transfer_transfers (call : Transfer σ) (s : σ) (b : ℕ) (n : BitVec 64) :
    ∃ s' cs ok, transfer call s b n = (s', cs, ok) ∧ Transfers call s b n s' cs ok := by
  refine ⟨_, _, _, rfl, ?_⟩
  fun_induction transfer call s b n with
  | case1 s b => exact .done
  | case2 s b n hn s' hcall => exact .stop hn hcall (.inl rfl)
  | case3 s b n hn s' r hcall hzero => exact .stop hn hcall (.inr (congrArg some hzero))
  | case4 s b n hn s' r hcall hpos rest ih => exact .more hn hcall hpos ih

/-- `read` and `write` end, whatever the calls answer. What they transfer are slices of the buffer from
its start on that follow each other; no call asks for more than is left or than 2^28 bytes; and they
succeed just if all is transferred, and fail just at the first call that fails or transfers nothing. -/
theorem transfers_whole (calls : FileCalls σ) (f : File) (hopen : f.opened = true) (s : σ) (b : ℕ)
    (n : BitVec 64) (hb : b ≠ 0 ∨ n = 0) :
    (∃ s' cs ok, f.read calls s b n = .ok (s', cs, ok) ∧
      Transfers (calls.readFile f.handle) s b n s' cs ok ∧
      (cs.map Request.slice).Pairwise Disjoint ∧
      ∀ x, (∃ c ∈ cs.map Request.slice, x ∈ c) ↔ b ≤ x ∧ x < b + moved cs) ∧
    ∃ s' cs ok, f.write calls s b n = .ok (s', cs, ok) ∧
      Transfers (calls.writeFile f.handle) s b n s' cs ok ∧
      (cs.map Request.slice).Pairwise Disjoint ∧
      ∀ x, (∃ c ∈ cs.map Request.slice, x ∈ c) ↔ b ≤ x ∧ x < b + moved cs := by
  constructor
  · obtain ⟨s', cs, ok, htransfer, h⟩ := transfer_transfers (calls.readFile f.handle) s b n
    refine ⟨s', cs, ok, ?_, h, h.apart, h.covers⟩
    rw [File.read, require_of hopen, require_of hb, htransfer]
    rfl
  · obtain ⟨s', cs, ok, htransfer, h⟩ := transfer_transfers (calls.writeFile f.handle) s b n
    refine ⟨s', cs, ok, ?_, h, h.apart, h.covers⟩
    rw [File.write, require_of hopen, require_of hb, htransfer]
    rfl

/-- Calls that transfer all that they are asked for. -/
def wholeCalls : FileCalls Unit where
  readFile _ s _ c := (s, some ⟨c, BitVec.le_refl c⟩)
  writeFile _ s _ c := (s, some ⟨c, BitVec.le_refl c⟩)

/-- They write more than 2^32 bytes. -/
theorem transfers_whole_large : ∃ s' cs, (⟨4⟩ : File).write wholeCalls () 0x1000 0x100000001 =
    .ok (s', cs, true) ∧ moved cs = 0x100000001 := by
  obtain ⟨-, s', cs, ok, hwrite, h, -⟩ :=
    transfers_whole wholeCalls ⟨4⟩ (by decide) () 0x1000 0x100000001 (.inl (by decide))
  have hok : ok = true := by
    rw [← Bool.not_eq_false, h.stopped]
    rintro ⟨c, hc, hstops⟩
    obtain ⟨s₁, s₂, r, hcall, hr⟩ := h.answered.of_mem hc
    obtain ⟨before, after, rfl⟩ := List.append_of_mem hc
    have hpos := (h.asks before c after rfl).2.1
    obtain ⟨-, rfl⟩ := Prod.mk.inj hcall
    rcases hstops with hnone | hzero
    · rw [hr] at hnone
      cases hnone
    · rw [hr] at hzero
      have hnothing : c.c = 0 := Option.some.inj hzero
      rw [hnothing] at hpos
      exact absurd hpos (by decide)
  subst hok
  exact ⟨s', cs, hwrite, h.whole.mp rfl⟩

/-! ## Files whose calls answer in order -/

/-- A file with the answers of its calls; after them every call transfers what it is asked for. -/
structure Disk where
  answers : List (Option ℕ)
  mem : Mem
  /-- What is left of the content that is read. -/
  data : Bytes
  /-- What was written. -/
  written : Bytes

/-- The next answer, for a call that asks for so many bytes of which so many are there. -/
def Disk.answer (d : Disk) (c : BitVec 32) (there : ℕ) : Option { r : BitVec 32 // r ≤ c } :=
  (d.answers.headD (some c.toNat)).map fun k =>
    ⟨BitVec.ofNat 32 (min k (min c.toNat there)), by
      have hc := c.isLt
      rw [BitVec.le_def, BitVec.toNat_ofNat, Nat.mod_eq_of_lt (by omega)]
      omega⟩

def diskCalls : FileCalls Disk where
  readFile _ d p c :=
    let r := d.answer c d.data.length
    let k := (r.elim 0 fun r => r.val.toNat)
    ({ d with
      answers := d.answers.tail
      mem := RawMemory.write d.mem p (d.data.take k)
      data := d.data.drop k }, r)
  writeFile _ d p c :=
    let r := d.answer c c.toNat
    let k := (r.elim 0 fun r => r.val.toNat)
    ({ d with
      answers := d.answers.tail
      written := d.written ++ RawMemory.read d.mem p k }, r)

theorem Disk.answer_eq_some {d : Disk} {c : BitVec 32} {there : ℕ} {r : { r : BitVec 32 // r ≤ c }}
    (h : d.answer c there = some r) :
    ∃ k, d.answers.headD (some c.toNat) = some k ∧ r.val.toNat = min k (min c.toNat there) := by
  obtain ⟨k, hk, rfl⟩ := Option.map_eq_some_iff.mp h
  have hc := c.isLt
  refine ⟨k, hk, ?_⟩
  rw [BitVec.toNat_ofNat, Nat.mod_eq_of_lt (by omega)]

theorem Disk.answer_eq_none {d : Disk} {c : BitVec 32} {there : ℕ} (h : d.answer c there = none) :
    d.answers.headD (some c.toNat) = none := Option.map_eq_none_iff.mp h

/-- `writeFile` by the next answer, which is for all that is asked for where the list is at its end. -/
theorem writeFile_next (answers : List (Option ℕ)) {data : Bytes} (hdata : data ≠ []) :
    writeFile answers data =
      match answers.headD (some (min data.length 0x10000000)) with
      | none => ([], false)
      | some w =>
        let k := min w (min data.length 0x10000000)
        if k = 0 then ([], false)
        else (data.take k ++ (writeFile answers.tail (data.drop k)).1,
          (writeFile answers.tail (data.drop k)).2) := by
  cases answers with
  | nil =>
    have hpos := List.length_pos_iff.mpr hdata
    rw [List.headD_nil]
    dsimp only
    rw [Nat.min_self, if_neg (by omega)]
    simp [writeFile]
  | cons a answers =>
    cases data with
    | nil => exact absurd rfl hdata
    | cons b data =>
      cases a with
      | none => rfl
      | some w => rfl

/-- What is written to such a file is what `writeFile` says. -/
theorem transfer_writeFile (h : BitVec 64) (d : Disk) (p : ℕ) (n : BitVec 64) {data : Bytes}
    (hdata : Holds d.mem p data) (hn : data.length = n.toNat) :
    (transfer (diskCalls.writeFile h) d p n).1.written = d.written ++ (writeFile d.answers data).1 ∧
      (transfer (diskCalls.writeFile h) d p n).2.2 = (writeFile d.answers data).2 := by
  have hne {n : BitVec 64} {data : Bytes} (hpos : n ≠ 0) (hn : data.length = n.toNat) :
      data ≠ [] := by
    rintro rfl
    exact hpos (BitVec.eq_of_toNat_eq hn.symm)
  fun_induction transfer (diskCalls.writeFile h) d p n generalizing data with
  | case1 d p =>
    obtain rfl : data = [] := List.length_eq_zero_iff.mp hn
    cases d.answers <;> simp [writeFile]
  | case2 d p n hpos d' hcall =>
    obtain ⟨hd', hanswer⟩ := Prod.mk.inj hcall
    have hnone := Disk.answer_eq_none hanswer
    rw [chunk_toNat, ← hn] at hnone
    rw [writeFile_next _ (hne hpos hn), hnone, ← hd', hanswer]
    exact ⟨rfl, rfl⟩
  | case3 d p n hpos d' r hcall hzero =>
    obtain ⟨hd', hanswer⟩ := Prod.mk.inj hcall
    obtain ⟨k, hk, hr⟩ := Disk.answer_eq_some hanswer
    rw [hzero, Nat.min_self, chunk_toNat, ← hn] at hr
    rw [chunk_toNat, ← hn] at hk
    have hnothing : min k (min data.length 0x10000000) = 0 := hr.symm
    rw [writeFile_next _ (hne hpos hn), hk, ← hd', hanswer]
    dsimp only [Option.elim_some]
    rw [if_pos hnothing, hzero]
    exact ⟨rfl, rfl⟩
  | case4 d p n hpos d' r hcall hr rest =>
    rename_i ih
    obtain ⟨hd', hanswer⟩ := Prod.mk.inj hcall
    obtain ⟨k, hk, hcount⟩ := Disk.answer_eq_some hanswer
    obtain ⟨hle, hleft⟩ := left_toNat r.property
    rw [Nat.min_self, chunk_toNat, ← hn] at hcount
    rw [chunk_toNat, ← hn] at hk
    have hsome : r.val.toNat ≠ 0 := BitVec.toNat_ne.mp hr
    have htaken : (data.take r.val.toNat).length = r.val.toNat := by
      rw [List.length_take]
      omega
    rw [← List.take_append_drop r.val.toNat data, holds_append, htaken] at hdata
    have hread : RawMemory.read d.mem p r.val.toNat = data.take r.val.toNat := by
      have := hdata.1.read
      rwa [htaken] at this
    obtain ⟨hwritten, hok⟩ := ih (by rw [← hd']; exact hdata.2) (by rw [List.length_drop]; omega)
    rw [writeFile_next _ (hne hpos hn), hk]
    dsimp only
    rw [← hcount, if_neg hsome, hwritten, hok, ← hd', hanswer]
    refine ⟨?_, rfl⟩
    dsimp only [Option.elim_some]
    rw [hread, List.append_assoc]

theorem readFile_nil (data : Bytes) (n : ℕ) :
    readFile [] data n = if n ≤ data.length then some (data.take n) else none := by
  cases n with
  | zero => simp [readFile]
  | succ n => rfl

/-- `readFile` by the next answer, in the same way. -/
theorem readFile_next (answers : List (Option ℕ)) (data : Bytes) {n : ℕ} (hn : n ≠ 0) :
    readFile answers data n =
      match answers.headD (some (min n 0x10000000)) with
      | none => none
      | some r =>
        let k := min r (min (min n 0x10000000) data.length)
        if k = 0 then none
        else (readFile answers.tail (data.drop k) (n - k)).map (data.take k ++ ·) := by
  cases answers with
  | nil =>
    rw [List.headD_nil, List.tail_nil, readFile_nil]
    generalize hk : min (min n 0x10000000) (min (min n 0x10000000) data.length) = k
    dsimp only
    rw [hk]
    by_cases hzero : k = 0
    · rw [if_pos hzero, if_neg (by omega)]
    · rw [if_neg hzero, readFile_nil, List.length_drop]
      by_cases hthere : n ≤ data.length
      · rw [if_pos hthere, if_pos (by omega), Option.map_some, ← List.take_add,
          Nat.add_sub_cancel' (by omega)]
      · rw [if_neg hthere, if_neg (by omega), Option.map_none]
  | cons a answers =>
    obtain ⟨n, rfl⟩ := Nat.exists_eq_succ_of_ne_zero hn
    cases a with
    | none => rfl
    | some r => rfl

/-- What is read from such a file is what `readFile` says, and nothing outside the buffer is written
to. -/
theorem transfer_readFile (h : BitVec 64) (d : Disk) (p : ℕ) (n : BitVec 64) :
    (transfer (diskCalls.readFile h) d p n).2.2 = (readFile d.answers d.data n.toNat).isSome ∧
      Changes (span p n.toNat) d.mem (transfer (diskCalls.readFile h) d p n).1.mem ∧
      ∀ b, readFile d.answers d.data n.toNat = some b →
        Holds (transfer (diskCalls.readFile h) d p n).1.mem p b := by
  have hne {n : BitVec 64} (hpos : n ≠ 0) : n.toNat ≠ 0 := BitVec.toNat_ne.mp hpos
  fun_induction transfer (diskCalls.readFile h) d p n with
  | case1 d p =>
    have hnone : readFile d.answers d.data (0 : BitVec 64).toNat = some [] := by
      simp [readFile]
    rw [hnone]
    refine ⟨rfl, .refl _ _, ?_⟩
    rintro b ⟨⟩ i hi
    cases hi
  | case2 d p n hpos d' hcall =>
    obtain ⟨hd', hanswer⟩ := Prod.mk.inj hcall
    have hnone := Disk.answer_eq_none hanswer
    rw [chunk_toNat] at hnone
    rw [hanswer, Option.elim_none, List.take_zero, write_nil] at hd'
    rw [readFile_next _ _ (hne hpos), hnone, ← hd']
    refine ⟨rfl, .refl _ _, ?_⟩
    rintro b ⟨⟩
  | case3 d p n hpos d' r hcall hzero =>
    obtain ⟨hd', hanswer⟩ := Prod.mk.inj hcall
    obtain ⟨k, hk, hr⟩ := Disk.answer_eq_some hanswer
    rw [hzero, chunk_toNat] at hr
    rw [chunk_toNat] at hk
    have hnothing : min k (min (min n.toNat 0x10000000) d.data.length) = 0 := hr.symm
    rw [hanswer, Option.elim_some, hzero] at hd'
    rw [readFile_next _ _ (hne hpos), hk, ← hd']
    dsimp only
    rw [if_pos hnothing]
    refine ⟨rfl, ?_, ?_⟩
    · have hnil : d.data.take (0 : BitVec 32).toNat = [] := List.take_zero
      rw [hnil, write_nil]
      exact .refl _ _
    · rintro b ⟨⟩
  | case4 d p n hpos d' r hcall hr rest =>
    rename_i ih
    obtain ⟨hd', hanswer⟩ := Prod.mk.inj hcall
    obtain ⟨k, hk, hcount⟩ := Disk.answer_eq_some hanswer
    obtain ⟨hle, hleft⟩ := left_toNat r.property
    rw [chunk_toNat] at hcount hk
    have hsome : r.val.toNat ≠ 0 := BitVec.toNat_ne.mp hr
    have htaken : (d.data.take r.val.toNat).length = r.val.toNat := by
      rw [List.length_take]
      omega
    rw [hanswer, Option.elim_some] at hd'
    have hanswers : d'.answers = d.answers.tail := by rw [← hd']
    have hdata : d'.data = d.data.drop r.val.toNat := by rw [← hd']
    have hmem : d'.mem = RawMemory.write d.mem p (d.data.take r.val.toNat) := by rw [← hd']
    obtain ⟨hok, hchanges, hholds⟩ := ih
    rw [hanswers, hdata, hleft] at hok hholds
    rw [hleft] at hchanges
    have hfirst : Changes (span p n.toNat) d.mem d'.mem := by
      rw [hmem]
      exact write_within _ le_rfl (by omega)
    rw [readFile_next _ _ (hne hpos), hk]
    dsimp only
    rw [← hcount, if_neg hsome, Option.isSome_map]
    refine ⟨hok, hfirst.trans (hchanges.mono (span_subset (by omega) (by omega))), ?_⟩
    intro b hb
    obtain ⟨later, hlater, rfl⟩ := Option.map_eq_some_iff.mp hb
    rw [holds_append, htaken]
    refine ⟨?_, hholds later hlater⟩
    -- What the later calls read lies behind the bytes of this one.
    apply Holds.kept _ hchanges (span_disjoint (.inr (by omega)))
    rw [hmem]
    exact write_holds _ _ _

end IW4x.Gdk
