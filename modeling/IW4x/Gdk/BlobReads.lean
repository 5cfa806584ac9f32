import IW4x.Gdk.BlobNames
import IW4x.Lib.RawMemory

/-!
# Reading blobs

A read operation keeps the names it was given, cut to 63 bytes. `work` reads the files and reports
the size that `result` needs: the headers, and behind them each name with its terminator followed by
the data of its blob. `result` writes them into a buffer with a pointer that runs along, and checks
before each blob whether it has room.
-/

namespace IW4x.Gdk

open Unicode RawMemory

def maxBlobReads : ℕ := 32

/-- `sizeof (save_blob)`. -/
def saveBlobSize : ℕ := 24

def sizeT (v : ℤ) : ℕ := (v % 2 ^ 64).toNat

structure ReadOperation where
  location : Path
  names : List Bytes
  room : names.length ≤ maxBlobReads
  fits : ∀ n ∈ names, n.length ≤ 63

/-- The operation that `read_blob_data_async` begins; `none` where it raises that there are too many
blobs or that a name cannot be used. -/
def readOperation (location : Path) (names : List Bytes) : Option ReadOperation :=
  if h : names.length ≤ maxBlobReads ∧ ∀ n ∈ names, storable n = true then
    some {
      location := location
      names := names.map (text blobNameCapacity)
      room := by simpa using h.1
      fits := by
        intro n hn
        obtain ⟨v, -, rfl⟩ := List.mem_map.mp hn
        rw [text, List.length_take]
        exact Nat.min_le_left _ _ }
  else none

/-- How the calls for one blob end. -/
structure ReadEnv where
  opens : Bool := true
  sizes : Bool := true
  /-- There is memory for the data. -/
  room : Bool := true
  reads : Bool := true

/-- What `work` raises. -/
inductive ReadError where
  /-- `blob_not_found`, "nothing stored as '{}' yet". -/
  | notStored (name : Bytes)
  /-- "unable to read '{}'". -/
  | unreadable (name : Bytes)
  /-- "unable to size a game save blob". -/
  | unsized
  /-- `E_OUTOFMEMORY`, "no room for a {} byte blob". -/
  | noMemory (size : ℕ)
  /-- "unable to read a game save blob". -/
  | cut
  deriving DecidableEq

/-- What `result` raises. -/
inductive ResultError where
  /-- `E_POINTER`, "no result pointer". -/
  | noPointer
  /-- `insufficient_buffer`, "a {} byte buffer holds none of {} blobs". -/
  | holdsNone (size count : ℕ)
  /-- `insufficient_buffer`, "no room for blob '{}'". -/
  | noRoom (name : Bytes)
  deriving DecidableEq

/-- How `result` ends. -/
inductive ResultEnd where
  | done
  | raised (e : ResultError)
  /-- The assertion at its end does not hold. -/
  | violated
  deriving DecidableEq

section

variable (skip : Bytes → ℕ)

/-- The loop of `read_operation::work`, from the size so far. -/
def readEach (location : Path) (fs : FileSystem) (env : ℕ → ReadEnv) :
    ℕ → List Bytes → ℕ → Except ReadError (List Bytes × ℕ)
  | _, [], n => .ok ([], n)
  | i, name :: rest, n =>
    match fs.openRead (location.append skip name).value (env i).opens with
    | none => .error (.unreadable name)
    | some none => .error (.notStored name)
    | some (some d) =>
      if (env i).sizes = false then .error .unsized
      else if (env i).room = false then .error (.noMemory d.length)
      else if d ≠ [] ∧ (env i).reads = false then .error .cut
      else
        match readEach location fs env (i + 1) rest
          (sizeT (n + (name.length + 1 + d.length : ℕ))) with
        | .error e => .error e
        | .ok (ds, n) => .ok (d :: ds, n)

/-- `read_operation::work`: the data it has read, and the size it returns. -/
def ReadOperation.work (o : ReadOperation) (fs : FileSystem) (env : ℕ → ReadEnv) :
    Except ReadError (List Bytes × ℕ) :=
  readEach skip o.location fs env 0 o.names (sizeT (o.names.length * saveBlobSize : ℕ))

end

/-- What the loop of `result` does for the blob at `i`. -/
def storeEntry (buffer i p : ℕ) (n d : Bytes) (m : Mem) : Mem :=
  let b := buffer + i * saveBlobSize
  let m := write m p (n ++ [0])
  let m := write m b (littleEndian 8 p)
  let p := p + (n.length + 1)
  let m := if d = [] then m else write m p d
  let m := write m (b + 8) (littleEndian 4 d.length)
  write m (b + 16) (littleEndian 8 p)

/-- The loop of `read_operation::result`, from the blob at `i` and the pointer on. -/
def layOut (buffer e : ℕ) : ℕ → ℕ → List (Bytes × Bytes) → Mem → Mem × ResultEnd
  | _, p, [], m => (m, if p ≤ e then .done else .violated)
  | i, p, (n, d) :: rest, m =>
    if sizeT (e - p) < sizeT (n.length + 1 + d.length : ℕ) then (m, .raised (.noRoom n))
    else
      layOut buffer e (i + 1) (p + (n.length + 1) + d.length) rest (storeEntry buffer i p n d m)

/-- `read_operation::result`, with the data that `work` has read. -/
def ReadOperation.result (o : ReadOperation) (data : List Bytes) (size buffer : ℕ) (m : Mem) :
    Mem × ResultEnd :=
  if buffer = 0 then (m, .raised .noPointer)
  else if size < sizeT (o.names.length * saveBlobSize : ℕ) then
    (m, .raised (.holdsNone size o.names.length))
  else
    layOut buffer (buffer + size) 0 (buffer + o.names.length * saveBlobSize) (o.names.zip data) m

/-! ## What a caller finds -/

/-- Where the header at `i` says that the name is. -/
def entryName (m : Mem) (buffer i : ℕ) : ℕ := word m (buffer + i * saveBlobSize) 8

/-- The size in the header at `i`. -/
def entrySize (m : Mem) (buffer i : ℕ) : ℕ := word m (buffer + i * saveBlobSize + 8) 4

/-- Where the header at `i` says that the data is. -/
def entryData (m : Mem) (buffer i : ℕ) : ℕ := word m (buffer + i * saveBlobSize + 16) 8

/-- The addresses of the names and data of the blobs, the first of which has the header at `i`. -/
def blobSpans (m : Mem) (buffer : ℕ) : ℕ → List (Bytes × Bytes) → List (Set ℕ)
  | _, [] => []
  | i, (n, d) :: rest =>
    span (entryName m buffer i) (n.length + 1) :: span (entryData m buffer i) d.length ::
      blobSpans m buffer (i + 1) rest

/-- The headers, and the names and data of the blobs. -/
def bufferSpans (m : Mem) (buffer : ℕ) (blobs : List (Bytes × Bytes)) : List (Set ℕ) :=
  span buffer (blobs.length * saveBlobSize) :: blobSpans m buffer 0 blobs

/-- The header of each blob leads to its name and data, and nothing of them meets or leaves a gap in
the first `size` bytes of the buffer. -/
structure LaidOut (m : Mem) (buffer : ℕ) (blobs : List (Bytes × Bytes)) (size : ℕ) : Prop where
  named : ∀ i n d, blobs[i]? = some (n, d) → Holds m (entryName m buffer i) (n ++ [0])
  sized : ∀ i n d, blobs[i]? = some (n, d) → entrySize m buffer i = d.length
  stored : ∀ i n d, blobs[i]? = some (n, d) → Holds m (entryData m buffer i) d
  apart : (bufferSpans m buffer blobs).Pairwise Disjoint
  filled : ∀ x, (∃ s ∈ bufferSpans m buffer blobs, x ∈ s) ↔ x ∈ span buffer size

/-- What `result` owes for the blobs: it needs no more and no less than the size that was reported,
and writes nothing outside of the buffer. -/
structure BlobsDelivered (blobs : List (Bytes × Bytes)) (reported size buffer : ℕ) (m : Mem)
    (r : Mem × ResultEnd) : Prop where
  succeeds : r.2 = .done ↔ reported ≤ size
  laidOut : r.2 = .done → LaidOut r.1 buffer blobs reported
  within : Changes (span buffer size) m r.1

/-- What is stored under the name. -/
def contents (skip : Bytes → ℕ) (location : Path) (fs : FileSystem) (n : Bytes) : Bytes :=
  (fs.files (readPath skip location n).value).getD []

/-! ## What is written for one blob -/

theorem sizeT_natCast {n : ℕ} (h : n < 2 ^ 64) : sizeT (n : ℤ) = n := by
  rw [sizeT, Int.emod_eq_of_lt (by omega) (by exact_mod_cast h), Int.toNat_natCast]

theorem sizeT_sub {p e : ℕ} (hp : p ≤ e) (he : e < 2 ^ 64) : sizeT (e - p) = e - p := by
  rw [← Nat.cast_sub hp, sizeT_natCast (by omega)]

/-- How many bytes the names and data take. -/
def needed (blobs : List (Bytes × Bytes)) : ℕ :=
  (blobs.map fun b => b.1.length + 1 + b.2.length).sum

@[simp] theorem needed_nil : needed [] = 0 := rfl

@[simp] theorem needed_cons (b : Bytes × Bytes) (rest : List (Bytes × Bytes)) :
    needed (b :: rest) = b.1.length + 1 + b.2.length + needed rest := by
  simp [needed]

/-- The header at `b` and the name and data at `p` are those of the blob. -/
structure BlobEntry (m : Mem) (b p : ℕ) (n d : Bytes) : Prop where
  name : Holds m b (littleEndian 8 p)
  size : Holds m (b + 8) (littleEndian 4 d.length)
  data : Holds m (b + 16) (littleEndian 8 (p + (n.length + 1)))
  named : Holds m p (n ++ [0])
  stored : Holds m (p + (n.length + 1)) d

theorem storeEntry_entry (buffer i : ℕ) {p : ℕ} (n d : Bytes) (m : Mem)
    (below : buffer + (i + 1) * saveBlobSize ≤ p) :
    BlobEntry (storeEntry buffer i p n d m) (buffer + i * saveBlobSize) p n d := by
  simp only [saveBlobSize] at below ⊢
  have hdata : ∀ m : Mem, (if d = [] then m else write m (p + (n.length + 1)) d) =
      write m (p + (n.length + 1)) d := by
    intro m
    split_ifs with h
    · rw [h, write_nil]
    · rfl
  simp only [storeEntry, saveBlobSize, hdata]
  have hwidth (k v : ℕ) : (littleEndian k v).length = k := littleEndian_length k v
  have hname : (n ++ [0]).length = n.length + 1 := List.length_append
  constructor
  · refine (((write_holds _ _ _).beside ?_).beside ?_).beside ?_ <;> (simp only [hwidth]; omega)
  · exact (write_holds _ _ _).beside (by simp only [hwidth]; omega)
  · exact write_holds _ _ _
  · refine ((((write_holds _ _ _).beside ?_).beside ?_).beside ?_).beside ?_ <;>
      (simp only [hwidth, hname]; omega)
  · refine ((write_holds _ _ _).beside ?_).beside ?_ <;> (rw [hwidth]; omega)

theorem storeEntry_changes (buffer i : ℕ) {p e : ℕ} (n d : Bytes) (m : Mem)
    (room : p + (n.length + 1 + d.length) ≤ e) :
    Changes (span (buffer + i * saveBlobSize) saveBlobSize ∪ Set.Ico p e) m
      (storeEntry buffer i p n d m) := by
  have hheader : ∀ (m : Mem) (k : ℕ) (l : List UInt8), k + l.length ≤ saveBlobSize →
      Changes (span (buffer + i * saveBlobSize) saveBlobSize ∪ Set.Ico p e) m
        (write m (buffer + i * saveBlobSize + k) l) := by
    intro m k l hk
    exact (write_within m (by omega) (by omega)).mono Set.subset_union_left
  have hbody : ∀ (m : Mem) (q : ℕ) (l : List UInt8), p ≤ q → q + l.length ≤ e →
      Changes (span (buffer + i * saveBlobSize) saveBlobSize ∪ Set.Ico p e) m (write m q l) := by
    intro m q l hq hl
    apply (write_changes m q l).mono
    intro x hx
    right
    rw [mem_span] at hx
    exact ⟨by omega, by omega⟩
  simp only [storeEntry]
  refine .trans ?_ (hheader _ 16 _ (by simp [saveBlobSize]))
  refine .trans ?_ (hheader _ 8 _ (by simp [saveBlobSize]))
  have hname := hbody m p (n ++ [0]) le_rfl (by simp; omega)
  refine hname.trans ((hheader _ 0 (littleEndian 8 p) (by simp [saveBlobSize])).trans ?_)
  split_ifs
  · exact .refl _ _
  · exact hbody _ _ _ (by omega) (by omega)

theorem BlobEntry.kept {s : Set ℕ} {m m' : Mem} {b p : ℕ} {n d : Bytes} (h : BlobEntry m b p n d)
    (changes : Changes s m m') (header : Disjoint s (span b saveBlobSize))
    (body : Disjoint s (span p (n.length + 1 + d.length))) : BlobEntry m' b p n d := by
  have hheader : ∀ k (l : List UInt8), k + l.length ≤ saveBlobSize →
      Disjoint s (span (b + k) l.length) := by
    intro k l hk
    exact header.mono_right (span_subset (by omega) (by omega))
  have hbody : ∀ k (l : List UInt8), k + l.length ≤ n.length + 1 + d.length →
      Disjoint s (span (p + k) l.length) := by
    intro k l hk
    exact body.mono_right (span_subset (by omega) (by omega))
  constructor
  · exact h.name.kept changes (hheader 0 _ (by simp [saveBlobSize]))
  · exact h.size.kept changes (hheader 8 _ (by simp [saveBlobSize]))
  · exact h.data.kept changes (hheader 16 _ (by simp [saveBlobSize]))
  · exact h.named.kept changes (hbody 0 _ (by simp))
  · exact h.stored.kept changes (hbody _ _ (by omega))

/-! ## The loop of `result` -/

section

variable (buffer i : ℕ) {e p : ℕ} {rest : List (Bytes × Bytes)}

theorem short_iff {n d : Bytes} (hp : p ≤ e) (he : e < 2 ^ 64)
    (small : n.length + 1 + d.length < 2 ^ 64) :
    sizeT (e - p) < sizeT (n.length + 1 + d.length : ℕ) ↔ e < p + (n.length + 1 + d.length) := by
  rw [sizeT_sub hp he, sizeT_natCast small]
  omega

/-- The loop comes to its end if and only if all that is left fits, where the assertion holds. -/
theorem layOut_done (hp : p ≤ e) (he : e < 2 ^ 64)
    (small : ∀ b ∈ rest, b.1.length + 1 + b.2.length < 2 ^ 64) (m : Mem) :
    (layOut buffer e i p rest m).2 ≠ .violated ∧
      ((layOut buffer e i p rest m).2 = .done ↔ p + needed rest ≤ e) := by
  induction rest generalizing i p m with
  | nil => simp [layOut, hp]
  | cons b rest ih =>
    obtain ⟨n, d⟩ := b
    have hshort := short_iff hp he (small _ List.mem_cons_self)
    rw [layOut, needed_cons]
    by_cases hroom : e < p + (n.length + 1 + d.length)
    · rw [if_pos (hshort.mpr hroom)]
      refine ⟨nofun, ?_⟩
      simp only [reduceCtorEq, false_iff, not_le]
      omega
    · rw [if_neg fun h => hroom (hshort.mp h)]
      have hnext : p + (n.length + 1) + d.length ≤ e := by omega
      obtain ⟨hholds, hdone⟩ := ih (i + 1) hnext
        (fun b hb => small b (List.mem_cons_of_mem _ hb)) (storeEntry buffer i p n d m)
      refine ⟨hholds, hdone.trans ?_⟩
      rw [Nat.add_assoc p, Nat.add_assoc p]

/-- The loop writes the headers from its own on, and what is between its pointer and the end. -/
theorem layOut_changes (hp : p ≤ e) (he : e < 2 ^ 64)
    (small : ∀ b ∈ rest, b.1.length + 1 + b.2.length < 2 ^ 64) (m : Mem) :
    Changes (span (buffer + i * saveBlobSize) (rest.length * saveBlobSize) ∪ Set.Ico p e) m
      (layOut buffer e i p rest m).1 := by
  induction rest generalizing i p m with
  | nil => exact .refl _ m
  | cons b rest ih =>
    obtain ⟨n, d⟩ := b
    have hshort := short_iff hp he (small _ List.mem_cons_self)
    rw [layOut]
    by_cases hroom : e < p + (n.length + 1 + d.length)
    · rw [if_pos (hshort.mpr hroom)]
      exact .refl _ m
    · rw [if_neg fun h => hroom (hshort.mp h)]
      have hstep := storeEntry_changes buffer i n d m (Nat.le_of_not_lt hroom)
      have hnext : p + (n.length + 1) + d.length ≤ e := by omega
      have hlater := ih (i + 1) hnext
        (fun b hb => small b (List.mem_cons_of_mem _ hb)) (storeEntry buffer i p n d m)
      apply (hstep.mono ?_).trans (hlater.mono ?_)
      · apply Set.union_subset_union_left
        intro x hx
        simp only [mem_span, saveBlobSize, List.length_cons] at hx ⊢
        omega
      · apply Set.union_subset_union
        · intro x hx
          simp only [mem_span, saveBlobSize, List.length_cons] at hx ⊢
          omega
        · intro x hx
          simp only [Set.mem_Ico] at hx ⊢
          omega

/-- Where the loop comes to its end, every blob has its entry. -/
theorem layOut_entry (hp : p ≤ e) (he : e < 2 ^ 64)
    (small : ∀ b ∈ rest, b.1.length + 1 + b.2.length < 2 ^ 64)
    (below : buffer + (i + rest.length) * saveBlobSize ≤ p) {m : Mem}
    (done : (layOut buffer e i p rest m).2 = .done) {j : ℕ} {n d : Bytes}
    (hj : rest[j]? = some (n, d)) :
    BlobEntry (layOut buffer e i p rest m).1 (buffer + (i + j) * saveBlobSize)
      (p + needed (rest.take j)) n d := by
  induction rest generalizing i p j m with
  | nil => cases hj
  | cons b rest ih =>
    obtain ⟨n', d'⟩ := b
    have hshort := short_iff hp he (small _ List.mem_cons_self)
    have hsmall : ∀ b ∈ rest, b.1.length + 1 + b.2.length < 2 ^ 64 :=
      fun b hb => small b (List.mem_cons_of_mem _ hb)
    simp only [List.length_cons, saveBlobSize] at below
    rw [layOut] at done ⊢
    by_cases hroom : e < p + (n'.length + 1 + d'.length)
    · rw [if_pos (hshort.mpr hroom)] at done
      cases done
    · rw [if_neg fun h => hroom (hshort.mp h)] at done ⊢
      have hroom' : p + (n'.length + 1) + d'.length ≤ e := by omega
      cases j with
      | zero =>
        obtain ⟨rfl, rfl⟩ := Prod.mk.inj (Option.some.inj hj)
        have hheader : buffer + (i + 1) * saveBlobSize ≤ p := by
          simp only [saveBlobSize]
          omega
        have hentry := storeEntry_entry buffer i n' d' m hheader
        -- the later blobs write later headers, and behind this one
        have hlater := layOut_changes buffer (i + 1) hroom' he hsmall
          (storeEntry buffer i p n' d' m)
        apply hentry.kept hlater
        · apply Set.disjoint_left.mpr
          intro x hx hx'
          simp only [Set.mem_union, mem_span, Set.mem_Ico, saveBlobSize] at hx hx'
          omega
        · apply Set.disjoint_left.mpr
          intro x hx hx'
          simp only [Set.mem_union, mem_span, Set.mem_Ico, saveBlobSize] at hx hx'
          omega
      | succ j =>
        have hnext := ih (i + 1) hroom' hsmall (by simp only [saveBlobSize]; omega) done hj
        rw [List.take_succ_cons, needed_cons]
        have hindex : i + 1 + j = i + (j + 1) := by omega
        have hpointer : p + (n'.length + 1) + d'.length + needed (rest.take j) =
            p + (n'.length + 1 + d'.length + needed (rest.take j)) := by omega
        rwa [hindex, hpointer] at hnext

end

end IW4x.Gdk
