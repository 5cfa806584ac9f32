import Mathlib.Data.FinEnum
import IW4x.Gdk.Path

/-!
# Game saves

A container is a directory and a blob a file in it. A blob is written under its name followed by
`.part` and then moved to its own name; a read opens the file of the name. A run of `work` is driven
by how each call of the file system ends.
-/

namespace IW4x.Gdk

open Unicode

def blobNameCapacity : ℕ := 64
def maxBlobWrites : ℕ := 32
def maxContainers : ℕ := 16
def maxUpdates : ℕ := 16

/-- The characters that `storable` refuses, which are the two slashes, the colon, the star, the
question mark, the quotation mark, the angle brackets and the bar. -/
def reserved : Bytes := [0x2F, 0x5C, 0x3A, 0x2A, 0x3F, 0x22, 0x3C, 0x3E, 0x7C]

def storable (n : Bytes) : Bool :=
  decide (n ≠ [] ∧ n ≠ utf8 ".".toList ∧ n ≠ utf8 "..".toList ∧ ∀ b ∈ n, b ∉ reserved)

/-- A blob that waits in an update, or is being written. -/
structure PendingWrite where
  name : Bytes
  data : Bytes
  fits : name.length ≤ 63
  storable : storable name = true
  deriving DecidableEq

theorem storable_text {n : Bytes} (h : storable n = true) :
    storable (text blobNameCapacity n) = true := by
  simp only [storable, decide_eq_true_eq] at h ⊢
  obtain ⟨hne, hdot, hdots, hall⟩ := h
  have hchars : ∀ b ∈ text blobNameCapacity n, b ∉ reserved :=
    fun b hb => hall b (List.mem_of_mem_take hb)
  rcases Nat.le_total n.length (blobNameCapacity - 1) with hfits | hlong
  · rw [text, List.take_of_length_le hfits]
    exact ⟨hne, hdot, hdots, hall⟩
  · have hlength : (text blobNameCapacity n).length = 63 := by
      rw [text, List.length_take, Nat.min_eq_left hlong]
      rfl
    refine ⟨?_, ?_, ?_, hchars⟩ <;> (intro heq; rw [heq] at hlength; revert hlength; decide)

/-- What `submit_blob_write` keeps of a name that is storable. -/
def PendingWrite.of (n data : Bytes) (h : Gdk.storable n = true) : PendingWrite where
  name := text blobNameCapacity n
  data := data
  fits := by
    rw [text, List.length_take]
    exact Nat.min_le_left _ _
  storable := storable_text h

@[simp] theorem PendingWrite.of_name (n data : Bytes) (h : Gdk.storable n = true) :
    (PendingWrite.of n data h).name = text blobNameCapacity n := rfl

/-- How the calls of the file system end, in the order in which one blob comes to them. -/
structure BlobEnv where
  opens : Bool := true
  /-- The answers of `WriteFile`. -/
  answers : List (Option ℕ) := []
  renames : Bool := true
  deletes : Bool := true

/-- What `work` does to the files. -/
inductive FileEvent where
  | created (p : Wide)
  | replaced (p : Wide)
  deriving DecidableEq

/-- What came of writing: the files, whether nothing failed, and the files that were written. -/
structure Stored where
  files : FileSystem
  done : Bool
  events : List FileEvent

section

variable (skip : Bytes → ℕ)

/-- The path that `submit_operation::work` moves a blob to. -/
def blobPath (location : Path) (n : Bytes) : Path := location.append skip n

/-- The path that it writes the blob to first. -/
def partPath (location : Path) (n : Bytes) : Path :=
  (blobPath skip location n).extend (wide ".part")

/-- The body of the loop of `submit_operation::work`. -/
def storeBlob (location : Path) (fs : FileSystem) (w : PendingWrite) (e : BlobEnv) : Stored :=
  let p := blobPath skip location w.name
  let t := partPath skip location w.name
  match fs.createAlways t.value e.opens with
  | none => ⟨fs, false, []⟩
  | some fs =>
    let r := if w.data = [] then ([], true) else writeFile e.answers w.data
    let fs := fs.put t.value r.1
    if r.2 then
      match fs.moveReplace t.value p.value e.renames with
      | none => ⟨if e.deletes then fs.remove t.value else fs, false, [.created t.value]⟩
      | some fs => ⟨fs, true, [.created t.value, .replaced p.value]⟩
    else ⟨fs, false, [.created t.value]⟩

/-- `submit_operation::work`. The first failure ends it. -/
def work (location : Path) : FileSystem → List (PendingWrite × BlobEnv) → Stored
  | fs, [] => ⟨fs, true, []⟩
  | fs, (w, e) :: rest =>
    let s := storeBlob skip location fs w e
    if s.done then
      let r := work location s.files rest
      ⟨r.files, r.done, s.events ++ r.events⟩
    else s

/-- The path that `read_operation` opens for a name. -/
def readPath (location : Path) (n : Bytes) : Path := location.append skip (text blobNameCapacity n)

inductive BlobRead where
  | found (data : Bytes)
  /-- `blob_not_found`. -/
  | notFound
  /-- Any other error. -/
  | failed
  deriving DecidableEq

/-- `read_operation::work` for one name; `ok` says whether the calls of the file system succeed. -/
def readBlob (location : Path) (fs : FileSystem) (n : Bytes) (ok : Bool) : BlobRead :=
  match fs.openRead (readPath skip location n).value ok with
  | none => .failed
  | some none => .notFound
  | some (some data) => .found data

end

/-! ## What a write does -/

variable (skip : Bytes → ℕ)

/-- The cases of writing one blob: it is not opened, it is not written whole, it is not moved, or it
is stored. -/
inductive StoreCases (location : Path) (fs : FileSystem) (w : PendingWrite) (e : BlobEnv) :
    Stored → Prop
  | closed (h : fs.createAlways (partPath skip location w.name).value e.opens = none) :
      StoreCases location fs w e ⟨fs, false, []⟩
  | short (may : fs.mayOpen (partPath skip location w.name).value = true) (opens : e.opens = true)
      (data : w.data ≠ []) (short : (writeFile e.answers w.data).2 = false) :
      StoreCases location fs w e
        ⟨fs.put (partPath skip location w.name).value (writeFile e.answers w.data).1, false,
          [.created (partPath skip location w.name).value]⟩
  | unmoved (may : fs.mayOpen (partPath skip location w.name).value = true)
      (opens : e.opens = true)
      (full : w.data = [] ∨ (writeFile e.answers w.data).2 = true)
      (unmoved : (fs.mayOpen (blobPath skip location w.name).value && e.renames) = false) :
      StoreCases location fs w e
        ⟨if e.deletes then (fs.put (partPath skip location w.name).value w.data).remove
            (partPath skip location w.name).value
          else fs.put (partPath skip location w.name).value w.data, false,
          [.created (partPath skip location w.name).value]⟩
  | stored (may : fs.mayOpen (partPath skip location w.name).value = true)
      (opens : e.opens = true)
      (full : w.data = [] ∨ (writeFile e.answers w.data).2 = true)
      (moved : (fs.mayOpen (blobPath skip location w.name).value && e.renames) = true) :
      StoreCases location fs w e
        ⟨((fs.put (partPath skip location w.name).value w.data).remove
            (partPath skip location w.name).value).put (blobPath skip location w.name).value w.data,
          true, [.created (partPath skip location w.name).value,
            .replaced (blobPath skip location w.name).value]⟩

theorem put_put (fs : FileSystem) (p : Wide) (a b : Bytes) : (fs.put p a).put p b = fs.put p b := by
  simp [FileSystem.put]

theorem storeBlob_cases (location : Path) (fs : FileSystem) (w : PendingWrite) (e : BlobEnv) :
    StoreCases skip location fs w e (storeBlob skip location fs w e) := by
  unfold storeBlob
  dsimp only
  split
  · rename_i h
    exact .closed h
  rename_i fs' h
  obtain ⟨may, opens, rfl⟩ := FileSystem.createAlways_eq_some h
  rw [put_put]
  by_cases hr : (if w.data = [] then (([] : Bytes), true) else writeFile e.answers w.data).2 = true
  · rw [if_pos hr]
    have hfull : w.data = [] ∨ (writeFile e.answers w.data).2 = true := by
      split_ifs at hr with hdata
      · exact .inl hdata
      · exact .inr hr
    have hwritten : (if w.data = [] then (([] : Bytes), true)
        else writeFile e.answers w.data).1 = w.data := by
      split_ifs with hdata
      · exact hdata.symm
      · exact writeFile_true (hfull.resolve_left hdata)
    rw [hwritten]
    rw [FileSystem.moveReplace_put]
    cases hmoved : fs.mayOpen (blobPath skip location w.name).value && e.renames with
    | true => exact .stored may opens hfull hmoved
    | false => exact .unmoved may opens hfull hmoved
  · rw [if_neg hr]
    have hdata : w.data ≠ [] := fun hnil => hr (by rw [if_pos hnil])
    rw [if_neg hdata] at hr ⊢
    exact .short may opens hdata (by simpa using hr)

end IW4x.Gdk
