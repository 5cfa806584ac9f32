import IW4x.Lib.LastSome
import IW4x.Gdk.BlobNames

/-!
# A container as a map

A container is meant to be a map from names to bytes, in which the last write of a name wins. A blob
that is stored moves its bytes to the file of its name and leaves the file of that name and `.part`
gone, so a blob of the longer name is lost. Both effects are followed for one file through any
number of updates that complete.
-/

namespace IW4x.Gdk

open Unicode Lists

section

variable (skip : Bytes → ℕ)

/-- The updates of a container one after the other, where each completes. -/
def submits (location : Path) :
    FileSystem → List (List (PendingWrite × BlobEnv)) → Option FileSystem
  | fs, [] => some fs
  | fs, u :: us =>
    let s := work skip location fs u
    if s.done then submits location s.files us else none

/-- The writes of the updates, in their order. -/
def writesOf (us : List (List (PendingWrite × BlobEnv))) : List PendingWrite :=
  us.flatten.map Prod.fst

/-- The files once a blob is stored. -/
def landed (location : Path) (fs : FileSystem) (w : PendingWrite) : FileSystem :=
  ((fs.put (partPath skip location w.name).value w.data).remove
    (partPath skip location w.name).value).put (blobPath skip location w.name).value w.data

/-- What storing a blob does to a file: it holds the bytes, or it is gone. -/
def touched (location : Path) (q : Wide) (w : PendingWrite) : Option (Option Bytes) :=
  if q = (blobPath skip location w.name).value then some (some w.data)
  else if q = (partPath skip location w.name).value then some none
  else none

def lastWritten (n : Bytes) (ws : List PendingWrite) : Option Bytes :=
  lastSome (fun w => if w.name = n then some w.data else none) ws

/-- The map that the container is meant to be: what was last written under the name, and else what
was there before. -/
def written (n : Bytes) (before : Option Bytes) (ws : List PendingWrite) : Option Bytes :=
  (lastWritten n ws).or before

def mapRead : Option Bytes → BlobRead
  | some data => .found data
  | none => .notFound

/-- A write that concerns the file of the name: its own name is converted to the same units, or it
becomes them with `.part` behind it. -/
def concerning (n : Bytes) (w : PendingWrite) : Option PendingWrite :=
  if convert skip w.name = convert skip n ∨ convert skip w.name ++ wide ".part" = convert skip n then
    some w
  else none

/-- The last write that concerns the file of the name is one of the name itself; or one of another
name that is converted to the same units, and of the same bytes; or it went through the file while
nothing was stored there. -/
def Undisturbed (n : Bytes) (before : Option Bytes) (ws : List PendingWrite) : Prop :=
  ∀ w, lastSome (concerning skip n) ws = some w → w.name = n ∨
    convert skip w.name = convert skip n ∧ written n before ws = some w.data ∨
    convert skip w.name ++ wide ".part" = convert skip n ∧ written n before ws = none

end

variable (skip : Bytes → ℕ)

/-! ## What becomes of one file -/

theorem work_landed {location : Path} {fs : FileSystem} {ws : List (PendingWrite × BlobEnv)}
    (done : (work skip location fs ws).done = true) :
    (work skip location fs ws).files = (ws.map Prod.fst).foldl (landed skip location) fs := by
  induction ws generalizing fs with
  | nil => rfl
  | cons head rest ih =>
    obtain ⟨w, e⟩ := head
    have cases := storeBlob_cases skip location fs w e
    simp only [work] at done ⊢
    generalize storeBlob skip location fs w e = s at cases done ⊢
    cases cases with
    | closed _ => simp at done
    | short _ _ _ _ => simp at done
    | unmoved _ _ _ _ => simp at done
    | stored _ _ _ _ =>
      simp only [if_true] at done ⊢
      exact ih done

theorem submits_landed {location : Path} {fs fs' : FileSystem}
    {us : List (List (PendingWrite × BlobEnv))} (h : submits skip location fs us = some fs') :
    fs' = (writesOf us).foldl (landed skip location) fs := by
  induction us generalizing fs with
  | nil => exact (Option.some.inj h).symm
  | cons u us ih =>
    simp only [submits] at h
    split_ifs at h with done
    rw [writesOf, List.flatten_cons, List.map_append, List.foldl_append, ← work_landed skip done]
    exact ih h

theorem landed_files (location : Path) (fs : FileSystem) (w : PendingWrite) (q : Wide) :
    (landed skip location fs w).files q = (touched skip location q w).getD (fs.files q) := by
  unfold landed touched
  split_ifs with hblob hpart
  · rw [hblob, FileSystem.put_files_self]
    rfl
  · rw [FileSystem.put_files_of_ne _ _ hblob, hpart, FileSystem.remove_files_self]
    rfl
  · rw [FileSystem.put_files_of_ne _ _ hblob, FileSystem.remove_files_of_ne _ hpart,
      FileSystem.put_files_of_ne _ _ hpart]
    rfl

theorem landed_directory (location : Path) (fs : FileSystem) (ws : List PendingWrite) :
    (ws.foldl (landed skip location) fs).directory = fs.directory := by
  induction ws generalizing fs with
  | nil => rfl
  | cons w ws ih => rw [List.foldl_cons, ih]; rfl

theorem foldl_landed_files (location : Path) (fs : FileSystem) (ws : List PendingWrite) (q : Wide) :
    (ws.foldl (landed skip location) fs).files q =
      (lastSome (touched skip location q) ws).getD (fs.files q) :=
  foldl_eq_lastSome (landed skip location) (fun fs => fs.files q)
    (fun fs w => landed_files skip location fs w q) ws fs

/-! ## Names and files -/

theorem text_of_short {n : Bytes} (short : n.length ≤ 63) : text blobNameCapacity n = n :=
  List.take_of_length_le short

theorem short_paths {location : Path} {n : Bytes} (h : storable n = true) (short : n.length ≤ 63)
    (room : (wholePath skip location n).length + 5 ≤ 511) :
    (blobPath skip location n).value = wholePath skip location n ∧
      (partPath skip location n).value = wholePath skip location n ++ wide ".part" := by
  have htext := text_of_short short
  have hpaths := Fits.paths skip ⟨by rw [htext], room⟩ h
  rwa [htext] at hpaths

theorem wholePath_eq_iff (location : Path) (n m : Bytes) :
    wholePath skip location n = wholePath skip location m ↔ convert skip n = convert skip m := by
  rw [wholePath, wholePath, under, under]
  exact ⟨List.append_cancel_left, fun h => by rw [h]⟩

theorem wholePath_part_iff (location : Path) (n m : Bytes) :
    wholePath skip location n = wholePath skip location m ++ wide ".part" ↔
      convert skip n = convert skip m ++ wide ".part" := by
  rw [wholePath, wholePath, under, under, List.append_assoc (location.value ++ _)]
  exact ⟨List.append_cancel_left, fun h => by rw [h]⟩

theorem touched_wholePath {location : Path} {w : PendingWrite}
    (room : (wholePath skip location w.name).length + 5 ≤ 511) (n : Bytes) :
    touched skip location (wholePath skip location n) w =
      if convert skip w.name = convert skip n then some (some w.data)
      else if convert skip w.name ++ wide ".part" = convert skip n then some none
      else none := by
  obtain ⟨hblob, hpart⟩ := short_paths skip w.storable w.fits room
  unfold touched
  rw [hblob, hpart]
  simp only [wholePath_eq_iff, wholePath_part_iff, eq_comm]

theorem lastSome_touched {location : Path} {ws : List PendingWrite} {n : Bytes}
    (touches : ∀ w ∈ ws, touched skip location (wholePath skip location n) w =
      if convert skip w.name = convert skip n then some (some w.data)
      else if convert skip w.name ++ wide ".part" = convert skip n then some none
      else none) :
    lastSome (touched skip location (wholePath skip location n)) ws =
      (lastSome (concerning skip n) ws).map fun w =>
        if convert skip w.name = convert skip n then some w.data else none := by
  induction ws using List.reverseRecOn with
  | nil => rfl
  | append_singleton ws w ih =>
    rw [lastSome_concat, lastSome_concat, ih fun x hx => touches x (List.mem_append_left _ hx),
      touches w (by simp), concerning]
    by_cases hname : convert skip w.name = convert skip n
    · simp [hname]
    · by_cases hpart : convert skip w.name ++ wide ".part" = convert skip n
      · simp [hname, hpart]
      · simp [hname, hpart]

/-- A write of the name itself concerns its file, so none came after the last that does. -/
theorem written_of_last {n : Bytes} {before : Option Bytes} {ws : List PendingWrite}
    {w : PendingWrite} (h : lastSome (concerning skip n) ws = some w) (hname : w.name = n) :
    written n before ws = some w.data := by
  induction ws using List.reverseRecOn with
  | nil => cases h
  | append_singleton ws x ih =>
    rw [lastSome_concat] at h
    rw [written, lastWritten, lastSome_concat]
    by_cases hx : x.name = n
    · have hself : concerning skip n x = some x := by simp [concerning, hx]
      rw [hself, Option.some_or] at h
      obtain rfl := Option.some.inj h
      simp [hx]
    · cases hc : concerning skip n x with
      | none =>
        rw [hc, Option.none_or] at h
        rw [if_neg hx, Option.none_or]
        exact ih h
      | some y =>
        rw [hc, Option.some_or] at h
        obtain rfl := Option.some.inj h
        have : y = x := by
          unfold concerning at hc
          split_ifs at hc
          exact (Option.some.inj hc).symm
        exact absurd (this ▸ hname) hx

theorem written_of_none {n : Bytes} {before : Option Bytes} {ws : List PendingWrite}
    (h : lastSome (concerning skip n) ws = none) : written n before ws = before := by
  induction ws using List.reverseRecOn with
  | nil => rfl
  | append_singleton ws x ih =>
    rw [lastSome_concat, Option.or_eq_none_iff] at h
    have hx : x.name ≠ n := by
      rintro rfl
      simp [concerning] at h
    rw [written, lastWritten, lastSome_concat, if_neg hx, Option.none_or]
    exact ih h.2

theorem readBlob_wholePath {location : Path} {fs : FileSystem} {n : Bytes} (h : storable n = true)
    (short : n.length ≤ 63) (room : (wholePath skip location n).length ≤ 511)
    (plain : fs.directory (wholePath skip location n) = false) :
    readBlob skip location fs n true = mapRead (fs.files (wholePath skip location n)) := by
  have hne : n ≠ [] := by
    rintro rfl
    simp [storable] at h
  have hpath : (readPath skip location n).value = wholePath skip location n := by
    rw [readPath, text_of_short short,
      location.append_value skip hne (short.trans (by decide : 63 ≤ Path.capacity)), ← wholePath,
      List.take_of_length_le room]
  have hconverted := convert_ne_nil skip hne
  have hmay : fs.mayOpen (wholePath skip location n) = true := by
    simp only [FileSystem.mayOpen, plain, Bool.not_false, Bool.and_true, decide_eq_true_eq]
    rw [wholePath, under, List.getLast?_append_of_ne_nil _ hconverted]
    refine ⟨List.append_ne_nil_of_right_ne_nil _ hconverted, fun hlast => ?_⟩
    exact not_backslash skip h _ (List.mem_of_getLast? hlast) rfl
  rw [readBlob, hpath, FileSystem.openRead, if_pos ⟨hmay, rfl⟩]
  cases fs.files (wholePath skip location n) <;> rfl

theorem mapRead_injective : Function.Injective mapRead := by
  intro a b h
  cases a <;> cases b <;> simp_all [mapRead]

/-- What the writes leave in the file of a name is what was last written under it, if and only if no
write of another name disturbed the file since. -/
theorem landed_iff {location : Path} {ws : List PendingWrite} {n : Bytes} (before : Option Bytes)
    (touches : ∀ w ∈ ws, touched skip location (wholePath skip location n) w =
      if convert skip w.name = convert skip n then some (some w.data)
      else if convert skip w.name ++ wide ".part" = convert skip n then some none
      else none) :
    (lastSome (touched skip location (wholePath skip location n)) ws).getD before =
        written n before ws ↔ Undisturbed skip n before ws := by
  rw [lastSome_touched skip touches]
  cases hlast : lastSome (concerning skip n) ws with
  | none =>
    rw [written_of_none skip hlast]
    simp [Undisturbed, hlast]
  | some w =>
    obtain ⟨x, -, hx⟩ := exists_of_lastSome hlast
    have hconcerns : convert skip w.name = convert skip n ∨
        convert skip w.name ++ wide ".part" = convert skip n := by
      unfold concerning at hx
      split_ifs at hx with hor
      obtain rfl := Option.some.inj hx
      exact hor
    -- a name is no other name with something behind it
    have apart : convert skip w.name ++ wide ".part" = convert skip n →
        convert skip w.name ≠ convert skip n := by
      intro hpart hname
      have hlength := congrArg List.length (hpart.trans hname.symm)
      rw [List.length_append, part_length] at hlength
      omega
    simp only [Undisturbed, hlast, Option.map_some, Option.getD_some, Option.some.injEq,
      forall_eq']
    constructor
    · intro heq
      by_cases hname : convert skip w.name = convert skip n
      · rw [if_pos hname] at heq
        exact .inr (.inl ⟨hname, heq.symm⟩)
      · rw [if_neg hname] at heq
        exact .inr (.inr ⟨hconcerns.resolve_left hname, heq.symm⟩)
    · rintro (hname | ⟨hname, heq⟩ | ⟨hpart, heq⟩)
      · rw [if_pos (by rw [hname]), written_of_last skip hlast hname]
      · rw [if_pos hname, heq]
      · rw [if_neg (apart hpart), heq]

/-- After any updates that complete, reading a name answers what was last written under it, if and
only if no write of another name disturbed its file since. -/
theorem container_is_map {location : Path} {fs fs' : FileSystem}
    {us : List (List (PendingWrite × BlobEnv))} {n : Bytes} (h : storable n = true)
    (short : n.length ≤ 63) (room : (wholePath skip location n).length ≤ 511)
    (rooms : ∀ w ∈ writesOf us, (wholePath skip location w.name).length + 5 ≤ 511)
    (plain : fs.directory (wholePath skip location n) = false)
    (completes : submits skip location fs us = some fs') :
    readBlob skip location fs' n true =
        mapRead (written n (fs.files (wholePath skip location n)) (writesOf us)) ↔
      Undisturbed skip n (fs.files (wholePath skip location n)) (writesOf us) := by
  have hfiles := submits_landed skip completes
  have hplain : fs'.directory (wholePath skip location n) = false := by
    rw [hfiles, landed_directory]
    exact plain
  rw [readBlob_wholePath skip h short room hplain, mapRead_injective.eq_iff, hfiles,
    foldl_landed_files]
  exact landed_iff skip _ fun w hw => touched_wholePath skip (rooms w hw) n

/-- A blob of an update, where no call fails. -/
def blobOf (n : String) (data : Bytes) (h : storable (utf8 n.toList) = true) :
    PendingWrite × BlobEnv :=
  (.of (utf8 n.toList) data h, {})

/-- Two blobs are stored, and then the first of them again. -/
def storeThree : List (List (PendingWrite × BlobEnv)) :=
  [[blobOf "one" [1] one_storable, blobOf "two" [2] two_storable], [blobOf "one" [3] one_storable]]

theorem container_is_map_settings : ∃ fs, submits (fun _ => 1) saves (bare saves) storeThree = some fs ∧
    readBlob (fun _ => 1) saves fs (utf8 "one".toList) true = .found [3] := by
  have done : (submits (fun _ => 1) saves (bare saves) storeThree).isSome = true := by decide +kernel
  obtain ⟨fs, hfs⟩ := Option.isSome_iff_exists.mp done
  refine ⟨fs, hfs, ?_⟩
  have hmap := container_is_map (fun _ => 1) (n := utf8 "one".toList) (by decide +kernel)
    (by decide +kernel) (by decide +kernel) (by decide +kernel) (by decide +kernel) hfs
  have hlast : lastSome (concerning (fun _ => 1) (utf8 "one".toList)) (writesOf storeThree) =
      some (blobOf "one" [3] one_storable).1 := by
    decide +kernel
  refine (hmap.mpr ?_).trans (by decide +kernel)
  intro w hw
  rw [hlast] at hw
  obtain rfl := Option.some.inj hw
  exact .inl (by decide +kernel)

/-- A blob is stored, and then one whose temporary file has its name. -/
def storePart : List (List (PendingWrite × BlobEnv)) :=
  [[blobOf "a.part" [1] (by decide +kernel)], [blobOf "a" [2] (by decide +kernel)]]

/-- The blob that was stored first is gone, and nothing failed. -/
theorem part_overwritten :
    ¬ ∀ (skip : Bytes → ℕ) (location : Path) (fs fs' : FileSystem)
      (us : List (List (PendingWrite × BlobEnv))) (n : Bytes), storable n = true → n.length ≤ 63 →
      (wholePath skip location n).length ≤ 511 →
      (∀ w ∈ writesOf us, (wholePath skip location w.name).length + 5 ≤ 511) →
      fs.directory (wholePath skip location n) = false → submits skip location fs us = some fs' →
      readBlob skip location fs' n true =
        mapRead (written n (fs.files (wholePath skip location n)) (writesOf us)) := by
  intro claim
  have done : (submits (fun _ => 1) saves (bare saves) storePart).isSome = true := by decide +kernel
  obtain ⟨fs, hfs⟩ := Option.isSome_iff_exists.mp done
  have hread := claim (fun _ => 1) saves (bare saves) fs storePart (utf8 "a.part".toList)
    (by decide +kernel) (by decide +kernel) (by decide +kernel) (by decide +kernel)
    (by decide +kernel) hfs
  have hlost : (submits (fun _ => 1) saves (bare saves) storePart).map (fun fs =>
      readBlob (fun _ => 1) saves fs (utf8 "a.part".toList) true) = some .notFound := by
    decide +kernel
  rw [hfs, Option.map_some, Option.some.injEq, hread] at hlost
  revert hlost
  decide +kernel

end IW4x.Gdk
