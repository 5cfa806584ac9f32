import IW4x.Gdk.BlobMap

/-!
# Updates that fail

A blob of an update is written to a temporary file and moved, so a failure should leave the old blob
or the new one. What a failure leaves of the temporary file depends on the call that failed: only a
move that fails has the file deleted. And the temporary files of all blobs up to the failure pass
over whatever was stored under their names.
-/

namespace IW4x.Gdk

open Unicode Lists

section

variable (skip : Bytes → ℕ)

/-- Every file is as it was, or is that of a blob of the update and holds all of its new bytes. So a
blob has its old bytes or its new ones, other blobs are unchanged, and no other file was added. -/
def Preserved (location : Path) (fs fs' : FileSystem) (ws : List PendingWrite) : Prop :=
  ∀ q, fs'.files q = fs.files q ∨
    (∃ w ∈ ws, (blobPath skip location w.name).value = q) ∧
      ∀ w ∈ ws, (blobPath skip location w.name).value = q → fs'.files q = some w.data

def Opened (location : Path) (fs : FileSystem) (w : PendingWrite) (e : BlobEnv) : Prop :=
  fs.mayOpen (partPath skip location w.name).value = true ∧ e.opens = true

/-- What is left of a temporary file that was opened and not moved. -/
def leftover (w : PendingWrite) (e : BlobEnv) : Option Bytes :=
  if w.data = [] ∨ (writeFile e.answers w.data).2 = true then
    if e.deletes then none else some w.data
  else some (writeFile e.answers w.data).1

/-- When a failure at `w` is harmless, after the blobs `before` were stored. -/
structure Harmless (location : Path) (fs : FileSystem) (ws before : List PendingWrite)
    (w : PendingWrite) (e : BlobEnv) : Prop where
  /-- Blobs of the update that have one file have the same bytes, if one of them was stored. -/
  stored : ∀ q data, lastSome (touched skip location q) before = some (some data) →
    ¬ (Opened skip location fs w e ∧ q = (partPath skip location w.name).value) →
    fs.files q = some data ∨
      ∀ v ∈ ws, (blobPath skip location v.name).value = q → v.data = data
  /-- A temporary file that was moved, and not stored to since, passed over no file. -/
  moved : ∀ q, lastSome (touched skip location q) before = some none →
    ¬ (Opened skip location fs w e ∧ q = (partPath skip location w.name).value) →
    fs.files q = none
  /-- The temporary file of the blob that fails is left as it was, or is a blob of the update. -/
  last : Opened skip location fs w e →
    fs.files (partPath skip location w.name).value = leftover w e ∨
      (∃ v ∈ ws, (blobPath skip location v.name).value = (partPath skip location w.name).value) ∧
        ∀ v ∈ ws, (blobPath skip location v.name).value = (partPath skip location w.name).value →
          leftover w e = some v.data

/-- The files of the blobs and their temporary files are all different. -/
structure Separate (location : Path) (ws : List PendingWrite) : Prop where
  blobs : (ws.map fun w => (blobPath skip location w.name).value).Nodup
  parts : (ws.map fun w => (partPath skip location w.name).value).Nodup
  apart : ∀ v ∈ ws, ∀ w ∈ ws,
    (blobPath skip location v.name).value ≠ (partPath skip location w.name).value

/-- When a failure is harmless, if the files are all different: no file was passed over, and that of
the failure is left as it was. -/
structure Untouched (location : Path) (fs : FileSystem) (before : List PendingWrite)
    (w : PendingWrite) (e : BlobEnv) : Prop where
  moved : ∀ v ∈ before, fs.files (partPath skip location v.name).value = none
  last : Opened skip location fs w e →
    fs.files (partPath skip location w.name).value = leftover w e

end

variable (skip : Bytes → ℕ)

/-! ## The failure -/

theorem work_failure {location : Path} {fs : FileSystem} {before : List (PendingWrite × BlobEnv)}
    {w : PendingWrite} {e : BlobEnv} (after : List (PendingWrite × BlobEnv))
    (stores : (work skip location fs before).done = true)
    (fails : (storeBlob skip location (work skip location fs before).files w e).done = false) :
    (work skip location fs (before ++ (w, e) :: after)).files =
      (storeBlob skip location (work skip location fs before).files w e).files := by
  induction before generalizing fs with
  | nil =>
    simp only [work] at fails
    simp [work, fails]
  | cons head rest ih =>
    obtain ⟨v, d⟩ := head
    simp only [work] at stores
    split_ifs at stores with hstored
    · simp only [work, if_pos hstored, List.cons_append] at fails ⊢
      exact ih stores fails
    · exact absurd stores hstored

/-- A blob that is not stored leaves its temporary file, if that was opened, and nothing else. -/
theorem storeBlob_failure {location : Path} {fs : FileSystem} {w : PendingWrite} {e : BlobEnv}
    (fails : (storeBlob skip location fs w e).done = false) (q : Wide) :
    (Opened skip location fs w e → q = (partPath skip location w.name).value →
        (storeBlob skip location fs w e).files.files q = leftover w e) ∧
      (¬ (Opened skip location fs w e ∧ q = (partPath skip location w.name).value) →
        (storeBlob skip location fs w e).files.files q = fs.files q) := by
  have cases := storeBlob_cases skip location fs w e
  generalize storeBlob skip location fs w e = s at cases fails ⊢
  cases cases with
  | closed hclosed =>
    refine ⟨fun hopened _ => ?_, fun _ => rfl⟩
    simp [FileSystem.createAlways, hopened.1, hopened.2] at hclosed
  | short may opens hdata hshort =>
    refine ⟨fun _ hq => ?_, fun hother => ?_⟩
    · rw [hq, FileSystem.put_files_self, leftover, if_neg (by simp [hdata, hshort])]
    · exact FileSystem.put_files_of_ne _ _ fun hq => hother ⟨⟨may, opens⟩, hq⟩
  | unmoved may opens hfull _ =>
    refine ⟨fun _ hq => ?_, fun hother => ?_⟩
    · rw [hq, leftover, if_pos hfull]
      split_ifs <;> simp
    · have hne : q ≠ (partPath skip location w.name).value := fun hq => hother ⟨⟨may, opens⟩, hq⟩
      split_ifs
      · rw [FileSystem.remove_files_of_ne _ hne, FileSystem.put_files_of_ne _ _ hne]
      · exact FileSystem.put_files_of_ne _ _ hne
  | stored _ _ _ _ => cases fails

/-! ## Which failures are harmless -/

theorem touched_blob {location : Path} {q : Wide} {w : PendingWrite} {data : Bytes}
    (h : touched skip location q w = some (some data)) :
    (blobPath skip location w.name).value = q ∧ w.data = data := by
  unfold touched at h
  split_ifs at h with hblob hpart
  · exact ⟨hblob.symm, Option.some.inj (Option.some.inj h)⟩
  · cases h

theorem touched_part {location : Path} {q : Wide} {w : PendingWrite}
    (h : touched skip location q w = some none) : (partPath skip location w.name).value = q := by
  unfold touched at h
  split_ifs at h with hblob hpart
  · cases Option.some.inj h
  · exact hpart.symm

/-- A failure leaves what the update is meant to leave, if and only if it is harmless. -/
theorem preserved_iff {location : Path} {fs : FileSystem}
    {before : List (PendingWrite × BlobEnv)} {w : PendingWrite} {e : BlobEnv}
    (after : List (PendingWrite × BlobEnv))
    (stores : (work skip location fs before).done = true)
    (fails : (storeBlob skip location (work skip location fs before).files w e).done = false) :
    Preserved skip location fs (work skip location fs (before ++ (w, e) :: after)).files
        ((before ++ (w, e) :: after).map Prod.fst) ↔
      Harmless skip location fs ((before ++ (w, e) :: after).map Prod.fst) (before.map Prod.fst)
        w e := by
  have hlanded := work_landed skip stores
  have hopened : Opened skip location (work skip location fs before).files w e ↔
      Opened skip location fs w e := by
    rw [hlanded, Opened, Opened, FileSystem.mayOpen, FileSystem.mayOpen, landed_directory]
  have hmem : ∀ v ∈ before.map Prod.fst, v ∈ (before ++ (w, e) :: after).map Prod.fst := by
    intro v hv
    rw [List.map_append]
    exact List.mem_append_left _ hv
  rw [work_failure skip after stores fails]
  -- what is in a file after the failure
  have hpart : Opened skip location fs w e →
      (storeBlob skip location (work skip location fs before).files w e).files.files
        (partPath skip location w.name).value = leftover w e := fun opened =>
    (storeBlob_failure skip fails _).1 (hopened.mpr opened) rfl
  have hother : ∀ q,
      ¬ (Opened skip location fs w e ∧ q = (partPath skip location w.name).value) →
      (storeBlob skip location (work skip location fs before).files w e).files.files q =
        (lastSome (touched skip location q) (before.map Prod.fst)).getD (fs.files q) := by
    intro q hq
    rw [(storeBlob_failure skip fails q).2 (by rwa [hopened]), hlanded, foldl_landed_files]
  generalize (storeBlob skip location (work skip location fs before).files w e).files = fs' at *
  generalize (before ++ (w, e) :: after).map Prod.fst = ws at *
  constructor
  · intro preserved
    constructor
    · intro q data hlast hq
      have hkept := preserved q
      rw [hother q hq, hlast, Option.getD_some] at hkept
      refine hkept.imp Eq.symm fun hblob v hv hpath => ?_
      exact (Option.some.inj (hblob.2 v hv hpath)).symm
    · intro q hlast hq
      have hkept := preserved q
      rw [hother q hq, hlast, Option.getD_some] at hkept
      rcases hkept with hkept | ⟨⟨v, hv, hpath⟩, hblob⟩
      · exact hkept.symm
      · cases hblob v hv hpath
    · intro opened
      have hkept := preserved (partPath skip location w.name).value
      rw [hpart opened] at hkept
      exact hkept.imp_left Eq.symm
  · intro harmless q
    by_cases hq : Opened skip location fs w e ∧ q = (partPath skip location w.name).value
    · obtain ⟨opened, rfl⟩ := hq
      rw [hpart opened]
      exact (harmless.last opened).imp_left Eq.symm
    · rw [hother q hq]
      cases hlast : lastSome (touched skip location q) (before.map Prod.fst) with
      | none => exact .inl rfl
      | some held =>
        rw [Option.getD_some]
        cases held with
        | none => exact .inl (harmless.moved q hlast hq).symm
        | some data =>
          refine (harmless.stored q data hlast hq).imp Eq.symm fun hblob => ?_
          obtain ⟨v, hv, htouched⟩ := exists_of_lastSome hlast
          refine ⟨⟨v, hmem v hv, (touched_blob skip htouched).1⟩, fun x hx hpath => ?_⟩
          rw [hblob x hx hpath]

/-! ## Files that are all different -/

theorem Separate.sublist {location : Path} {ws vs : List PendingWrite}
    (separate : Separate skip location ws) (h : vs.Sublist ws) : Separate skip location vs :=
  ⟨separate.blobs.sublist (h.map _), separate.parts.sublist (h.map _),
    fun v hv w hw => separate.apart v (h.subset hv) w (h.subset hw)⟩

theorem Separate.touched_blob {location : Path} {ws : List PendingWrite}
    (separate : Separate skip location ws) {w : PendingWrite} (hw : w ∈ ws) :
    lastSome (touched skip location (blobPath skip location w.name).value) ws =
      some (some w.data) := by
  refine lastSome_eq ⟨w, hw, by simp [touched]⟩ fun v hv held hheld => ?_
  unfold touched at hheld
  split_ifs at hheld with hblob hpart
  · rw [List.inj_on_of_nodup_map separate.blobs hw hv hblob]
    exact (Option.some.inj hheld).symm
  · exact absurd hpart (separate.apart w hw v hv)

theorem Separate.touched_part {location : Path} {ws : List PendingWrite}
    (separate : Separate skip location ws) {w : PendingWrite} (hw : w ∈ ws) :
    lastSome (touched skip location (partPath skip location w.name).value) ws = some none := by
  refine lastSome_eq ⟨w, hw, ?_⟩ fun v hv held hheld => ?_
  · simp [touched, (separate.apart w hw w hw).symm]
  · unfold touched at hheld
    split_ifs at hheld with hblob hpart
    · exact absurd hblob.symm (separate.apart v hv w hw)
    · exact (Option.some.inj hheld).symm

/-- Where the files are all different, a failure is harmless if it left no file other than it was. -/
theorem Separate.harmless_iff {location : Path} {fs : FileSystem}
    {ws before after : List PendingWrite} {w : PendingWrite} {e : BlobEnv}
    (hws : ws = before ++ w :: after) (separate : Separate skip location ws) :
    Harmless skip location fs ws before w e ↔ Untouched skip location fs before w e := by
  have hw : w ∈ ws := by simp [hws]
  have hsub : before.Sublist ws := hws ▸ List.sublist_append_left before _
  constructor
  · intro harmless
    constructor
    · intro v hv
      refine harmless.moved _ ((separate.sublist skip hsub).touched_part skip hv) ?_
      rintro ⟨-, hpart⟩
      have hparts := separate.parts
      rw [hws, List.map_append, List.nodup_append] at hparts
      exact hparts.2.2 _ (List.mem_map_of_mem hv) _ (List.mem_map_of_mem List.mem_cons_self) hpart
    · intro opened
      refine (harmless.last opened).resolve_right ?_
      rintro ⟨⟨v, hv, hpath⟩, -⟩
      exact separate.apart v hv w hw hpath
  · intro untouched
    constructor
    · intro q data hlast _
      obtain ⟨x, hx, htouched⟩ := exists_of_lastSome hlast
      obtain ⟨hpath, rfl⟩ := Gdk.touched_blob skip htouched
      refine .inr fun v hv hv' => ?_
      rw [List.inj_on_of_nodup_map separate.blobs hv (hsub.subset hx) (hv'.trans hpath.symm)]
    · intro q hlast _
      obtain ⟨x, hx, htouched⟩ := exists_of_lastSome hlast
      rw [← Gdk.touched_part skip htouched]
      exact untouched.moved x hx
    · exact fun opened => .inl (untouched.last opened)

/-- Different names in UTF-8, none of which is another with `.part` behind it, have files that are
all different, where their paths have room. -/
theorem Separate.of_names {location : Path} {ws : List PendingWrite}
    (names : ∀ w ∈ ws, ∃ cs, w.name = utf8 cs) (distinct : (ws.map PendingWrite.name).Nodup)
    (apart : ∀ v ∈ ws, ∀ w ∈ ws, v.name ≠ w.name ++ utf8 ".part".toList)
    (room : ∀ w ∈ ws, (wholePath skip location w.name).length + 5 ≤ 511) :
    Separate skip location ws := by
  have paths := fun w hw => short_paths skip w.storable w.fits (room w hw)
  have injective : ∀ v ∈ ws, ∀ w ∈ ws,
      wholePath skip location v.name = wholePath skip location w.name → v.name = w.name := by
    intro v hv w hw heq
    obtain ⟨cs, hcs⟩ := names v hv
    obtain ⟨ds, hds⟩ := names w hw
    rw [hcs, hds] at heq ⊢
    rw [wholePath_injective skip location heq]
  constructor
  · refine distinct.of_map _ |>.map_on fun v hv w hw heq => ?_
    rw [(paths v hv).1, (paths w hw).1] at heq
    exact List.inj_on_of_nodup_map distinct hv hw (injective v hv w hw heq)
  · refine distinct.of_map _ |>.map_on fun v hv w hw heq => ?_
    rw [(paths v hv).2, (paths w hw).2] at heq
    exact List.inj_on_of_nodup_map distinct hv hw
      (injective v hv w hw (List.append_cancel_right heq))
  · intro v hv w hw heq
    rw [(paths v hv).1, (paths w hw).2, wholePath_part_iff] at heq
    obtain ⟨cs, hcs⟩ := names v hv
    obtain ⟨ds, hds⟩ := names w hw
    refine apart v hv w hw ?_
    rw [hcs, hds, convert_utf8, convert_utf8, wide, ← utf16_append] at heq
    rw [hcs, hds, utf16_injective heq, utf8_append]

/-- A failure leaves each blob with its old or its new bytes and no file beside them, if and only if
it is harmless. -/
theorem update_failure {location : Path} {fs : FileSystem}
    {before : List (PendingWrite × BlobEnv)} {w : PendingWrite} {e : BlobEnv}
    (after : List (PendingWrite × BlobEnv))
    (stores : (work skip location fs before).done = true)
    (fails : (storeBlob skip location (work skip location fs before).files w e).done = false) :
    let ws := (before ++ (w, e) :: after).map Prod.fst
    let fs' := (work skip location fs (before ++ (w, e) :: after)).files
    (Preserved skip location fs fs' ws ↔
        Harmless skip location fs ws (before.map Prod.fst) w e) ∧
      (Separate skip location ws →
        (Preserved skip location fs fs' ws ↔
          Untouched skip location fs (before.map Prod.fst) w e)) := by
  intro ws fs'
  have hiff := preserved_iff skip after stores fails
  have hws : ws = before.map Prod.fst ++ w :: after.map Prod.fst := by simp [ws]
  exact ⟨hiff, fun separate => hiff.trans (separate.harmless_iff skip hws)⟩

def unmovedUpdate : List (PendingWrite × BlobEnv) :=
  [blobOf "one" [1] one_storable,
    (.of (utf8 "two".toList) [2] two_storable, { renames := false })]

theorem update_failure_settings :
    Preserved (fun _ => 1) saves (bare saves)
      (work (fun _ => 1) saves (bare saves) unmovedUpdate).files (unmovedUpdate.map Prod.fst) := by
  have stores : (work (fun _ => 1) saves (bare saves)
      [blobOf "one" [1] one_storable]).done = true := by decide +kernel
  have hfailure := update_failure (fun _ => 1) (w := .of (utf8 "two".toList) [2] two_storable)
    (e := { renames := false }) [] stores (by decide +kernel)
  refine (hfailure.2 ?_).mpr ?_
  · exact ⟨by decide +kernel, by decide +kernel, by decide +kernel⟩
  · exact ⟨fun _ _ => rfl, fun _ => by decide +kernel⟩

/-- A blob of an update is not written, since `WriteFile` fails. -/
def shortUpdate : PendingWrite × BlobEnv :=
  (.of (utf8 "one".toList) [1] one_storable, { answers := [none] })

/-- The temporary file stays. -/
theorem part_left_behind :
    ¬ ∀ (skip : Bytes → ℕ) (location : Path) (fs : FileSystem)
      (ws : List (PendingWrite × BlobEnv)),
      (∀ w ∈ ws.map Prod.fst, ∃ cs, w.name = utf8 cs) →
      ((ws.map Prod.fst).map PendingWrite.name).Nodup →
      (∀ v ∈ ws.map Prod.fst, ∀ w ∈ ws.map Prod.fst, v.name ≠ w.name ++ utf8 ".part".toList) →
      (work skip location fs ws).done = false →
      Preserved skip location fs (work skip location fs ws).files (ws.map Prod.fst) := by
  intro claim
  have hkept := claim (fun _ => 1) saves (bare saves) [shortUpdate]
    (by simpa using ⟨"one".toList, by decide +kernel⟩) (by decide +kernel) (by decide +kernel)
    (by decide +kernel) (partPath (fun _ => 1) saves (utf8 "one".toList)).value
  rcases hkept with hkept | ⟨⟨v, hv, hpath⟩, -⟩
  · revert hkept
    decide +kernel
  · obtain rfl := List.mem_singleton.mp hv
    revert hpath
    decide +kernel

end IW4x.Gdk
