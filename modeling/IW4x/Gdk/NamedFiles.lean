import IW4x.Gdk.BlobMap

/-!
# The files of two names

Two names should be stored in two files, each with the bytes that were last submitted under it, and
every file that is written or read for a name should have the whole name. The cuts of a name and of a
path break it, and within a submission a blob whose temporary file has the name of another.
-/

namespace IW4x.Gdk

open Unicode Lists

section

variable (skip : Bytes → ℕ)

/-- What is written and read for two names that a submission carries is in the files of the whole
names, which are different ones and hold what was submitted. -/
structure KeepsApart (location : Path) (ws : List PendingWrite) (a b : Bytes)
    (ha : storable a = true) (hb : storable b = true) : Prop where
  /-- The submission stores them in two files, if it completes. -/
  stored : ∀ fs us, fs.directory location.value = true → us.map Prod.fst = ws →
    (work skip location fs us).done = true →
    (blobPath skip location (text blobNameCapacity a)).value ≠
        (blobPath skip location (text blobNameCapacity b)).value ∧
      ∀ n, n = a ∨ n = b →
        (work skip location fs us).files.files
            (blobPath skip location (text blobNameCapacity n)).value =
          lastWritten (text blobNameCapacity n) ws
  /-- What is written for either has its whole path, and that is the file itself or the one that is
  moved there. -/
  written : ∀ n h, n = a ∨ n = b → ∀ fs, fs.directory location.value = true → ∀ data e,
    ∀ x ∈ (storeBlob skip location fs (.of n data h) e).events,
      x = .created (wholePath skip location n ++ wide ".part") ∨
        x = .replaced (wholePath skip location n)
  /-- What is read for either has its whole path. -/
  read : ∀ n, n = a ∨ n = b → ∀ fs, fs.directory location.value = true → ∀ ok,
    readBlob skip location fs n ok ≠ .failed →
      (readPath skip location n).value = wholePath skip location n

end

variable (skip : Bytes → ℕ)

/-! ## What a submission leaves -/

theorem work_bare {location : Path} (room : ¬ TooDeep location) (ws : List PendingWrite)
    {fs : FileSystem} (hfs : fs.directory = (bare location).directory) :
    (work skip location fs (ws.map fun w => (w, {}))).done = true := by
  induction ws generalizing fs with
  | nil => rfl
  | cons w ws ih =>
    have hdone := (storeBlob_bare skip room hfs w w.storable (text_of_short w.fits).symm).1
    rw [List.map_cons, work]
    dsimp only
    rw [if_pos hdone]
    exact ih ((storeBlob_events skip location fs w {}).2.2.trans hfs)

theorem take_under_eq_iff {location : Path} {n : Bytes}
    (room : (wholePath skip location n).length + 5 ≤ 511) (u : Wide) :
    (under location.value u).take 511 = wholePath skip location n ↔ u = convert skip n := by
  rw [wholePath] at room ⊢
  constructor
  · intro heq
    have huncut : (under location.value u).length ≤ 511 := by
      by_contra hlong
      have hlength := congrArg List.length heq
      rw [List.length_take, Nat.min_eq_left (by omega)] at hlength
      omega
    rw [List.take_of_length_le huncut] at heq
    exact List.append_cancel_left heq
  · rintro rfl
    exact List.take_of_length_le (by omega)

theorem touched_of_fits {location : Path} {n : Bytes}
    (room : (wholePath skip location n).length + 5 ≤ 511) (w : PendingWrite) :
    touched skip location (wholePath skip location n) w =
      if convert skip w.name = convert skip n then some (some w.data)
      else if convert skip w.name ++ wide ".part" = convert skip n then some none
      else none := by
  have htext := text_of_short w.fits
  have hblob := blobPath_value skip location w.storable
  have hpart := partPath_value skip location w.storable
  rw [htext] at hblob hpart
  unfold touched
  rw [hblob, hpart]
  simp only [eq_comm (a := wholePath skip location n), take_under_eq_iff skip room]

theorem lastWritten_isSome {n : Bytes} {ws : List PendingWrite} (carried : ∃ w ∈ ws, w.name = n) :
    (lastWritten n ws).isSome = true := by
  obtain ⟨w, hw, hname⟩ := carried
  rw [lastWritten, lastSome, List.findSome?_isSome_iff]
  exact ⟨w, List.mem_reverse.mpr hw, by rw [if_pos hname]; rfl⟩

theorem undisturbed_carried {n : Bytes} {ws : List PendingWrite} (carried : ∃ w ∈ ws, w.name = n)
    (before : Option Bytes) : Undisturbed skip n before ws ↔ Undisturbed skip n none ws := by
  obtain ⟨x, hx⟩ := Option.isSome_iff_exists.mp (lastWritten_isSome carried)
  simp only [Undisturbed, Gdk.written, hx, Option.some_or]

/-- A submission that carries the name leaves in its file what was last submitted, if and only if no
other blob disturbed the file since. -/
theorem carried_iff {location : Path} {fs : FileSystem} {us : List (PendingWrite × BlobEnv)}
    {n : Bytes} (h : storable n = true) (fits : Fits skip location n)
    (carried : ∃ w ∈ us.map Prod.fst, w.name = text blobNameCapacity n)
    (done : (work skip location fs us).done = true) :
    (work skip location fs us).files.files
          (blobPath skip location (text blobNameCapacity n)).value =
        lastWritten (text blobNameCapacity n) (us.map Prod.fst) ↔
      Undisturbed skip (text blobNameCapacity n) none (us.map Prod.fst) := by
  have hwhole : wholePath skip location (text blobNameCapacity n) = wholePath skip location n := by
    rw [wholePath, wholePath, fits.1]
  have hpath : (blobPath skip location (text blobNameCapacity n)).value =
      wholePath skip location (text blobNameCapacity n) := by
    rw [hwhole]
    exact (fits.paths skip h).1
  obtain ⟨x, hx⟩ := Option.isSome_iff_exists.mp (lastWritten_isSome carried)
  have hlanded := landed_iff skip (fs.files (wholePath skip location (text blobNameCapacity n)))
    fun w (_ : w ∈ us.map Prod.fst) => touched_of_fits skip (by rw [hwhole]; exact fits.2) w
  rw [undisturbed_carried skip carried, Gdk.written, hx, Option.some_or] at hlanded
  rw [work_landed skip done, hpath, foldl_landed_files, hx]
  exact hlanded

/-! ## Names that are kept apart -/

/-- Two names in UTF-8 that a submission carries are kept apart, each in a file of its whole name with
what was last submitted under it, if and only if nothing fits; or both fit, and neither file is
disturbed by a later blob of the submission. -/
theorem names_kept_apart (location : Path) (ws : List PendingWrite) (cs ds : List Char)
    (ha : storable (utf8 cs) = true) (hb : storable (utf8 ds) = true)
    (different : utf8 cs ≠ utf8 ds) (ca : ∃ w ∈ ws, w.name = text blobNameCapacity (utf8 cs))
    (cb : ∃ w ∈ ws, w.name = text blobNameCapacity (utf8 ds)) :
    KeepsApart skip location ws (utf8 cs) (utf8 ds) ha hb ↔
      TooDeep location ∨ (Fits skip location (utf8 cs) ∧ Fits skip location (utf8 ds)) ∧
        Undisturbed skip (text blobNameCapacity (utf8 cs)) none ws ∧
          Undisturbed skip (text blobNameCapacity (utf8 ds)) none ws := by
  constructor
  · intro apart
    by_cases deep : TooDeep location
    · exact .inl deep
    have fits : ∀ n, storable n = true → n = utf8 cs ∨ n = utf8 ds → Fits skip location n := by
      intro n h hn
      have hevents := (storeBlob_bare skip deep rfl (.of n [] h) h rfl).2
      have hwritten := apart.written n h hn (bare location) (bare_directory location) [] {}
      rw [hevents] at hwritten
      have hpart := hwritten _ List.mem_cons_self
      have hblob := hwritten _ (List.mem_cons_of_mem _ List.mem_cons_self)
      exact fits_of_paths skip h (by simpa using hblob) (by simpa using hpart)
    have hcarries : (ws.map fun w => ((w, {}) : PendingWrite × BlobEnv)).map Prod.fst = ws := by
      simp [Function.comp_def]
    have hdone : (work skip location (bare location) (ws.map fun w => (w, {}))).done = true :=
      work_bare skip deep ws rfl
    have hstored := (apart.stored (bare location) _ (bare_directory location) hcarries hdone).2
    have undisturbed : ∀ n, storable n = true → (n = utf8 cs ∨ n = utf8 ds) →
        (∃ w ∈ ws, w.name = text blobNameCapacity n) →
          Undisturbed skip (text blobNameCapacity n) none ws := by
      intro n h hn carried
      have hiff := carried_iff skip h (fits n h hn) (by rwa [hcarries]) hdone
      rw [hcarries] at hiff
      exact hiff.mp (hstored n hn)
    exact .inr ⟨⟨fits _ ha (.inl rfl), fits _ hb (.inr rfl)⟩, undisturbed _ ha (.inl rfl) ca,
      undisturbed _ hb (.inr rfl) cb⟩
  · rintro (deep | ⟨⟨hfa, hfb⟩, hua, hub⟩)
    · -- nothing is ever opened
      have unopened : ∀ n, storable n = true → ∀ fs : FileSystem,
          fs.directory location.value = true →
          FileSystem.mayOpen fs (partPath skip location (text blobNameCapacity n)).value = false := by
        intro n h fs hdir
        by_contra hmay
        rw [partPath_value skip location h] at hmay
        exact not_tooDeep hdir (by simpa using hmay) deep
      constructor
      · rintro fs us hdir rfl done
        obtain ⟨w, hw, hname⟩ := ca
        obtain ⟨⟨x, e⟩, hmem, rfl⟩ := List.mem_map.mp hw
        obtain ⟨fs', hdir', hstored⟩ := work_done skip hdir done hmem
        have hmay := (storeBlob_events skip location fs' _ e).2.1 (.inr hstored)
        dsimp only at hname
        rw [hname, unopened _ ha fs' hdir'] at hmay
        cases hmay
      · intro n h _ fs hdir data e x hx
        have hmay := (storeBlob_events skip location fs (.of n data h) e).2.1
          (.inl (List.ne_nil_of_mem hx))
        rw [PendingWrite.of_name, unopened n h fs hdir] at hmay
        cases hmay
      · intro n hn fs hdir ok hread
        have h : storable n = true := hn.elim (· ▸ ha) (· ▸ hb)
        have hclosed : fs.mayOpen (readPath skip location n).value = false := by
          by_contra hmay
          rw [readPath, ← blobPath, blobPath_value skip location h] at hmay
          exact not_tooDeep hdir (by simpa using hmay) deep
        simp [readBlob, FileSystem.openRead, hclosed] at hread
    · have fits : ∀ n, n = utf8 cs ∨ n = utf8 ds → Fits skip location n := by
        rintro n (rfl | rfl)
        exacts [hfa, hfb]
      constructor
      · rintro fs us - rfl done
        constructor
        · intro heq
          rw [(hfa.paths skip ha).1, (hfb.paths skip hb).1] at heq
          exact different (congrArg utf8 (wholePath_injective skip location heq))
        · rintro n (rfl | rfl)
          · exact (carried_iff skip ha hfa ca done).mpr hua
          · exact (carried_iff skip hb hfb cb done).mpr hub
      · intro n h hn fs _ data e x hx
        obtain ⟨hblob, hpart⟩ := (fits n hn).paths skip h
        have hevents := (storeBlob_events skip location fs (.of n data h) e).1 x hx
        rwa [PendingWrite.of_name, hblob, hpart] at hevents
      · intro n hn fs _ ok _
        have h : storable n = true := hn.elim (· ▸ ha) (· ▸ hb)
        exact ((fits n hn).paths skip h).1

/-- A submission of two blobs. -/
def oneAndTwo : List PendingWrite :=
  [.of (utf8 "one".toList) [1] one_storable, .of (utf8 "two".toList) [2] two_storable]

theorem oneAndTwo_last :
    lastSome (concerning (fun _ => 1) (text blobNameCapacity (utf8 "one".toList))) oneAndTwo =
        some (.of (utf8 "one".toList) [1] one_storable) ∧
      lastSome (concerning (fun _ => 1) (text blobNameCapacity (utf8 "two".toList))) oneAndTwo =
        some (.of (utf8 "two".toList) [2] two_storable) := by
  decide +kernel

theorem names_kept_apart_settings :
    KeepsApart (fun _ => 1) saves oneAndTwo (utf8 "one".toList) (utf8 "two".toList) one_storable
      two_storable := by
  refine (names_kept_apart (fun _ => 1) saves oneAndTwo "one".toList "two".toList one_storable
    two_storable (by decide +kernel) ⟨_, List.mem_cons_self, rfl⟩
    ⟨_, List.mem_cons_of_mem _ List.mem_cons_self, rfl⟩).mpr (.inr ⟨⟨?_, ?_⟩, ?_, ?_⟩)
  · exact ⟨by decide +kernel, by decide +kernel⟩
  · exact ⟨by decide +kernel, by decide +kernel⟩
  · intro w hw
    rw [oneAndTwo_last.1] at hw
    obtain rfl := Option.some.inj hw
    exact .inl rfl
  · intro w hw
    rw [oneAndTwo_last.2] at hw
    obtain rfl := Option.some.inj hw
    exact .inl rfl

/-- Both are stored in one file, and nothing fails. -/
theorem longNames_meet :
    ¬ ∀ (skip : Bytes → ℕ) (location : Path) (ws : List PendingWrite) (cs ds : List Char)
      (ha : storable (utf8 cs) = true) (hb : storable (utf8 ds) = true), utf8 cs ≠ utf8 ds →
        (∃ w ∈ ws, w.name = text blobNameCapacity (utf8 cs)) →
        (∃ w ∈ ws, w.name = text blobNameCapacity (utf8 ds)) →
          KeepsApart skip location ws (utf8 cs) (utf8 ds) ha hb := by
  intro claim
  have kept := claim (fun _ => 1) saves
    [.of (utf8 (longName '1')) [] longName_storable.1,
      .of (utf8 (longName '2')) [] longName_storable.2]
    (longName '1') (longName '2') longName_storable.1 longName_storable.2 (by decide +kernel)
    ⟨_, List.mem_cons_self, rfl⟩ ⟨_, List.mem_cons_of_mem _ List.mem_cons_self, rfl⟩
  refine (kept.stored (bare saves)
    [(.of (utf8 (longName '1')) [] longName_storable.1, {}),
      (.of (utf8 (longName '2')) [] longName_storable.2, {})]
    (bare_directory saves) rfl (by decide +kernel)).1 ?_
  have hcut : text blobNameCapacity (utf8 (longName '1')) =
      text blobNameCapacity (utf8 (longName '2')) := by
    decide +kernel
  rw [hcut]

end IW4x.Gdk
