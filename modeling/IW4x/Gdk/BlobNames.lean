import IW4x.Gdk.Save

/-!
# The paths of the names

A name is cut to 63 bytes when a blob is submitted or read, and its path to 511 units, and neither
is looked at again. A name has its own path where both cuts leave it alone; and nothing is opened at
all in a location so deep that no unit of a name fits after it.
-/

namespace IW4x.Gdk

open Unicode

section

variable (skip : Bytes → ℕ)

/-- The path of a name, which no cut has touched. -/
def wholePath (location : Path) (n : Bytes) : Wide := under location.value (convert skip n)

/-- The name is converted as it is, and the path it is written under first has room. -/
def Fits (location : Path) (n : Bytes) : Prop :=
  convert skip (text blobNameCapacity n) = convert skip n ∧
    (wholePath skip location n).length + 5 ≤ 511

/-- No unit of a name fits after the location. -/
def TooDeep (location : Path) : Prop :=
  511 ≤ (location.value ++ separator location.value).length

end

/-! ## Paths of names -/

variable (skip : Bytes → ℕ)

theorem text_ne_nil {n : Bytes} (h : storable n = true) : text blobNameCapacity n ≠ [] := by
  have := storable_text h
  intro hnil
  rw [hnil] at this
  simp [storable] at this

theorem text_length (n : Bytes) : (text blobNameCapacity n).length ≤ Path.capacity := by
  rw [text, List.length_take]
  exact (Nat.min_le_left _ _).trans (by decide)

theorem not_backslash {n : Bytes} (h : storable n = true) :
    ∀ u ∈ convert skip n, u ≠ backslash := by
  rintro u hu rfl
  have hmem := mem_convert skip hu (by decide)
  simp only [storable, decide_eq_true_eq] at h
  exact h.2.2.2 _ hmem (by decide)

theorem part_not_backslash : ∀ u ∈ wide ".part", u ≠ backslash := by
  have hunits : wide ".part" = [0x2E, 0x70, 0x61, 0x72, 0x74] := by decide +kernel
  rw [hunits]
  rintro u hu rfl
  revert hu
  decide

theorem part_length : (wide ".part").length = 5 := by decide +kernel

theorem blobPath_value (location : Path) {n : Bytes} (h : storable n = true) :
    (blobPath skip location (text blobNameCapacity n)).value =
      (under location.value (convert skip (text blobNameCapacity n))).take 511 :=
  location.append_value skip (text_ne_nil h) (text_length n)

theorem partPath_value (location : Path) {n : Bytes} (h : storable n = true) :
    (partPath skip location (text blobNameCapacity n)).value =
      (under location.value
        (convert skip (text blobNameCapacity n) ++ wide ".part")).take 511 := by
  rw [partPath, Path.extend_value, blobPath_value skip location h, Path.take_append_take, under,
    under, List.append_assoc]

theorem not_tooDeep {fs : FileSystem} {location : Path} (hdir : fs.directory location.value = true)
    {y : Wide} (may : fs.mayOpen ((under location.value y).take 511) = true) :
    ¬ TooDeep location := by
  intro deep
  have hfits := location.fits
  simp only [TooDeep, List.length_append] at deep
  rw [under, List.take_append_of_le_length (by simpa using deep)] at may
  by_cases hsep : location.value ≠ [] ∧ location.value.getLast? ≠ some backslash
  · simp only [separator, if_pos hsep, List.length_singleton] at deep may
    by_cases hfull : location.value.length = 511
    · rw [List.take_append_of_le_length (by omega), List.take_of_length_le (by omega)] at may
      simp [FileSystem.mayOpen, hdir] at may
    · rw [List.take_of_length_le (by simp; omega)] at may
      simp [FileSystem.mayOpen] at may
  · simp only [separator, if_neg hsep, List.length_nil, List.append_nil] at deep may
    rw [List.take_of_length_le (by omega)] at may
    simp [FileSystem.mayOpen, hdir] at may

def bare (location : Path) : FileSystem := ⟨fun _ => none, fun p => decide (p = location.value)⟩

theorem bare_mayOpen {location : Path} (room : ¬ TooDeep location) {y : Wide} (hy : y ≠ [])
    (plain : ∀ u ∈ y, u ≠ backslash) :
    (bare location).mayOpen ((under location.value y).take 511) = true := by
  simp only [TooDeep, not_le] at room
  have hpos : 0 < y.length := List.length_pos_iff.mpr hy
  have hcut : (y.take (511 - (location.value ++ separator location.value).length)) ≠ [] := by
    intro hnil
    have hlength := congrArg List.length hnil
    rw [List.length_take, List.length_nil] at hlength
    omega
  have hvalue : (under location.value y).take 511 = (location.value ++ separator location.value) ++
      y.take (511 - (location.value ++ separator location.value).length) := by
    rw [under, List.take_append, List.take_of_length_le (by omega)]
  simp only [FileSystem.mayOpen, bare, hvalue, Bool.and_eq_true, decide_eq_true_eq,
    Bool.not_eq_true', decide_eq_false_iff_not]
  refine ⟨⟨List.append_ne_nil_of_right_ne_nil _ hcut, ?_⟩, ?_⟩
  · rw [List.getLast?_append_of_ne_nil _ hcut]
    intro hlast
    exact plain _ (List.mem_of_mem_take (List.mem_of_getLast? hlast)) rfl
  · intro heq
    have hlength := congrArg List.length heq
    have hcutpos := List.length_pos_iff.mpr hcut
    have hsum := @List.length_append _ location.value (separator location.value)
    rw [List.length_append] at hlength
    omega

theorem bare_directory (location : Path) : (bare location).directory location.value = true := by
  simp [bare]

/-! ## What is written -/

theorem storeBlob_events (location : Path) (fs : FileSystem) (w : PendingWrite) (e : BlobEnv) :
    (∀ x ∈ (storeBlob skip location fs w e).events,
      x = .created (partPath skip location w.name).value ∨
        x = .replaced (blobPath skip location w.name).value) ∧
      ((storeBlob skip location fs w e).events ≠ [] ∨ (storeBlob skip location fs w e).done = true →
        fs.mayOpen (partPath skip location w.name).value = true) ∧
      (storeBlob skip location fs w e).files.directory = fs.directory := by
  have cases := storeBlob_cases skip location fs w e
  generalize storeBlob skip location fs w e = s at cases ⊢
  cases cases with
  | closed _ => simp
  | short may _ _ _ => simp [may]
  | unmoved may _ _ _ =>
    refine ⟨by simp, fun _ => may, ?_⟩
    dsimp only
    split_ifs <;> rfl
  | stored may _ _ _ => simp [may]

theorem work_done {location : Path} {fs : FileSystem} {ws : List (PendingWrite × BlobEnv)}
    (hdir : fs.directory location.value = true) (done : (work skip location fs ws).done = true)
    {w : PendingWrite} {e : BlobEnv} (hw : (w, e) ∈ ws) :
    ∃ fs', fs'.directory location.value = true ∧ (storeBlob skip location fs' w e).done = true := by
  induction ws generalizing fs with
  | nil => cases hw
  | cons head rest ih =>
    obtain ⟨x, env⟩ := head
    simp only [work] at done
    split_ifs at done with hstored
    · rcases List.mem_cons.mp hw with h | h
      · cases h
        exact ⟨fs, hdir, hstored⟩
      · refine ih ?_ done h
        rw [(storeBlob_events skip location fs x env).2.2]
        exact hdir
    · exact absurd done hstored

theorem paths_mayOpen {location : Path} (room : ¬ TooDeep location) {n : Bytes}
    (h : storable n = true) :
    (bare location).mayOpen (partPath skip location (text blobNameCapacity n)).value = true ∧
      (bare location).mayOpen (blobPath skip location (text blobNameCapacity n)).value = true := by
  have htext := storable_text h
  rw [partPath_value skip location h, blobPath_value skip location h]
  constructor
  · refine bare_mayOpen room (List.append_ne_nil_of_left_ne_nil
      (convert_ne_nil skip (text_ne_nil h)) _) fun u hu => ?_
    exact (List.mem_append.mp hu).elim (not_backslash skip htext u) (part_not_backslash u)
  · exact bare_mayOpen room (convert_ne_nil skip (text_ne_nil h)) (not_backslash skip htext)

/-- The blob is stored then unless a call fails. -/
theorem storeBlob_bare {location : Path} (room : ¬ TooDeep location) {fs : FileSystem}
    (hfs : fs.directory = (bare location).directory) (w : PendingWrite) {n : Bytes}
    (h : storable n = true) (hname : w.name = text blobNameCapacity n) :
    (storeBlob skip location fs w {}).done = true ∧
      (storeBlob skip location fs w {}).events =
        [.created (partPath skip location w.name).value,
          .replaced (blobPath skip location w.name).value] := by
  obtain ⟨hpart, hblob⟩ := paths_mayOpen skip room h
  rw [← hname] at hpart hblob
  have hmay : ∀ p, fs.mayOpen p = (bare location).mayOpen p := fun p => by
    rw [FileSystem.mayOpen, hfs, FileSystem.mayOpen]
  rw [← hmay] at hpart hblob
  have cases := storeBlob_cases skip location fs w {}
  generalize storeBlob skip location fs w {} = s at cases ⊢
  cases cases with
  | closed hclosed => simp [FileSystem.createAlways, hpart] at hclosed
  | short _ _ hdata hshort =>
    cases hw : w.data with
    | nil => exact absurd hw hdata
    | cons b data => simp [hw, writeFile] at hshort
  | unmoved _ _ _ hunmoved => simp [hblob] at hunmoved
  | stored _ _ _ _ => exact ⟨rfl, rfl⟩

/-! ## Names that fit -/

theorem Fits.paths {location : Path} {n : Bytes} (fits : Fits skip location n)
    (h : storable n = true) :
    (blobPath skip location (text blobNameCapacity n)).value = wholePath skip location n ∧
      (partPath skip location (text blobNameCapacity n)).value =
        wholePath skip location n ++ wide ".part" := by
  have hroom := fits.2
  rw [blobPath_value skip location h, partPath_value skip location h, fits.1]
  constructor
  · exact List.take_of_length_le (by rw [← wholePath]; omega)
  · have hassoc : wholePath skip location n ++ wide ".part" =
        under location.value (convert skip n ++ wide ".part") := by
      simp [wholePath, under]
    rw [← hassoc]
    refine List.take_of_length_le ?_
    rw [List.length_append, part_length]
    exact hroom

theorem fits_of_paths {location : Path} {n : Bytes} (h : storable n = true)
    (blob : (blobPath skip location (text blobNameCapacity n)).value = wholePath skip location n)
    (part : (partPath skip location (text blobNameCapacity n)).value =
      wholePath skip location n ++ wide ".part") : Fits skip location n := by
  have hlength := (partPath skip location (text blobNameCapacity n)).fits
  rw [part, List.length_append, part_length] at hlength
  refine ⟨?_, by omega⟩
  rw [blobPath_value skip location h] at blob
  have huncut : (under location.value (convert skip (text blobNameCapacity n))).length ≤ 511 := by
    by_contra hlong
    have hcut := congrArg List.length blob
    rw [List.length_take, Nat.min_eq_left (by omega)] at hcut
    omega
  rw [List.take_of_length_le huncut, wholePath, under, under] at blob
  exact List.append_cancel_left blob

theorem wholePath_injective (location : Path) {cs ds : List Char}
    (h : wholePath skip location (utf8 cs) = wholePath skip location (utf8 ds)) : cs = ds := by
  rw [wholePath, wholePath, under, under, convert_utf8, convert_utf8] at h
  exact utf16_injective (List.append_cancel_left h)

/-- The location of a container. -/
def saves : Path := ⟨wide "C:\\s", false, by decide +kernel⟩

theorem one_storable : storable (utf8 "one".toList) = true := by decide +kernel

theorem two_storable : storable (utf8 "two".toList) = true := by decide +kernel

/-- A name of 64 bytes, of which only the last tells it from another. -/
def longName (c : Char) : List Char := List.replicate 63 'x' ++ [c]

theorem longName_storable : storable (utf8 (longName '1')) = true ∧
    storable (utf8 (longName '2')) = true := by
  decide +kernel

end IW4x.Gdk
