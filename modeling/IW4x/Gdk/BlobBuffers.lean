import IW4x.Gdk.BlobReads

/-!
# The buffer of a read

`result` lays the blobs out in just the size that `work` has reported: it succeeds in no smaller
buffer, and in any other the headers, names and data fill that size without a gap. The names are
those that the operation keeps, which are the requested ones where they have at most 63 bytes.
-/

namespace IW4x.Gdk

open Unicode RawMemory

/-! ## What the headers lead to -/

/-- The lengths of the names with their terminators, and of the data. -/
def blobLengths (blobs : List (Bytes × Bytes)) : List ℕ :=
  blobs.flatMap fun b => [b.1.length + 1, b.2.length]

theorem blobLengths_sum (blobs : List (Bytes × Bytes)) :
    (blobLengths blobs).sum = needed blobs := by
  induction blobs with
  | nil => rfl
  | cons b blobs ih =>
    rw [blobLengths, List.flatMap_cons, List.sum_append, ← blobLengths, ih, needed_cons]
    simp

theorem BlobEntry.reads {m : Mem} {b p : ℕ} {n d : Bytes} (h : BlobEntry m b p n d)
    (room : p + (n.length + 1) < 2 ^ 64) (small : d.length < 2 ^ 32) :
    word m b 8 = p ∧ word m (b + 8) 4 = d.length ∧ word m (b + 16) 8 = p + (n.length + 1) := by
  refine ⟨?_, ?_, ?_⟩
  · rw [h.name.word]
    exact Nat.mod_eq_of_lt (by norm_num; omega)
  · rw [h.size.word]
    exact Nat.mod_eq_of_lt (by norm_num; omega)
  · rw [h.data.word]
    exact Nat.mod_eq_of_lt (by norm_num; omega)

/-- Names and data that are where the headers say follow each other. -/
theorem blobSpans_eq {m : Mem} {buffer i p : ℕ} {blobs : List (Bytes × Bytes)}
    (leads : ∀ j n d, blobs[j]? = some (n, d) →
      entryName m buffer (i + j) = p + needed (blobs.take j) ∧
        entryData m buffer (i + j) = p + needed (blobs.take j) + (n.length + 1)) :
    blobSpans m buffer i blobs = tiles p (blobLengths blobs) := by
  induction blobs generalizing i p with
  | nil => rfl
  | cons b rest ih =>
    obtain ⟨n, d⟩ := b
    obtain ⟨hname, hdata⟩ := leads 0 n d rfl
    simp only [Nat.add_zero, List.take_zero, needed_nil] at hname hdata
    have hleads : ∀ j n' d', rest[j]? = some (n', d') →
        entryName m buffer (i + 1 + j) =
            p + (n.length + 1) + d.length + needed (rest.take j) ∧
          entryData m buffer (i + 1 + j) =
            p + (n.length + 1) + d.length + needed (rest.take j) + (n'.length + 1) := by
      intro j n' d' hj
      obtain ⟨hname', hdata'⟩ := leads (j + 1) n' d' hj
      simp only [List.take_succ_cons, needed_cons] at hname' hdata'
      have hindex : i + 1 + j = i + (j + 1) := by omega
      rw [hindex, hname', hdata']
      omega
    rw [blobSpans, hname, hdata, ih hleads]
    rfl

theorem needed_take_lt {blobs : List (Bytes × Bytes)} {j : ℕ} {n d : Bytes}
    (hj : blobs[j]? = some (n, d)) :
    needed (blobs.take j) + (n.length + 1 + d.length) ≤ needed blobs := by
  induction blobs generalizing j with
  | nil => cases hj
  | cons b rest ih =>
    cases j with
    | zero =>
      obtain rfl := Option.some.inj hj
      simp only [List.take_zero, needed_nil, needed_cons]
      omega
    | succ j =>
      have hnext := ih hj
      simp only [List.take_succ_cons, needed_cons]
      omega

/-- Entries that follow each other behind the headers are laid out. -/
theorem laidOut_of_entries {m : Mem} {buffer : ℕ} {blobs : List (Bytes × Bytes)}
    (room : buffer + blobs.length * saveBlobSize + needed blobs < 2 ^ 64)
    (small : ∀ b ∈ blobs, b.2.length < 2 ^ 32)
    (entries : ∀ j n d, blobs[j]? = some (n, d) → BlobEntry m (buffer + j * saveBlobSize)
      (buffer + blobs.length * saveBlobSize + needed (blobs.take j)) n d) :
    LaidOut m buffer blobs (blobs.length * saveBlobSize + needed blobs) := by
  have hreads : ∀ j n d, blobs[j]? = some (n, d) →
      entryName m buffer j = buffer + blobs.length * saveBlobSize + needed (blobs.take j) ∧
        entrySize m buffer j = d.length ∧ entryData m buffer j =
          buffer + blobs.length * saveBlobSize + needed (blobs.take j) + (n.length + 1) := by
    intro j n d hj
    have hfits := needed_take_lt hj
    exact (entries j n d hj).reads (by omega) (small _ (List.mem_of_getElem? hj))
  have hspans : bufferSpans m buffer blobs =
      tiles buffer (blobs.length * saveBlobSize :: blobLengths blobs) := by
    rw [bufferSpans, tiles]
    congr 1
    apply blobSpans_eq
    intro j n d hj
    obtain ⟨hname, -, hdata⟩ := hreads j n d hj
    rw [Nat.zero_add]
    exact ⟨hname, hdata⟩
  constructor
  · intro j n d hj
    rw [(hreads j n d hj).1]
    exact (entries j n d hj).named
  · intro j n d hj
    exact (hreads j n d hj).2.1
  · intro j n d hj
    rw [(hreads j n d hj).2.2]
    exact (entries j n d hj).stored
  · rw [hspans]
    exact tiles_pairwise _ _
  · intro x
    rw [hspans, mem_tiles, List.sum_cons, blobLengths_sum, mem_span]

/-! ## What `result` delivers -/

theorem headers_natCast (o : ReadOperation) :
    sizeT (o.names.length * saveBlobSize : ℕ) = o.names.length * saveBlobSize := by
  have := o.room
  apply sizeT_natCast
  simp only [maxBlobReads, saveBlobSize] at this ⊢
  omega

/-- `result` delivers the names as the operation keeps them. -/
theorem result_delivers (o : ReadOperation) {ds : List Bytes} (hlength : ds.length = o.names.length)
    (small : ∀ d ∈ ds, d.length < 2 ^ 32) {size buffer : ℕ} (hbuffer : buffer ≠ 0)
    (hend : buffer + size < 2 ^ 64) (m : Mem) :
    BlobsDelivered (o.names.zip ds) (o.names.length * saveBlobSize + needed (o.names.zip ds)) size
      buffer m (o.result ds size buffer m) := by
  have hblobs : (o.names.zip ds).length = o.names.length := by simp [hlength]
  rw [ReadOperation.result, if_neg hbuffer, headers_natCast]
  by_cases hheaders : size < o.names.length * saveBlobSize
  · rw [if_pos hheaders]
    exact ⟨by simp; omega, nofun, .refl _ _⟩
  rw [if_neg hheaders]
  have hp : buffer + o.names.length * saveBlobSize ≤ buffer + size := by omega
  have hdata : ∀ b ∈ o.names.zip ds, b.2.length < 2 ^ 32 :=
    fun b hb => small _ (List.of_mem_zip hb).2
  have hsmall : ∀ b ∈ o.names.zip ds, b.1.length + 1 + b.2.length < 2 ^ 64 := by
    intro b hb
    have := o.fits _ (List.of_mem_zip hb).1
    have := hdata b hb
    omega
  have hdone := (layOut_done buffer 0 hp hend hsmall m).2
  constructor
  · rw [hdone]
    omega
  · intro done
    have hfits := hdone.mp done
    have hentries : ∀ j n d, (o.names.zip ds)[j]? = some (n, d) →
        BlobEntry (layOut buffer (buffer + size) 0 (buffer + o.names.length * saveBlobSize)
          (o.names.zip ds) m).1 (buffer + j * saveBlobSize)
          (buffer + (o.names.zip ds).length * saveBlobSize + needed ((o.names.zip ds).take j))
          n d := by
      intro j n d hj
      have hentry := layOut_entry buffer 0 hp hend hsmall (by rw [hblobs, Nat.zero_add]) done hj
      rw [Nat.zero_add] at hentry
      rwa [hblobs]
    have hlaid := laidOut_of_entries (by rw [hblobs]; omega) hdata hentries
    rwa [hblobs] at hlaid
  · apply (layOut_changes buffer 0 hp hend hsmall m).mono
    rintro x (hx | hx)
    · rw [mem_span, hblobs] at hx
      rw [mem_span]
      omega
    · rw [Set.mem_Ico] at hx
      rw [mem_span]
      omega

/-! ## What `work` reports -/

section

variable (skip : Bytes → ℕ)

/-- What `work` finds under a name that the operation keeps. -/
def keptContents (location : Path) (fs : FileSystem) (name : Bytes) : Bytes :=
  (fs.files (location.append skip name).value).getD []

theorem readEach_ok {location : Path} {fs : FileSystem} {env : ℕ → ReadEnv} {i n : ℕ}
    {names ds : List Bytes} {r : ℕ}
    (small : n + needed (names.map fun name => (name, keptContents skip location fs name)) < 2 ^ 64)
    (h : readEach skip location fs env i names n = .ok (ds, r)) :
    ds = names.map (keptContents skip location fs) ∧
      r = n + needed (names.map fun name => (name, keptContents skip location fs name)) := by
  induction names generalizing i n ds with
  | nil =>
    obtain ⟨rfl, rfl⟩ := Prod.mk.inj (Except.ok.inj h)
    exact ⟨rfl, rfl⟩
  | cons name rest ih =>
    rw [readEach] at h
    cases hopen : fs.openRead (location.append skip name).value (env i).opens with
    | none => simp [hopen] at h
    | some file =>
      cases file with
      | none => simp [hopen] at h
      | some d =>
        have hd : keptContents skip location fs name = d := by
          unfold FileSystem.openRead at hopen
          split_ifs at hopen
          rw [keptContents, Option.some.inj hopen, Option.getD_some]
        simp only [List.map_cons, needed_cons, hd] at small ⊢
        simp only [hopen] at h
        split_ifs at h
        have hsum : sizeT (n + (name.length + 1 + d.length : ℕ)) =
            n + (name.length + 1 + d.length) := by
          rw [← Nat.cast_add, sizeT_natCast (by omega)]
        rw [hsum] at h
        cases hrest : readEach skip location fs env (i + 1) rest
            (n + (name.length + 1 + d.length)) with
        | error e => simp [hrest] at h
        | ok found =>
          obtain ⟨ds', r'⟩ := found
          simp only [hrest] at h
          obtain ⟨rfl, rfl⟩ := Prod.mk.inj (Except.ok.inj h)
          obtain ⟨rfl, rfl⟩ := ih (by omega) hrest
          exact ⟨rfl, by omega⟩

/-- What the operation delivers once `work` has succeeded. -/
def keptBlobs (o : ReadOperation) (fs : FileSystem) : List (Bytes × Bytes) :=
  o.names.map fun name => (name, keptContents skip o.location fs name)

theorem needed_le {blobs : List (Bytes × Bytes)}
    (small : ∀ b ∈ blobs, b.1.length ≤ 63 ∧ b.2.length < 2 ^ 32) :
    needed blobs ≤ blobs.length * (2 ^ 32 + 64) := by
  induction blobs with
  | nil => simp
  | cons b rest ih =>
    have hb := small b List.mem_cons_self
    have hrest := ih fun b hb => small b (List.mem_cons_of_mem _ hb)
    rw [needed_cons, List.length_cons]
    omega

/-- The size that `work` returns, which no overflow has changed. -/
theorem work_reports {o : ReadOperation} {fs : FileSystem} {env : ℕ → ReadEnv} {ds : List Bytes}
    {reported : ℕ} (small : ∀ b ∈ keptBlobs skip o fs, b.2.length < 2 ^ 32)
    (h : o.work skip fs env = .ok (ds, reported)) :
    o.names.zip ds = keptBlobs skip o fs ∧ ds.length = o.names.length ∧
      (∀ d ∈ ds, d.length < 2 ^ 32) ∧
      reported = o.names.length * saveBlobSize + needed (keptBlobs skip o fs) ∧
      reported < 2 ^ 63 := by
  have hbound : needed (keptBlobs skip o fs) ≤ (keptBlobs skip o fs).length * (2 ^ 32 + 64) := by
    apply needed_le
    intro b hb
    refine ⟨?_, small b hb⟩
    obtain ⟨name, hname, rfl⟩ := List.mem_map.mp hb
    exact o.fits name hname
  have hcount : (keptBlobs skip o fs).length = o.names.length := by simp [keptBlobs]
  have hroom := o.room
  rw [hcount] at hbound
  simp only [maxBlobReads] at hroom
  rw [ReadOperation.work, headers_natCast] at h
  obtain ⟨hds, hreported⟩ := readEach_ok skip (by
    rw [← keptBlobs]
    simp only [saveBlobSize]
    omega) h
  refine ⟨?_, ?_, ?_, hreported, ?_⟩
  · rw [hds, keptBlobs, List.map_prod_left_eq_zip]
  · rw [hds, List.length_map]
  · intro d hd
    rw [hds] at hd
    obtain ⟨name, hname, rfl⟩ := List.mem_map.mp hd
    exact small (name, _) (List.mem_map.mpr ⟨name, hname, rfl⟩)
  · rw [hreported, ← keptBlobs]
    simp only [saveBlobSize]
    omega

/-! ## The requested names -/

variable {skip}

theorem readOperation_eq_some {location : Path} {names : List Bytes} {o : ReadOperation}
    (h : readOperation location names = some o) :
    o.location = location ∧ o.names = names.map (text blobNameCapacity) := by
  unfold readOperation at h
  split_ifs at h
  obtain rfl := Option.some.inj h
  exact ⟨rfl, rfl⟩

def requestedBlobs (skip : Bytes → ℕ) (location : Path) (fs : FileSystem) (names : List Bytes) :
    List (Bytes × Bytes) :=
  names.map fun n => (n, contents skip location fs n)

theorem keptBlobs_eq {location : Path} {names : List Bytes} {o : ReadOperation}
    (h : readOperation location names = some o) (fs : FileSystem) :
    keptBlobs skip o fs =
      names.map fun n => (text blobNameCapacity n, contents skip location fs n) := by
  obtain ⟨rfl, hnames⟩ := readOperation_eq_some h
  rw [keptBlobs, hnames, List.map_map]
  rfl

theorem text_of_length_le {n : Bytes} (h : n.length ≤ 63) : text blobNameCapacity n = n :=
  List.take_of_length_le h

theorem keptBlobs_small {location : Path} {names : List Bytes} {o : ReadOperation}
    (h : readOperation location names = some o) {fs : FileSystem}
    (small : ∀ n ∈ names, (contents skip location fs n).length < 2 ^ 32) :
    ∀ b ∈ keptBlobs skip o fs, b.2.length < 2 ^ 32 := by
  rw [keptBlobs_eq h fs]
  intro b hb
  obtain ⟨n, hn, rfl⟩ := List.mem_map.mp hb
  exact small n hn

theorem not_both_held {m : Mem} {a : ℕ} {n : Bytes} (terminated : 0 ∉ n) (long : 63 < n.length)
    (kept : Holds m a (text blobNameCapacity n ++ [0])) : ¬ Holds m a (n ++ [0]) := by
  intro requested
  have hlength : (text blobNameCapacity n).length = 63 := by
    rw [text, List.length_take, Nat.min_eq_left (by simp only [blobNameCapacity]; omega)]
    rfl
  have hcut := kept 63 (by simp [hlength])
  have hwhole := requested 63 (by rw [List.length_append]; omega)
  rw [List.getElem_append_right hlength.le] at hcut
  rw [List.getElem_append_left long, hcut] at hwhole
  apply terminated
  simp only [hlength, Nat.sub_self, List.getElem_cons_zero] at hwhole
  rw [hwhole]
  exact List.getElem_mem long

/-- A name that was cut is not delivered whole. -/
theorem fits_of_delivers {location : Path} {names : List Bytes} {o : ReadOperation}
    (ho : readOperation location names = some o) (terminated : ∀ n ∈ names, 0 ∉ n)
    {fs : FileSystem} (small : ∀ n ∈ names, (contents skip location fs n).length < 2 ^ 32)
    {env : ℕ → ReadEnv} {ds : List Bytes} {reported : ℕ}
    (hwork : o.work skip fs env = .ok (ds, reported))
    (delivers : ∀ (buffer size : ℕ) (m : Mem), buffer ≠ 0 → buffer + size < 2 ^ 64 →
      BlobsDelivered (requestedBlobs skip location fs names) reported size buffer m
        (o.result ds size buffer m)) : ∀ n ∈ names, n.length ≤ 63 := by
  intro n hn
  by_contra hlong
  obtain ⟨hzip, hlength, hds, hreported, hroom⟩ :=
    work_reports skip (keptBlobs_small ho small) hwork
  -- a buffer of just the reported size, into which the kept names are laid out
  have hrequested := delivers 1 reported (fun _ => 0) one_ne_zero (by omega)
  have hkept := result_delivers o hlength hds one_ne_zero
    (show 1 + reported < 2 ^ 64 by omega) fun _ => 0
  have done := hrequested.succeeds.mpr le_rfl
  obtain ⟨j, hj⟩ := List.getElem?_of_mem hn
  have hwhole := (hrequested.laidOut done).named j n (contents skip location fs n) (by
    simp [requestedBlobs, hj])
  have hcut := (hkept.laidOut done).named j (text blobNameCapacity n) (contents skip location fs n)
    (by simp [hzip, keptBlobs_eq ho, hj])
  exact not_both_held (terminated n hn) (by omega) hcut hwhole

/-- A read delivers the blobs that were asked for if and only if their names have at most 63
bytes. -/
theorem read_delivers_iff {location : Path} {names : List Bytes} {o : ReadOperation}
    (ho : readOperation location names = some o) (terminated : ∀ n ∈ names, 0 ∉ n)
    {fs : FileSystem} (small : ∀ n ∈ names, (contents skip location fs n).length < 2 ^ 32)
    {env : ℕ → ReadEnv} {ds : List Bytes} {reported : ℕ}
    (hwork : o.work skip fs env = .ok (ds, reported)) :
    (∀ (buffer size : ℕ) (m : Mem), buffer ≠ 0 → buffer + size < 2 ^ 64 →
      BlobsDelivered (requestedBlobs skip location fs names) reported size buffer m
        (o.result ds size buffer m)) ↔ ∀ n ∈ names, n.length ≤ 63 := by
  constructor
  · exact fits_of_delivers ho terminated small hwork
  · intro short buffer size m hbuffer hend
    obtain ⟨hzip, hlength, hds, hreported, -⟩ :=
      work_reports skip (keptBlobs_small ho small) hwork
    have hblobs : keptBlobs skip o fs = requestedBlobs skip location fs names := by
      rw [keptBlobs_eq ho fs]
      apply List.map_congr_left
      intro n hn
      rw [text_of_length_le (short n hn)]
    have hresult := result_delivers o hlength hds hbuffer hend m
    rwa [hzip, ← hreported, hblobs] at hresult

end

def oneByte : FileSystem := ⟨fun _ => some [1], fun _ => false⟩

theorem oneByte_contents (location : Path) (n : Bytes) :
    (contents (fun _ => 1) location oneByte n).length < 2 ^ 32 := by
  simp [contents, oneByte]

theorem two_read :
    ∃ o, readOperation saves [utf8 "one".toList, utf8 "two".toList] = some o ∧
      o.work (fun _ => 1) oneByte (fun _ => {}) = .ok ([[1], [1]], 58) := by
  refine ⟨_, dif_pos (by decide +kernel), ?_⟩
  decide +kernel

theorem read_delivers_iff_settings :
    ∃ o, readOperation saves [utf8 "one".toList, utf8 "two".toList] = some o ∧
      ∀ (buffer size : ℕ) (m : Mem), buffer ≠ 0 → buffer + size < 2 ^ 64 →
        BlobsDelivered (requestedBlobs (fun _ => 1) saves oneByte
          [utf8 "one".toList, utf8 "two".toList]) 58 size buffer m
          (o.result [[1], [1]] size buffer m) := by
  obtain ⟨o, ho, hwork⟩ := two_read
  exact ⟨o, ho, (read_delivers_iff ho (by decide +kernel) (fun n _ => oneByte_contents saves n)
    hwork).mpr (by decide +kernel)⟩

theorem long_read :
    ∃ o, readOperation saves [utf8 (longName '1')] = some o ∧
      o.work (fun _ => 1) oneByte (fun _ => {}) = .ok ([[1]], 89) := by
  refine ⟨_, dif_pos (by decide +kernel), ?_⟩
  decide +kernel

/-- A name of 64 bytes is delivered without its last. -/
theorem read_delivers_fails :
    ¬ ∀ (skip : Bytes → ℕ) (location : Path) (names : List Bytes) (o : ReadOperation),
      readOperation location names = some o → (∀ n ∈ names, 0 ∉ n) →
      ∀ (fs : FileSystem), (∀ n ∈ names, (contents skip location fs n).length < 2 ^ 32) →
      ∀ (env : ℕ → ReadEnv) (ds : List Bytes) (reported : ℕ),
        o.work skip fs env = .ok (ds, reported) →
      ∀ (buffer size : ℕ) (m : Mem), buffer ≠ 0 → buffer + size < 2 ^ 64 →
        BlobsDelivered (requestedBlobs skip location fs names) reported size buffer m
          (o.result ds size buffer m) := by
  intro claim
  obtain ⟨o, ho, hwork⟩ := long_read
  have terminated : ∀ n ∈ [utf8 (longName '1')], 0 ∉ n := by decide +kernel
  have small : ∀ n ∈ [utf8 (longName '1')], _ := fun n _ => oneByte_contents saves n
  have hfits := fits_of_delivers ho terminated small hwork
    (claim _ _ _ o ho terminated oneByte small _ _ _ hwork) _ List.mem_cons_self
  revert hfits
  decide +kernel

end IW4x.Gdk
