import IW4x.Gdk.BlobNames
import IW4x.Gdk.Types

/-!
# The containers that are enumerated

The directories under the root of the store are the containers. Each is reported under its name in
UTF-8, which has to fit a buffer, with what a search of its path finds: a search for all of a
directory whose path has no room for the star finds something else.
-/

namespace IW4x.Gdk

open Unicode

/-! ## Directories -/

/-- What a search finds. The time is that of the last write, in 100 nanoseconds from the year
1601. -/
structure Entry where
  name : Wide
  directory : Bool
  size : ℕ
  written : ℕ
  deriving DecidableEq

def star : UInt16 := 0x2A

/-- The entries `.` and `..`. -/
def Entry.dots (e : Entry) : Bool := decide (e.name = wide "." ∨ e.name = wide "..")

/-- The directories: what is in that of a path, which ends in a separator, and what a path itself
is. -/
structure Directories where
  entries : Wide → Option (List Entry)
  entry : Wide → Option Entry
  directory : ∀ p e, (entries (p ++ [backslash])).isSome = true → entry p = some e →
    e.directory = true

/-- `FindFirstFileW` and `FindNextFileW`. -/
def Directories.find (ds : Directories) (pattern : Wide) : Option (List Entry) :=
  if pattern.getLast? = some star then ds.entries pattern.dropLast
  else if pattern.getLast? = some backslash then none
  else (ds.entry pattern).map ([·])

/-- `directory::open`, and what `next` then goes through. -/
def Directories.openAll (ds : Directories) (p : Path) : Option (List Entry) :=
  (ds.find (p.appendWide [star]).value).map (List.filter fun e => !e.dots)

def narrow (w : Wide) (n : ℕ) : Bytes :=
  let b := utf8 (replace16 w)
  if b.length + 1 ≤ n then b else []

def toSeconds (t : ℕ) : ℤ := (t / 10000000 : ℕ) - 11644473600

/-! ## The enumeration -/

structure ContainerInfo where
  name : Bytes
  displayName : Bytes
  blobCount : ℕ := 0
  reserved : ℕ := 0
  totalSize : ℕ := 0
  lastModified : ℤ := 0
  needsSync : Bool := false
  deriving DecidableEq

/-- What a file adds. -/
def ContainerInfo.count (i : ContainerInfo) (e : Entry) : ContainerInfo :=
  if e.directory then i
  else { i with
    blobCount := (i.blobCount + 1) % 2 ^ 32
    totalSize := (i.totalSize + e.size) % 2 ^ 64
    lastModified := if i.lastModified < toSeconds e.written then toSeconds e.written
      else i.lastModified }

section

variable (skip : Bytes → ℕ)

/-- The body of the loop of `enumerate_container_info`. -/
def containerInfo (ds : Directories) (root : Path) (e : Entry) : Option ContainerInfo :=
  if e.directory then
    let n := narrow e.name (blobNameCapacity * 4)
    if storable n then
      let i : ContainerInfo := { name := n, displayName := n }
      let inner := root.append skip n
      match ds.openAll inner with
      | none => some i
      | some es => some (es.foldl ContainerInfo.count i)
    else none
  else none

/-- The loop. The callback says whether to go on. -/
def reports (ds : Directories) (root : Path) (cb : ContainerInfo → Bool) :
    List Entry → List ContainerInfo
  | [] => []
  | e :: es =>
    match containerInfo skip ds root e with
    | none => reports ds root cb es
    | some i => i :: if cb i then reports ds root cb es else []

/-- `enumerate_container_info`: the calls of the callback, and the answer. -/
def enumerateContainerInfo (ds : Directories) (root : Path) (provider : Bool)
    (cb : Option (ContainerInfo → Bool)) : List ContainerInfo × HResult :=
  match cb with
  | none => ([], E_INVALIDARG)
  | some cb =>
    if provider then
      match ds.openAll root with
      | none => ([], S_OK)
      | some es => (reports skip ds root cb es, S_OK)
    else ([], E_INVALIDARG)

/-- The files of a directory. -/
def blobsOf (contents : List Entry) : List Entry :=
  contents.filter fun e => !e.directory && !e.dots

/-- A container that `create_container` made under the root: its name was storable and its path
whole, and its directory is there. How the root lists the directory is up to the file system: it may
have stripped a dot at the end of the name, or found a directory whose name is of another case. -/
structure Made (ds : Directories) (root : Path) (siblings : List Entry) (n : List Char)
    (contents : List Entry) : Prop where
  storable : storable (utf8 n) = true
  short : (utf16 n).length ≤ 255
  whole : (root.append skip (utf8 n)).whole = true
  opens : ds.entries (root.value ++ separator root.value) = some siblings
  once : (siblings.map Entry.name).Nodup
  holds : ds.entries ((root.append skip (utf8 n)).value ++ [backslash]) = some contents

structure Reports (i : ContainerInfo) (n : List Char) (blobs : List Entry) : Prop where
  name : i.name = utf8 n
  displayName : i.displayName = utf8 n
  blobCount : i.blobCount = blobs.length
  totalSize : i.totalSize = (blobs.map Entry.size).sum
  lastModified : blobs = [] ∨
    IsGreatest {t | ∃ e ∈ blobs, toSeconds e.written = t} i.lastModified

/-- The name fits the buffer, the path of the container has room for the star, what is counted and
summed has room in its field, and the latest time is not before 1970. And the root lists one directory
whose name is converted to the name, and no other. -/
structure Reportable (root : Path) (siblings : List Entry) (n : List Char) (blobs : List Entry) :
    Prop where
  name : (utf8 n).length ≤ 255
  listed : ∃! e, e ∈ siblings ∧ e.directory = true ∧ replace16 e.name = n
  blobs : blobs = [] ∨ (root.append skip (utf8 n)).value.length ≤ 509 ∧ blobs.length < 2 ^ 32 ∧
    (blobs.map Entry.size).sum < 2 ^ 64 ∧ ∃ e ∈ blobs, 0 ≤ toSeconds e.written

end

variable (skip : Bytes → ℕ)

variable (skip : Bytes → ℕ)

/-! ## What is counted -/

theorem foldl_count_name (es : List Entry) (i : ContainerInfo) :
    (es.foldl ContainerInfo.count i).name = i.name ∧
      (es.foldl ContainerInfo.count i).displayName = i.displayName := by
  induction es generalizing i with
  | nil => exact ⟨rfl, rfl⟩
  | cons e es ih =>
    rw [List.foldl_cons]
    obtain ⟨hname, hdisplay⟩ := ih (i.count e)
    rw [hname, hdisplay]
    unfold ContainerInfo.count
    split_ifs <;> exact ⟨rfl, rfl⟩

theorem foldl_count_blobs (es : List Entry) {i : ContainerInfo} (h : i.blobCount < 2 ^ 32) :
    (es.foldl ContainerInfo.count i).blobCount =
      (i.blobCount + (es.filter fun e => !e.directory).length) % 2 ^ 32 := by
  induction es generalizing i with
  | nil => exact (Nat.mod_eq_of_lt h).symm
  | cons e es ih =>
    rw [List.foldl_cons, List.filter_cons]
    cases hdir : e.directory with
    | true => simpa [ContainerInfo.count, hdir] using ih h
    | false =>
      have hcount : (i.count e).blobCount = (i.blobCount + 1) % 2 ^ 32 := by
        simp [ContainerInfo.count, hdir]
      rw [ih (by rw [hcount]; exact Nat.mod_lt _ (by decide)), hcount]
      simp only [Bool.not_false, if_true, List.length_cons]
      omega

theorem foldl_count_size (es : List Entry) {i : ContainerInfo} (h : i.totalSize < 2 ^ 64) :
    (es.foldl ContainerInfo.count i).totalSize =
      (i.totalSize + ((es.filter fun e => !e.directory).map Entry.size).sum) % 2 ^ 64 := by
  induction es generalizing i with
  | nil => exact (Nat.mod_eq_of_lt h).symm
  | cons e es ih =>
    rw [List.foldl_cons, List.filter_cons]
    cases hdir : e.directory with
    | true => simpa [ContainerInfo.count, hdir] using ih h
    | false =>
      have hsize : (i.count e).totalSize = (i.totalSize + e.size) % 2 ^ 64 := by
        simp [ContainerInfo.count, hdir]
      rw [ih (by rw [hsize]; exact Nat.mod_lt _ (by decide)), hsize]
      simp only [Bool.not_false, if_true, List.map_cons, List.sum_cons]
      omega

/-- The time that is kept is the latest, of that at first and those of the files. -/
theorem foldl_count_time (es : List Entry) (i : ContainerInfo) :
    IsGreatest (insert i.lastModified {t | ∃ e ∈ es.filter fun e => !e.directory,
      toSeconds e.written = t}) (es.foldl ContainerInfo.count i).lastModified := by
  induction es generalizing i with
  | nil => simp
  | cons e es ih =>
    rw [List.foldl_cons, List.filter_cons]
    cases hdir : e.directory with
    | true => simpa [ContainerInfo.count, hdir] using ih i
    | false =>
      have hlater : (i.count e).lastModified = max i.lastModified (toSeconds e.written) := by
        simp only [ContainerInfo.count, hdir, Bool.false_eq_true, if_false]
        split_ifs with hlt
        · exact (max_eq_right hlt.le).symm
        · exact (max_eq_left (not_lt.mp hlt)).symm
      obtain ⟨hmem, hbound⟩ := ih (i.count e)
      have hfirst := hbound (Set.mem_insert _ _)
      rw [hlater] at hmem hfirst
      constructor
      · rcases hmem with heq | ⟨x, hx, heq⟩
        · rcases max_choice i.lastModified (toSeconds e.written) with hmax | hmax
          · exact .inl (heq.trans hmax)
          · exact .inr ⟨e, by simp, (heq.trans hmax).symm⟩
        · exact .inr ⟨x, by simp [List.mem_filter.mp hx], heq⟩
      · rintro t (rfl | ⟨x, hx, rfl⟩)
        · exact (le_max_left _ _).trans hfirst
        · simp only [Bool.not_false, if_true, List.mem_cons] at hx
          rcases hx with rfl | hx
          · exact (le_max_right _ _).trans hfirst
          · exact hbound (.inr ⟨x, hx, rfl⟩)

theorem isGreatest_iff_of_insert {T : Set ℤ} {t : ℤ} (h : IsGreatest (insert 0 T) t) :
    IsGreatest T t ↔ ∃ s ∈ T, 0 ≤ s := by
  constructor
  · intro hgreatest
    exact ⟨t, hgreatest.1, h.2 (Set.mem_insert _ _)⟩
  · rintro ⟨s, hs, hpos⟩
    refine ⟨?_, fun x hx => h.2 (.inr hx)⟩
    rcases h.1 with rfl | hmem
    · obtain rfl : s = 0 := le_antisymm (h.2 (.inr hs)) hpos
      exact hs
    · exact hmem

/-! ## What is found -/

theorem narrow_length (w : Wide) {n : ℕ} (h : 0 < n) : (narrow w n).length + 1 ≤ n := by
  unfold narrow
  dsimp only
  split_ifs with hfits
  · exact hfits
  · exact h

theorem narrow_eq_iff {w : Wide} {n : List Char} (h : n ≠ []) (short : (utf8 n).length ≤ 255) :
    narrow w 256 = utf8 n ↔ replace16 w = n := by
  unfold narrow
  dsimp only
  constructor
  · intro heq
    split_ifs at heq with hfits
    · exact utf8_injective heq
    · exact absurd (utf8_injective (heq.symm.trans utf8_nil.symm)) h
  · rintro rfl
    rw [if_pos (by omega)]

section

variable {ds : Directories} {root : Path} {siblings contents : List Entry} {n : List Char}

theorem Made.ne_nil (made : Made skip ds root siblings n contents) : n ≠ [] := by
  rintro rfl
  have h := made.storable
  simp [Gdk.storable] at h

theorem Made.value (made : Made skip ds root siblings n contents) :
    (root.append skip (utf8 n)).value = under root.value (utf16 n) := by
  have hne : utf8 n ≠ [] := fun h => made.ne_nil skip (utf8_injective (h.trans utf8_nil.symm))
  rw [Path.append_of_whole skip hne made.whole, convert_utf8]

theorem Made.units_ne_nil (made : Made skip ds root siblings n contents) : utf16 n ≠ [] :=
  fun h => made.ne_nil skip (utf16_injective (h.trans utf16_nil.symm))

theorem Made.getLast? (made : Made skip ds root siblings n contents) {u : UInt16}
    (hu : (root.append skip (utf8 n)).value.getLast? = some u) : u ≠ backslash ∧ u ≠ star := by
  rw [made.value, under, List.getLast?_append_of_ne_nil _ (made.units_ne_nil skip)] at hu
  have hmem : u ∈ convert skip (utf8 n) := by
    rw [convert_utf8]
    exact List.mem_of_getLast? hu
  refine ⟨not_backslash skip made.storable u hmem, ?_⟩
  rintro rfl
  have hbyte := mem_convert skip hmem (by decide)
  have h := made.storable
  simp only [Gdk.storable, decide_eq_true_eq] at h
  exact h.2.2.2 _ hbyte (by decide)

theorem Made.openAll_root (made : Made skip ds root siblings n contents) :
    ds.openAll root = some (siblings.filter fun e => !e.dots) := by
  have hlength := (root.append skip (utf8 n)).fits
  have hpos := List.length_pos_iff.mpr (made.units_ne_nil skip)
  rw [made.value, under, List.length_append] at hlength
  have hpattern : (root.appendWide [star]).value = root.value ++ separator root.value ++ [star] := by
    rw [Path.appendWide_value, under, List.take_of_length_le]
    rw [List.length_append, List.length_singleton]
    omega
  rw [Directories.openAll, hpattern, Directories.find, List.getLast?_concat, if_pos rfl,
    List.dropLast_concat, made.opens, Option.map_some]

theorem Made.pattern (made : Made skip ds root siblings n contents) :
    ((root.append skip (utf8 n)).appendWide [star]).value =
      ((root.append skip (utf8 n)).value ++ [backslash, star]).take 511 := by
  have hne : (root.append skip (utf8 n)).value ≠ [] := by
    rw [made.value]
    exact List.append_ne_nil_of_right_ne_nil _ (made.units_ne_nil skip)
  have hlast : (root.append skip (utf8 n)).value.getLast? ≠ some backslash :=
    fun h => (made.getLast? skip h).1 rfl
  rw [Path.appendWide_value, under, separator, if_pos ⟨hne, hlast⟩, List.append_assoc]
  rfl

theorem Made.openAll_inner (made : Made skip ds root siblings n contents)
    (room : (root.append skip (utf8 n)).value.length ≤ 509) :
    ds.openAll (root.append skip (utf8 n)) = some (contents.filter fun e => !e.dots) := by
  have hpattern := made.pattern skip
  have hassoc : (root.append skip (utf8 n)).value ++ [backslash, star] =
      (root.append skip (utf8 n)).value ++ [backslash] ++ [star] := by simp
  rw [hassoc, List.take_of_length_le (by simp; omega)] at hpattern
  rw [Directories.openAll, hpattern, Directories.find, List.getLast?_concat, if_pos rfl,
    List.dropLast_concat, made.holds, Option.map_some]

/-- Where it has no room, at most the container itself is found. -/
theorem Made.openAll_full (made : Made skip ds root siblings n contents)
    (full : 509 < (root.append skip (utf8 n)).value.length) {es : List Entry}
    (h : ds.openAll (root.append skip (utf8 n)) = some es) : ∀ e ∈ es, e.directory = true := by
  have hfits := (root.append skip (utf8 n)).fits
  have hpattern := made.pattern skip
  obtain hlength | hlength : (root.append skip (utf8 n)).value.length = 510 ∨
      (root.append skip (utf8 n)).value.length = 511 := by omega
  · have hcut : ((root.append skip (utf8 n)).value ++ [backslash, star]).take 511 =
        (root.append skip (utf8 n)).value ++ [backslash] := by
      rw [List.take_append, List.take_of_length_le (by omega), hlength]
      rfl
    rw [hcut] at hpattern
    rw [Directories.openAll, hpattern, Directories.find, List.getLast?_concat,
      if_neg (by decide), if_pos rfl] at h
    cases h
  · have hcut : ((root.append skip (utf8 n)).value ++ [backslash, star]).take 511 =
        (root.append skip (utf8 n)).value := by
      rw [List.take_append, List.take_of_length_le (by omega), hlength]
      exact List.append_nil _
    rw [hcut] at hpattern
    rw [Directories.openAll, hpattern, Directories.find,
      if_neg fun hlast => (made.getLast? skip hlast).2 rfl,
      if_neg fun hlast => (made.getLast? skip hlast).1 rfl] at h
    obtain ⟨found, hfound, rfl⟩ := Option.map_eq_some_iff.mp h
    obtain ⟨self, hself, rfl⟩ := Option.map_eq_some_iff.mp hfound
    intro e he
    obtain rfl := List.mem_singleton.mp (List.mem_of_mem_filter he)
    exact ds.directory _ e (by rw [made.holds]; rfl) hself

/-- What the callback is told of the container. -/
def containerReport (ds : Directories) (root : Path) (n : List Char) : ContainerInfo :=
  let i : ContainerInfo := { name := utf8 n, displayName := utf8 n }
  match ds.openAll (root.append skip (utf8 n)) with
  | none => i
  | some es => es.foldl ContainerInfo.count i

/-- The report is right in its counts where there is nothing to count; or what is counted has room,
and is found. -/
theorem Made.reports_iff (made : Made skip ds root siblings n contents) :
    Reports (containerReport skip ds root n) n (blobsOf contents) ↔
      blobsOf contents = [] ∨ (root.append skip (utf8 n)).value.length ≤ 509 ∧
        (blobsOf contents).length < 2 ^ 32 ∧ ((blobsOf contents).map Entry.size).sum < 2 ^ 64 ∧
        ∃ e ∈ blobsOf contents, 0 ≤ toSeconds e.written := by
  have hblobs : ((contents.filter fun e => !e.dots).filter fun e => !e.directory) =
      blobsOf contents := by
    rw [List.filter_filter, blobsOf]
  by_cases room : (root.append skip (utf8 n)).value.length ≤ 509
  · have hreport : containerReport skip ds root n =
        (contents.filter fun e => !e.dots).foldl ContainerInfo.count
          { name := utf8 n, displayName := utf8 n } := by
      rw [containerReport, made.openAll_inner skip room]
    have hnames := foldl_count_name (contents.filter fun e => !e.dots)
      { name := utf8 n, displayName := utf8 n }
    have hcount := foldl_count_blobs (contents.filter fun e => !e.dots)
      (i := { name := utf8 n, displayName := utf8 n }) (Nat.two_pow_pos 32)
    have hsize := foldl_count_size (contents.filter fun e => !e.dots)
      (i := { name := utf8 n, displayName := utf8 n }) (Nat.two_pow_pos 64)
    have htime := foldl_count_time (contents.filter fun e => !e.dots)
      { name := utf8 n, displayName := utf8 n }
    rw [← hreport, hblobs] at hcount hsize htime
    rw [← hreport] at hnames
    rw [Nat.zero_add] at hcount hsize
    have hlatest := isGreatest_iff_of_insert htime
    constructor
    · intro reports
      refine reports.lastModified.imp_right fun hgreatest => ⟨room, ?_, ?_, ?_⟩
      · rw [← reports.blobCount, hcount]
        exact Nat.mod_lt _ (Nat.two_pow_pos 32)
      · rw [← reports.totalSize, hsize]
        exact Nat.mod_lt _ (Nat.two_pow_pos 64)
      · obtain ⟨t, ⟨e, he, rfl⟩, hpos⟩ := hlatest.mp hgreatest
        exact ⟨e, he, hpos⟩
    · rintro (hnil | ⟨-, hfew, hsmall, e, he, hpos⟩)
      · exact ⟨hnames.1, hnames.2, by simp [hcount, hnil], by simp [hsize, hnil], .inl hnil⟩
      · refine ⟨hnames.1, hnames.2, by rw [hcount, Nat.mod_eq_of_lt hfew],
          by rw [hsize, Nat.mod_eq_of_lt hsmall], .inr (hlatest.mpr ?_)⟩
        exact ⟨_, ⟨e, he, rfl⟩, hpos⟩
  · -- nothing is counted
    have hreport : containerReport skip ds root n =
        { name := utf8 n, displayName := utf8 n } := by
      rw [containerReport]
      split
      · rfl
      · rename_i es hes
        have hdirs := made.openAll_full skip (by omega) hes
        clear hes
        induction es with
        | nil => rfl
        | cons e es ih =>
          rw [List.foldl_cons, ContainerInfo.count, if_pos (hdirs e List.mem_cons_self)]
          exact ih fun x hx => hdirs x (List.mem_cons_of_mem _ hx)
    rw [hreport]
    constructor
    · intro reports
      exact .inl (List.length_eq_zero_iff.mp reports.blobCount.symm)
    · rintro (hnil | ⟨hroom, -⟩)
      · rw [hnil]
        exact ⟨rfl, rfl, rfl, rfl, .inl rfl⟩
      · exact absurd hroom room

/-! ## What is reported -/

theorem containerInfo_eq_some {e : Entry} {i : ContainerInfo}
    (h : containerInfo skip ds root e = some i) :
    e.directory = true ∧ i.name = narrow e.name 256 := by
  unfold containerInfo at h
  dsimp only at h
  split_ifs at h with hdir
  refine ⟨hdir, ?_⟩
  split at h
  · obtain rfl := Option.some.inj h
    rfl
  · obtain rfl := Option.some.inj h
    exact (foldl_count_name _ _).1

theorem containerInfo_of_narrow {e : Entry} (hdir : e.directory = true)
    (hname : narrow e.name 256 = utf8 n) (h : storable (utf8 n) = true) :
    containerInfo skip ds root e = some (containerReport skip ds root n) := by
  have hsize : narrow e.name (blobNameCapacity * 4) = utf8 n := hname
  unfold containerInfo containerReport
  dsimp only
  rw [hsize, if_pos hdir, if_pos h]
  cases ds.openAll (root.append skip (utf8 n)) <;> rfl

theorem reports_eq_filterMap (es : List Entry) :
    reports skip ds root (fun _ => true) es = es.filterMap (containerInfo skip ds root) := by
  induction es with
  | nil => rfl
  | cons e es ih =>
    rw [reports, List.filterMap_cons, ih]
    cases containerInfo skip ds root e <;> rfl

end

/-- One entry of a list is all that is left, if the others are left out. -/
theorem filterMap_eq_singleton {α β : Type*} {g : α → Option β} {l : List α} (nodup : l.Nodup)
    {a : α} (ha : a ∈ l) {b : β} (hb : g a = some b) (c : β) :
    l.filterMap g = [c] ↔ b = c ∧ ∀ x ∈ l, x ≠ a → g x = none := by
  obtain ⟨s, t, rfl⟩ := List.append_of_mem ha
  rw [List.filterMap_append, List.filterMap_cons, hb]
  have hdistinct := List.nodup_append.mp nodup
  have hs : ∀ x ∈ s, x ≠ a := fun x hx => hdistinct.2.2 x hx a List.mem_cons_self
  have ht : ∀ x ∈ t, x ≠ a := fun x hx heq =>
    (List.nodup_cons.mp hdistinct.2.1).1 (heq ▸ hx)
  constructor
  · intro heq
    have hlength := congrArg List.length heq
    simp only [List.length_append, List.length_cons, List.length_nil] at hlength
    have hnone : s.filterMap g = [] := List.length_eq_zero_iff.mp (by omega)
    have hnone' : t.filterMap g = [] := List.length_eq_zero_iff.mp (by omega)
    rw [hnone, hnone'] at heq
    refine ⟨List.head_eq_of_cons_eq heq, fun x hx hne => ?_⟩
    rw [List.filterMap_eq_nil_iff] at hnone hnone'
    rcases List.mem_append.mp hx with hx | hx
    · exact hnone x hx
    · exact hnone' x ((List.mem_cons.mp hx).resolve_left hne)
  · rintro ⟨rfl, others⟩
    rw [List.filterMap_eq_nil_iff.mpr fun x hx => others x (by simp [hx]) (hs x hx),
      List.filterMap_eq_nil_iff.mpr fun x hx => others x (by simp [hx]) (ht x hx)]
    rfl

theorem not_dots {n : List Char} (h : storable (utf8 n) = true) {e : Entry}
    (hname : replace16 e.name = n) : e.dots = false := by
  rw [Entry.dots, decide_eq_false_iff_not]
  simp only [storable, decide_eq_true_eq] at h
  rintro (hdot | hdots)
  · rw [hdot, wide, replace16_utf16] at hname
    exact h.2.1 (congrArg utf8 hname.symm)
  · rw [hdots, wide, replace16_utf16] at hname
    exact h.2.2.1 (congrArg utf8 hname.symm)

/-- Where the callback always goes on, it is called once for a container, with the name and counts of
it, and the enumeration succeeds, if and only if the container can be reported. -/
theorem container_reported {ds : Directories} {root : Path} {siblings contents : List Entry}
    {n : List Char} (made : Made skip ds root siblings n contents) :
    (∃ i, (enumerateContainerInfo skip ds root true (some fun _ => true)).1.filter
          (fun i => i.name = utf8 n) = [i] ∧ Reports i n (blobsOf contents)) ∧
        (enumerateContainerInfo skip ds root true (some fun _ => true)).2 = S_OK ↔
      Reportable skip root siblings n (blobsOf contents) := by
  have henumerated : enumerateContainerInfo skip ds root true (some fun _ => true) =
      ((siblings.filter fun e => !e.dots).filterMap (containerInfo skip ds root), S_OK) := by
    rw [enumerateContainerInfo, made.openAll_root skip]
    simp only [if_true, reports_eq_filterMap]
  rw [henumerated]
  simp only [and_true]
  by_cases short : (utf8 n).length ≤ 255
  · have hnarrow := fun w => narrow_eq_iff (w := w) (made.ne_nil skip) short
    have hfound : ∀ e : Entry, e ∈ siblings → replace16 e.name = n →
        e ∈ siblings.filter fun e => !e.dots := by
      intro e he heq
      rw [List.mem_filter, not_dots made.storable heq]
      exact ⟨he, rfl⟩
    have hreported : ∀ e : Entry, e.directory = true → replace16 e.name = n →
        (containerInfo skip ds root e).filter (fun i => decide (i.name = utf8 n)) =
          some (containerReport skip ds root n) := by
      intro e he heq
      have hinfo : containerInfo skip ds root e = some (containerReport skip ds root n) :=
        containerInfo_of_narrow skip he ((hnarrow _).mpr heq) made.storable
      have hreport := (containerInfo_eq_some skip hinfo).2.trans ((hnarrow _).mpr heq)
      rw [hinfo, Option.filter_some, if_pos (by simpa using hreport)]
    have hconverted : ∀ {e : Entry} {i : ContainerInfo}, containerInfo skip ds root e = some i →
        i.name = utf8 n → e.directory = true ∧ replace16 e.name = n := by
      intro e i hi hsame
      obtain ⟨hdir, hinfo⟩ := containerInfo_eq_some skip hi
      exact ⟨hdir, (hnarrow _).mp (hinfo.symm.trans hsame)⟩
    have hnodup : (siblings.filter fun e => !e.dots).Nodup := made.once.of_map.filter _
    rw [List.filter_filterMap]
    constructor
    · rintro ⟨i, hi, reports⟩
      -- the report is that of some directory
      have hmem := List.mem_filterMap.mp (hi ▸ List.mem_singleton_self i)
      obtain ⟨self, hself, hinfo⟩ := hmem
      obtain ⟨hinfo, hsame⟩ := Option.filter_eq_some_iff.mp hinfo
      obtain ⟨hdir, hown⟩ := hconverted hinfo (by simpa using hsame)
      have hself := List.mem_of_mem_filter hself
      obtain ⟨rfl, others⟩ := (filterMap_eq_singleton hnodup (hfound self hself hown)
        (hreported self hdir hown) i).mp hi
      refine ⟨short, ⟨self, ⟨hself, hdir, hown⟩, ?_⟩, (made.reports_iff skip).mp reports⟩
      rintro e ⟨he, hdir', heq⟩
      by_contra hne
      have hnone := others e (hfound e he heq) hne
      rw [hreported e hdir' heq] at hnone
      cases hnone
    · rintro ⟨-, ⟨self, ⟨hself, hdir, hown⟩, only⟩, blobs⟩
      refine ⟨_, (filterMap_eq_singleton hnodup (hfound self hself hown)
        (hreported self hdir hown) _).mpr ⟨rfl, fun e he hne => ?_⟩,
        (made.reports_iff skip).mpr blobs⟩
      rw [Option.filter_eq_none_iff]
      intro i hi hsame
      obtain ⟨hdir', heq⟩ := hconverted hi (by simpa using hsame)
      exact hne (only e ⟨List.mem_of_mem_filter he, hdir', heq⟩)
  · refine iff_of_false ?_ fun reportable => short reportable.name
    rintro ⟨i, hi, reports⟩
    have hmem := List.mem_of_mem_filter (hi ▸ List.mem_singleton_self i)
    obtain ⟨e, -, hinfo⟩ := List.mem_filterMap.mp hmem
    have hlength := narrow_length e.name (n := 256) (by decide)
    rw [← (containerInfo_eq_some skip hinfo).2, reports.name] at hlength
    omega

def oneContainer (n : List Char) (contents : List Entry) : Directories where
  entries p :=
    if p = saves.value ++ [backslash] then some [⟨utf16 n, true, 0, 0⟩]
    else if p = under saves.value (utf16 n) ++ [backslash] then some contents
    else none
  entry p := if p = under saves.value (utf16 n) then some ⟨utf16 n, true, 0, 0⟩ else none
  directory := by
    intro p e _ h
    split_ifs at h
    obtain rfl := Option.some.inj h
    rfl

/-- A file of three bytes that was written in 1970. -/
def smallBlob : Entry := ⟨wide "one", false, 3, 116444736010000000⟩

theorem container_reported_settings :
    ∃ i, (enumerateContainerInfo (fun _ => 1) (oneContainer "profile".toList [smallBlob]) saves true
          (some fun _ => true)).1.filter (fun i => i.name = utf8 "profile".toList) = [i] ∧
        Reports i "profile".toList [smallBlob] := by
  have made : Made (fun _ => 1) (oneContainer "profile".toList [smallBlob]) saves
      [⟨utf16 "profile".toList, true, 0, 0⟩] "profile".toList [smallBlob] :=
    ⟨by decide +kernel, by decide +kernel, by decide +kernel, by decide +kernel, by decide +kernel,
      by decide +kernel⟩
  refine ((container_reported (fun _ => 1) made).mpr ⟨by decide +kernel, ?_, .inr ?_⟩).1
  · exact ⟨_, ⟨List.mem_singleton_self _, rfl, by decide +kernel⟩,
      fun e he => List.mem_singleton.mp he.1⟩
  · exact ⟨by decide +kernel, by decide +kernel, by decide +kernel, smallBlob,
      List.mem_singleton_self _, by decide +kernel⟩

def wideName : List Char := List.replicate 86 'あ'

/-- Its container is not reported. -/
theorem wideName_unreported :
    ¬ ∀ (skip : Bytes → ℕ) (ds : Directories) (root : Path) (siblings contents : List Entry)
      (n : List Char), Made skip ds root siblings n contents →
      (∃ e ∈ siblings, e.name = utf16 n ∧ e.directory = true) →
      (∀ e ∈ siblings, e.directory = true → e.name = utf16 n) →
      (∃ i, (enumerateContainerInfo skip ds root true (some fun _ => true)).1.filter
            (fun i => i.name = utf8 n) = [i] ∧ Reports i n (blobsOf contents)) ∧
          (enumerateContainerInfo skip ds root true (some fun _ => true)).2 = S_OK := by
  intro claim
  have made : Made (fun _ => 1) (oneContainer wideName [smallBlob]) saves
      [⟨utf16 wideName, true, 0, 0⟩] wideName [smallBlob] :=
    ⟨by decide +kernel, by decide +kernel, by decide +kernel, by decide +kernel, by decide +kernel,
      by decide +kernel⟩
  obtain ⟨⟨i, hi, -⟩, -⟩ := claim _ _ _ _ _ _ made ⟨_, List.mem_singleton_self _, rfl, rfl⟩ (by simp)
  have hnone : (enumerateContainerInfo (fun _ => 1) (oneContainer wideName [smallBlob]) saves true
      (some fun _ => true)).1 = [] := by
    decide +kernel
  rw [hnone] at hi
  cases hi

end IW4x.Gdk
