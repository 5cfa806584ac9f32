import IW4x.Gdk.BlobMap
import IW4x.Gdk.SaveHandles

/-!
# Where updates are written

An update points to the item of its container, and the item is cleared when the handle is closed and
handed out again by the next container. So an update is written where its container was only if the
handle was not closed before it was submitted.
-/

namespace IW4x.Gdk

open Unicode Runs

def InDirectory (d p : Wide) : Prop := ∃ y, y ≠ [] ∧ (∀ u ∈ y, u ≠ backslash) ∧ p = under d y

def FileEvent.path : FileEvent → Wide
  | .created p => p
  | .replaced p => p

variable (skip : Bytes → ℕ)

/-! ## What an operation writes -/

theorem inDirectory_take {location : Path} (room : ¬ TooDeep location) {y : Wide} (hy : y ≠ [])
    (plain : ∀ u ∈ y, u ≠ backslash) :
    InDirectory location.value ((under location.value y).take 511) := by
  simp only [TooDeep, not_le] at room
  refine ⟨y.take (511 - (location.value ++ separator location.value).length), ?_,
    fun u hu => plain u (List.mem_of_mem_take hu), ?_⟩
  · have hpos := List.length_pos_iff.mpr hy
    rw [← List.length_pos_iff, List.length_take]
    omega
  · rw [under, List.take_append, List.take_of_length_le (by omega), under]

/-- What is written for a blob lies in the location, if that is a directory. -/
theorem storeBlob_inDirectory {location : Path} {fs : FileSystem}
    (hdir : fs.directory location.value = true) (w : PendingWrite) (e : BlobEnv) :
    ∀ x ∈ (storeBlob skip location fs w e).events, InDirectory location.value x.path := by
  intro x hx
  obtain ⟨hpaths, hmay, -⟩ := storeBlob_events skip location fs w e
  have hmay := hmay (.inl (List.ne_nil_of_mem hx))
  have hname := text_of_short w.fits
  have hblob := blobPath_value skip location w.storable
  have hpart := partPath_value skip location w.storable
  rw [hname] at hblob hpart
  rw [hpart] at hmay
  have room := not_tooDeep hdir hmay
  have hne : convert skip w.name ≠ [] := by
    have := text_ne_nil w.storable
    rw [hname] at this
    exact convert_ne_nil skip this
  rcases hpaths x hx with rfl | rfl
  · rw [FileEvent.path, hpart]
    refine inDirectory_take room (List.append_ne_nil_of_left_ne_nil hne _) fun u hu => ?_
    exact (List.mem_append.mp hu).elim (not_backslash skip w.storable u) (part_not_backslash u)
  · rw [FileEvent.path, hblob]
    exact inDirectory_take room hne (not_backslash skip w.storable)

theorem work_directory (location : Path) (fs : FileSystem) (ws : List (PendingWrite × BlobEnv)) :
    (work skip location fs ws).files.directory = fs.directory := by
  induction ws generalizing fs with
  | nil => rfl
  | cons head rest ih =>
    obtain ⟨w, e⟩ := head
    have hstored := (storeBlob_events skip location fs w e).2.2
    simp only [work]
    split_ifs
    · rw [ih, hstored]
    · exact hstored

theorem work_inDirectory {location : Path} {fs : FileSystem}
    (hdir : fs.directory location.value = true) (ws : List (PendingWrite × BlobEnv)) :
    ∀ x ∈ (work skip location fs ws).events, InDirectory location.value x.path := by
  induction ws generalizing fs with
  | nil => simp [work]
  | cons head rest ih =>
    obtain ⟨w, e⟩ := head
    have hfirst := storeBlob_inDirectory skip hdir w e
    intro x hx
    simp only [work] at hx
    split_ifs at hx with hstored
    · rcases List.mem_append.mp hx with hx | hx
      · exact hfirst x hx
      · refine ih ?_ x hx
        rw [(storeBlob_events skip location fs w e).2.2]
        exact hdir
    · exact hfirst x hx

/-! ## Updates whose container is still open -/

def Tended (s : SaveHandles) : SaveCall → Prop
  | .submitUpdateAsync u _ _ _ _ => ∀ i c, s.updates.lookup u = some i →
      (s.updates.items i).target = some c → s.closings c = (s.updates.items i).born
  | _ => True

structure Homed (s : SaveHandles) : Prop where
  containers : ∀ c, s.containers.used c = true →
    s.files.directory (s.containers.items c).location.value = true
  /-- An update whose container was not closed has its location. -/
  updates : ∀ i c, (s.updates.items i).target = some c → (s.updates.items i).born ≤ s.closings c ∧
    (s.closings c = (s.updates.items i).born → s.containers.used c = true ∧
      (s.containers.items c).location = (s.updates.items i).home)
  operations : ∀ o ∈ s.submitted, o.location = o.home ∧
    s.files.directory o.location.value = true

theorem Homed.start (root : Path) (files : FileSystem) : Homed (.start root files) where
  containers := fun c h => by cases h
  updates := fun i c h => by cases h
  operations := fun o h => by cases h

section

variable {s : SaveHandles}

theorem Homed.more_directories (homed : Homed s) {fs : FileSystem}
    (more : ∀ p, s.files.directory p = true → fs.directory p = true) :
    Homed { s with files := fs } where
  containers := fun c hc => more _ (homed.containers c hc)
  updates := homed.updates
  operations := fun o ho => ⟨(homed.operations o ho).1, more _ (homed.operations o ho).2⟩

theorem makeDirectory_mono (fs : FileSystem) (l : Wide) :
    ∀ p, fs.directory p = true → (fs.makeDirectory l).directory p = true := by
  intro p hp
  by_cases h : p = l <;> simp [FileSystem.makeDirectory, Function.update, h, hp]

/-- A container takes a free item. No update has it as its open container. -/
theorem Homed.open_container (homed : Homed s) {c : Fin maxContainers}
    {p : HandlePool SaveContainer maxContainers}
    (hopen : s.containers.openItem .zero = some (c, p)) {x : SaveContainer}
    (hdir : s.files.directory x.location.value = true) :
    Homed { s with containers := p.set c x } := by
  obtain ⟨hfree, rfl⟩ := HandlePool.openItem_eq_some hopen
  constructor
  · intro d hd
    by_cases h : d = c
    · rw [h, HandlePool.set_items_self]
      exact hdir
    · simp only [HandlePool.set, Function.update_of_ne h] at hd ⊢
      exact homed.containers d hd
  · intro i d htarget
    obtain ⟨hborn, hhome⟩ := homed.updates i d htarget
    refine ⟨hborn, fun hopen => ?_⟩
    obtain ⟨hused, hlocation⟩ := hhome hopen
    have h : d ≠ c := by
      rintro rfl
      rw [hfree] at hused
      cases hused
    simp only [HandlePool.set, Function.update_of_ne h]
    exact ⟨hused, hlocation⟩
  · exact homed.operations

/-- A container that is closed is that of no update from then on. -/
theorem Homed.close_container (homed : Homed s) (c : Option (Fin maxContainers)) :
    Homed (s.closeContainer c) := by
  rcases s.containers.closeItem_cases .zero c with ⟨hlookup, heq⟩ | ⟨k, hlookup, heq⟩
  · simpa only [SaveHandles.closeContainer, heq, hlookup] using homed
  simp only [SaveHandles.closeContainer, heq, hlookup]
  constructor
  · intro d hd
    by_cases h : d = k
    · rw [h] at hd
      simp at hd
    · simp only [Function.update_of_ne h] at hd ⊢
      exact homed.containers d hd
  · intro i d htarget
    obtain ⟨hborn, hhome⟩ := homed.updates i d htarget
    by_cases h : d = k
    · rw [h] at hborn
      simp only [h, Function.update_self]
      exact ⟨by omega, fun hsame => by omega⟩
    · simp only [Function.update_of_ne h]
      exact ⟨hborn, hhome⟩
  · exact homed.operations

theorem Homed.set_update (homed : Homed s) {p : HandlePool SaveUpdate maxUpdates}
    {i : Fin maxUpdates} {t : SaveUpdate} (hitems : p.items = Function.update s.updates.items i t)
    (h : ∀ c, t.target = some c → t.born ≤ s.closings c ∧
      (s.closings c = t.born → s.containers.used c = true ∧
        (s.containers.items c).location = t.home)) :
    Homed { s with updates := p } where
  containers := homed.containers
  updates := by
    intro j c htarget
    simp only [hitems] at htarget ⊢
    by_cases hj : j = i
    · rw [hj, Function.update_self] at htarget ⊢
      exact h c htarget
    · rw [Function.update_of_ne hj] at htarget ⊢
      exact homed.updates j c htarget
  operations := homed.operations

theorem Homed.step {t : SaveHandles} {c : SaveCall} {ev : List SaveEvent} (homed : Homed s)
    (tended : Tended s c) (h : s.step skip c = some (t, ev)) : Homed t := by
  cases c with
  | setRoot root =>
    obtain ⟨rfl, -⟩ := Prod.mk.inj (Option.some.inj h)
    exact ⟨homed.containers, homed.updates, homed.operations⟩
  | createContainer provider n denied out =>
    obtain ⟨rfl, -⟩ := Prod.mk.inj (Option.some.inj h)
    rcases s.createContainer_cases skip provider n denied out with heq | ⟨l, heq | ⟨c, p, hopen, heq⟩⟩
    · rwa [heq]
    · rw [heq]
      exact homed.more_directories (makeDirectory_mono _ _)
    · rw [heq]
      refine (homed.more_directories (makeDirectory_mono _ l.value)).open_container hopen ?_
      simp [FileSystem.makeDirectory]
  | closeContainer c =>
    obtain ⟨rfl, -⟩ := Prod.mk.inj (Option.some.inj h)
    exact homed.close_container c
  | createUpdate c out =>
    obtain ⟨rfl, -⟩ := Prod.mk.inj (Option.some.inj h)
    rcases s.createUpdate_cases c out with heq | ⟨k, u, p, hlookup, hopen, heq⟩
    · rwa [heq]
    · obtain ⟨-, rfl⟩ := HandlePool.openItem_eq_some hopen
      rw [heq]
      refine homed.set_update (t := { SaveUpdate.zero with
        target := some k, home := (s.containers.items k).location, born := s.closings k })
        (i := u) ?_ fun c hc => ?_
      · simp [HandlePool.set]
      · obtain rfl := Option.some.inj hc
        exact ⟨le_rfl, fun _ => ⟨HandlePool.lookup_eq_some hlookup, rfl⟩⟩
  | closeUpdate u =>
    obtain ⟨rfl, -⟩ := Prod.mk.inj (Option.some.inj h)
    rcases s.updates.closeItem_cases .zero u with ⟨-, heq⟩ | ⟨i, -, heq⟩
    · simpa only [SaveHandles.closeUpdate, heq] using homed
    · simp only [SaveHandles.closeUpdate, heq]
      exact homed.set_update rfl fun c hc => by cases hc
  | submitBlobWrite u n data alloc =>
    obtain ⟨rfl, -⟩ := Prod.mk.inj (Option.some.inj h)
    rcases s.submitBlobWrite_cases u n data alloc with heq | ⟨i, w, heq⟩
    · rwa [heq]
    · rw [heq]
      exact homed.set_update rfl (homed.updates i)
  | submitUpdateAsync u b m e alloc =>
    obtain ⟨⟨t', hr⟩, hcall, heq⟩ := Option.map_eq_some_iff.mp h
    obtain ⟨rfl, -⟩ := Prod.mk.inj heq
    cases submitUpdateAsync_cases hcall with
    | unknown _ => exact homed
    | early => exact homed
    | refused => exact homed.set_update rfl (homed.updates _)
    | @submitted i c hlookup htarget _ _ =>
      have hset := homed.set_update (p := s.updates.set i { s.updates.items i with
        writes := [], queued := [] }) rfl (homed.updates i)
      refine ⟨hset.containers, hset.updates, fun o ho => ?_⟩
      rcases List.mem_append.mp ho with ho | ho
      · exact homed.operations o ho
      · obtain rfl := List.mem_singleton.mp ho
        obtain ⟨hused, hlocation⟩ := (homed.updates i c htarget).2 (tended i c hlookup htarget)
        exact ⟨hlocation, homed.containers c hused⟩
  | perform k e =>
    obtain ⟨r, hcall, heq⟩ := Option.map_eq_some_iff.mp h
    obtain ⟨rfl, -⟩ := Prod.mk.inj heq
    obtain ⟨o, ws, -, rfl⟩ := s.perform_eq_some skip hcall
    have hfiles : Homed { s with files := (work skip o.location s.files ws).files } :=
      homed.more_directories fun p hp => by rwa [work_directory]
    exact ⟨hfiles.containers, hfiles.updates,
      fun o ho => hfiles.operations o (List.mem_of_mem_eraseIdx ho)⟩
  | cancel k =>
    obtain ⟨rfl, -⟩ := Prod.mk.inj (Option.some.inj h)
    exact ⟨homed.containers, homed.updates,
      fun o ho => homed.operations o (List.mem_of_mem_eraseIdx ho)⟩

/-- Each file that a step writes for an update lies in the location of its container. -/
theorem Homed.events {t : SaveHandles} {c : SaveCall} {ev : List SaveEvent} (homed : Homed s)
    (h : s.step skip c = some (t, ev)) {home : Path} {x : FileEvent} (hx : .file home x ∈ ev) :
    InDirectory home.value x.path := by
  cases c with
  | perform k e =>
    obtain ⟨r, hcall, heq⟩ := Option.map_eq_some_iff.mp h
    obtain ⟨-, rfl⟩ := Prod.mk.inj heq
    obtain ⟨o, ws, ho, rfl⟩ := s.perform_eq_some skip hcall
    obtain ⟨hhome, hdir⟩ := homed.operations o (List.mem_of_getElem? ho)
    simp only [List.map_map, List.mem_map, Function.comp_apply, SaveEvent.file.injEq] at hx
    obtain ⟨y, hy, rfl, rfl⟩ := hx
    rw [← hhome]
    exact work_inDirectory skip hdir ws y hy
  | submitUpdateAsync u b m e alloc =>
    obtain ⟨r, -, heq⟩ := Option.map_eq_some_iff.mp h
    obtain ⟨-, rfl⟩ := Prod.mk.inj heq
    simp at hx
  | _ =>
    obtain ⟨-, rfl⟩ := Prod.mk.inj (Option.some.inj h)
    simp at hx

end

/-- In every run in which an update is submitted only while the handle of its container has not been
closed, all that is written for it lies directly in the location of the container. -/
theorem updates_stay_home {root : Path} {files : FileSystem} {tr : List SaveEvent} {s : SaveHandles}
    (run : Reaches (SaveHandles.step skip) Tended (.start root files) tr s) :
    ∀ home x, .file home x ∈ tr → InDirectory home.value x.path := by
  have hall := run.invariant (P := fun tr s =>
    Homed s ∧ ∀ home x, .file home x ∈ tr → InDirectory home.value x.path)
    ⟨Homed.start root files, by simp⟩
    (fun tr s c t ev ⟨homed, hfiles⟩ tended h => by
      refine ⟨homed.step skip tended h, fun home x hx => ?_⟩
      rcases List.mem_append.mp hx with hx | hx
      · exact hfiles home x hx
      · exact homed.events skip h hx)
  exact hall.2

instance (s : SaveHandles) : (c : SaveCall) → Decidable (Tended s c)
  | .submitUpdateAsync u _ _ _ _ =>
    inferInstanceAs (Decidable (∀ i c, s.updates.lookup u = some i →
      (s.updates.items i).target = some c → s.closings c = (s.updates.items i).born))
  | .setRoot _ | .createContainer .. | .closeContainer _ | .createUpdate .. | .closeUpdate _
  | .submitBlobWrite .. | .perform .. | .cancel _ => isTrue trivial

def writtenFiles (tr : List SaveEvent) : List (Wide × FileEvent) :=
  tr.filterMap fun
    | .file home x => some (home.value, x)
    | .returned _ => none

theorem exists_of_writtenFiles {tr : List SaveEvent} {d : Wide} {x : FileEvent}
    (h : (d, x) ∈ writtenFiles tr) : ∃ home : Path, home.value = d ∧ .file home x ∈ tr := by
  obtain ⟨e, he, heq⟩ := List.mem_filterMap.mp h
  cases e with
  | returned _ => cases heq
  | file home y =>
    obtain ⟨rfl, rfl⟩ := Prod.mk.inj (Option.some.inj heq)
    exact ⟨home, rfl, he⟩

/-- A blob is queued in an update of the container. -/
def queueIn (n : String) : List SaveCall :=
  [.createContainer true (utf8 n.toList) none true, .createUpdate (some 0) true,
    .submitBlobWrite (some 0) (utf8 "one".toList) (some [1]) true]

/-- The update is submitted to the process queue and performed. -/
def submitAndPerform : List SaveCall :=
  [.submitUpdateAsync (some 0) (some 0) (.start .empty) {} true, .perform 0 fun _ => {}]

theorem stays_trace :
    (execute (SaveHandles.step fun _ => 1) (.start saves (bare saves))
      (queueIn "a" ++ submitAndPerform)).map (fun last => writtenFiles last.2) =
      some [(wide "C:\\s\\a", .created (wide "C:\\s\\a\\one.part")),
        (wide "C:\\s\\a", .replaced (wide "C:\\s\\a\\one"))] := by
  decide +kernel

theorem updates_stay_home_settings :
    InDirectory (wide "C:\\s\\a") (wide "C:\\s\\a\\one") := by
  obtain ⟨⟨s, tr⟩, hrun, htrace⟩ := Option.map_eq_some_iff.mp stays_trace
  have run : Reaches (SaveHandles.step fun _ => 1) Tended (.start saves (bare saves)) tr s :=
    reaches_of_execute _ hrun (by decide +kernel)
  have hmem : (wide "C:\\s\\a", .replaced (wide "C:\\s\\a\\one")) ∈ writtenFiles tr := by
    rw [htrace]
    exact List.mem_cons_of_mem _ List.mem_cons_self
  obtain ⟨home, hhome, hfile⟩ := exists_of_writtenFiles hmem
  have hstays := updates_stay_home (fun _ => 1) run home _ hfile
  rwa [hhome] at hstays

/-- The container is closed, and another takes its item, before the update is submitted. -/
def reopenBetween : List SaveCall :=
  queueIn "a" ++ [.closeContainer (some 0), .createContainer true (utf8 "b".toList) none true] ++
    submitAndPerform

theorem strays_trace :
    (execute (SaveHandles.step fun _ => 1) (.start saves (bare saves)) reopenBetween).map
      (fun last => writtenFiles last.2) =
      some [(wide "C:\\s\\a", .created (wide "C:\\s\\b\\one.part")),
        (wide "C:\\s\\a", .replaced (wide "C:\\s\\b\\one"))] := by
  decide +kernel

/-- The update is written to the other container. -/
theorem update_strays :
    ¬ ∀ (skip : Bytes → ℕ) (root : Path) (files : FileSystem) (tr : List SaveEvent) (s : SaveHandles),
      Reaches (SaveHandles.step skip) always (.start root files) tr s →
        ∀ home x, .file home x ∈ tr → InDirectory home.value x.path := by
  intro claim
  obtain ⟨⟨s, tr⟩, hrun, htrace⟩ := Option.map_eq_some_iff.mp strays_trace
  have hmem : (wide "C:\\s\\a", .replaced (wide "C:\\s\\b\\one")) ∈ writtenFiles tr := by
    rw [htrace]
    exact List.mem_cons_of_mem _ List.mem_cons_self
  obtain ⟨home, hhome, hfile⟩ := exists_of_writtenFiles hmem
  obtain ⟨y, -, -, hpath⟩ := claim _ _ _ tr s (reaches_of_run hrun) home _ hfile
  have hprefix := congrArg (List.take 6) hpath
  have hlength : (wide "C:\\s\\a").length = 6 := by decide +kernel
  rw [hhome, under, List.append_assoc, List.take_append_of_le_length hlength.ge,
    List.take_of_length_le hlength.le] at hprefix
  revert hprefix
  decide +kernel

end IW4x.Gdk
