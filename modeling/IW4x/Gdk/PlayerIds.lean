import IW4x.Lib.Once
import IW4x.Lib.Runs
import IW4x.Gdk.Directories
import IW4x.Gdk.Gamertag
import IW4x.Gdk.Identity

/-!
# The storage root and the ID of the player

What is stored lies in a directory next to the module. The directory is found and made once in a
process, and so is the ID of the player: it is read from its file, or minted and written there.
Processes come and go, their calls of the file system fail or not, and other programs write other
files.
-/

namespace IW4x.Gdk

open Runs RawMemory Hex

/-! ## Failures of the system -/

/-- What `GetLastError` answers, and what `FormatMessageA` makes of it. -/
structure SystemError where
  code : BitVec 32
  message : Option Bytes

def hresultFromWin32 (e : BitVec 32) : HResult :=
  if e.toInt ≤ 0 then e else (e &&& 0xFFFF) ||| 0x80070000

theorem dword_fits : 32 ≤ 64 := by norm_num

/-- The characters that `append_last_error` drops at the end of a message. -/
def endsMessage (c : UInt8) : Bool := c = 10 || c = 13 || c = 46

/-- What `append_last_error` appends. -/
def lastError (e : SystemError) : Bytes :=
  match e.message with
  | none => formatted (ascii ": error " ++ braces) [.integral false e.code dword_fits]
  | some [] => formatted (ascii ": error " ++ braces) [.integral false e.code dword_fits]
  | some b => formatted (ascii ": " ++ braces) [.view (b.rdropWhile endsMessage)]

def raiseWin32 (f : Bytes) (e : SystemError) : Raised :=
  ⟨hresultFromWin32 e.code, text descriptionSize (formatted f [] ++ lastError e)⟩

/-- How a call ends that gives nothing: by a failure, by a violated contract, or with the process,
where a failure gets out of a function that is `noexcept`. -/
inductive Stop where
  | raised (r : Raised)
  | contract (c : Contract)
  | terminated

/-! ## The storage root -/

/-- What `GetModuleFileNameW` gives where it succeeds: a name that fits with its terminator. -/
structure ModuleName where
  units : Wide
  short : units.length < 512
  plain : 0 ∉ units

/-- What `resolve_root` finds outside. -/
structure RootEnv where
  /-- `GetModuleFileNameW` fails, or cuts the name. -/
  name : Except SystemError ModuleName
  /-- The directories that `CreateDirectoryW` does not make, with the code of `GetLastError`. -/
  denied : Wide → Option (BitVec 32)
  /-- What `GetLastError` says where the root was not made. -/
  unmade : SystemError
  /-- What the memory of a path holds. -/
  garbage : { g : Wide // g.length = 512 }

def directoryCalls (denied : Wide → Option (BitVec 32)) : DirectoryCalls FileSystem where
  create fs p :=
    match denied p with
    | some e => (fs, some e)
    | none =>
      if fs.directory p ∨ (fs.files p).isSome then (fs, some errorAlreadyExists)
      else (fs.makeDirectory p, none)
  attributes fs p :=
    if fs.directory p then 0x10 else if (fs.files p).isSome then 0x80 else 0xFFFFFFFF
  created fs p h := by
    cases hdenied : denied p with
    | some e => simp [hdenied] at h
    | none =>
      by_cases hthere : fs.directory p = true ∨ (fs.files p).isSome = true
      · simp [hdenied, hthere] at h
      · simp only [if_neg hthere, FileSystem.makeDirectory, Function.update_self, if_true]
        decide

def rootOf (garbage : { g : Wide // g.length = 512 }) (w : ModuleName) : PathBuffer :=
  ((((PathBuffer.empty garbage.1 garbage.2).extendUnits (some w.units)).1.toDirectory).append
    (some (wide "players"))).1

def resolveRoot (env : RootEnv) (fs : FileSystem) : Except Stop PathBuffer × FileSystem :=
  match env.name with
  | .error e => (.error (.raised (raiseWin32 (ascii "unable to retrieve module location") e)), fs)
  | .ok w =>
    if (rootOf env.garbage w).whole = false then
      (.error (.raised (raise E_FAIL (ascii "the storage root does not fit in a path") [])), fs)
    else
      match createDirectories (directoryCalls env.denied) fs (rootOf env.garbage w) env.garbage.1
          env.garbage.2 with
      | .error c => (.error (.contract c), fs)
      | .ok (g, true) => (.ok (rootOf env.garbage w), g.files)
      | .ok (g, false) =>
        (.error (.raised (raiseWin32 (ascii "unable to create the storage root") env.unmade)),
          g.files)

/-! ## The ID of the player -/

/-- `identity_file`, with the root. It is not asked whether the name fits. -/
def identityFile (root : PathBuffer) : PathBuffer := (root.append (some (wide "identity"))).1

/-- What `xuid` finds outside. -/
structure IdEnv where
  root : RootEnv
  read : FileEnv
  random : Option (Unsigned 8)
  /-- The status of `BCryptGenRandom` where it gives nothing. -/
  status : BitVec 32
  write : FileEnv
  /-- What `GetLastError` says where the file was not written. -/
  unwritten : SystemError
  memory : Mem

/-- What `mint_identity` raises. -/
def IdEnv.unminted (env : IdEnv) : Raised :=
  match env.random with
  | none => raise E_FAIL (ascii "unable to generate local user ID, status " ++ braces)
      [.hex ⟨BitVec.ofNat _ env.status.toNat, 8⟩]
  | some _ => raiseWin32 (ascii "unable to write local user ID") env.unwritten

/-- The root, which was resolved or is not, and the files. -/
abbrev RootCell := Once.Cell FileSystem PathBuffer

/-- What initialises the ID in `xuid`. The file is named first in `read_identity`, which lets no
failure out. -/
def resolveId (env : IdEnv) (c : RootCell) : Except Stop (Unsigned 8) × RootCell :=
  match Once.call resolveRoot c env.root with
  | (.error _, c) => (.error .terminated, c)
  | (.ok root, c) =>
    match readIdentity c.world (identityFile root).view env.read with
    | some v => (.ok v, c)
    | none =>
      match mintIdentity env.memory c.world (identityFile root).view env.random env.write with
      | .error e => (.error (.contract e), c)
      | .ok (fs, some v) => (.ok v, { c with world := fs })
      | .ok (fs, none) => (.error (.raised env.unminted), { c with world := fs })

/-! ## Runs of processes -/

/-- The ID, the root and the files. -/
structure LocalState where
  ids : Once.Cell RootCell (Unsigned 8)
  /-- The process was terminated. -/
  ended : Bool

inductive LocalInput where
  /-- `storage_root`. -/
  | root (env : RootEnv)
  /-- `xuid`. -/
  | id (env : IdEnv)
  /-- A process ends, if it has not, and another one is started. -/
  | restart
  /-- Other files are written, or other directories made and removed. -/
  | elsewhere (fs : FileSystem)

/-- What a call answers, or how it ends. -/
inductive LocalEvent where
  | root (r : Except Stop Wide)
  | id (r : Except Stop (Unsigned 8))

def Stop.isTerminated : Stop → Bool
  | .terminated => true
  | _ => false

namespace LocalState

/-- The first process, before any call. -/
def start (fs : FileSystem) : LocalState := ⟨⟨none, ⟨none, fs⟩⟩, false⟩

def files (s : LocalState) : FileSystem := s.ids.world.world

def step : Step LocalState LocalInput LocalEvent := fun s input =>
  match input with
  | .restart => some (start s.files, [])
  | .elsewhere fs => some (⟨⟨s.ids.value, ⟨s.ids.world.value, fs⟩⟩, s.ended⟩, [])
  | .root env =>
    if s.ended then none
    else
      match Once.call resolveRoot s.ids.world env with
      | (r, c) => some (⟨⟨s.ids.value, c⟩, false⟩, [.root (r.map PathBuffer.view)])
  | .id env =>
    if s.ended then none
    else
      match Once.call resolveId s.ids env with
      | (.ok v, c) => some (⟨c, false⟩, [.id (.ok v)])
      | (.error stop, c) => some (⟨c, stop.isTerminated⟩, [.id (.error stop)])

end LocalState

/-! ## What the root comes to -/

/-- The storage root of a module, whether it fits or not. -/
def rootPath (w : Wide) : Wide := under (directoryOf w) (wide "players")

/-- The file of the ID under a root, as far as it fits. -/
def idPath (root : Wide) : Wide := (under root (wide "identity")).take 511

theorem rootOf_view {garbage : { g : Wide // g.length = 512 }} {w : ModuleName}
    (hwhole : (rootOf garbage w).whole = true) : (rootOf garbage w).view = rootPath w.units := by
  have hunits := w.short
  have hshort : ∀ op ∈ [PathOp.extendUnits (some w.units), .toDirectory,
      .append (some (wide "players"))], op.length < 2 ^ 31 := by
    intro op hop
    simp only [List.mem_cons, List.not_mem_nil, or_false] at hop
    rcases hop with rfl | rfl | rfl
    · simp only [PathOp.length, Option.getD_some]
      omega
    · decide
    · decide
  have hwhole' : (runPath (.ofConvert fun _ => 1) (.empty garbage.1 garbage.2)
      [.extendUnits (some w.units), .toDirectory, .append (some (wide "players"))]).whole =
        true := hwhole
  exact runPath_whole (v := []) hshort (fun _ => rfl) hwhole'

theorem identityFile_view (root : PathBuffer) : (identityFile root).view = idPath root.view := by
  have hplain : wideString (wide "identity") = wide "identity" := by decide
  have hpath : (identityFile root).toPath = root.toPath.appendWide (wide "identity") := by
    rw [identityFile, PathBuffer.append, PathBuffer.extend, PathBuffer.extendUnits_toPath, hplain,
      PathBuffer.separated_toPath, Path.appendWide]
  rw [← PathBuffer.toPath_value, hpath, Path.appendWide_value]
  rfl

theorem directoryOf_plain {w : Wide} (h : 0 ∉ w) : 0 ∉ directoryOf w := by
  have hbegin : directoryOf w <+: w := by
    unfold directoryOf
    dsimp only
    split_ifs
    · exact (List.take_prefix _ _).trans (List.rdropWhile_prefix _ _)
    · exact (List.rdropWhile_prefix _ _).trans (List.rdropWhile_prefix _ _)
  exact fun hmem => h (hbegin.subset hmem)

theorem rootPath_plain {w : Wide} (h : 0 ∉ w) : 0 ∉ rootPath w := by
  have hnames : (0 : UInt16) ∉ wide "players" := by decide
  intro hmem
  rw [rootPath, under, separator, List.mem_append, List.mem_append] at hmem
  rcases hmem with (hmem | hmem) | hmem
  · exact directoryOf_plain h hmem
  · split_ifs at hmem
    · exact absurd (List.mem_singleton.mp hmem) (by decide)
    · cases hmem
  · exact hnames hmem

theorem makeDirectory_keeps {σ : Type} {calls : DirectoryCalls σ} {P : σ → Prop} {s : σ} {v : Wide}
    (keeps : P s → P (calls.create s v).1) (hs : P s) : P (makeDirectory calls s v).1 := by
  have hmade : (makeDirectory calls s v).1 = (calls.create s v).1 := by
    unfold makeDirectory
    rcases calls.create s v with ⟨t, _ | e⟩
    · rfl
    · dsimp only
      split_ifs <;> rfl
  rw [hmade]
  exact keeps hs

/-- The directories on the way have names that are no longer than the path. -/
theorem createLoop_keeps {σ : Type} {calls : DirectoryCalls σ} {P : σ → Prop} {p : PathBuffer}
    (keeps : ∀ s v, v.length ≤ p.size → P s → P (calls.create s v).1) {i : ℕ} (hi : i ≤ p.size)
    {w : PathBuffer} {g g' : Progress σ} (h : createLoop calls p i w g = .ok g') (hg : P g.files) :
    P g'.files := by
  induction hn : p.size - i generalizing i w g with
  | zero =>
    obtain rfl : i = p.size := by omega
    rw [createLoop, if_pos rfl] at h
    rw [← Except.ok.inj h]
    exact hg
  | succ n ih =>
    have hlt : i < p.size := by omega
    have hnext : p.size - (i + 1) = n := by omega
    rw [createLoop, if_neg (by omega)] at h
    split at h
    · cases h
    · dsimp only at h
      split_ifs at h with hsep hmade
      · exact ih (by omega) h hg hnext
      · refine ih (by omega) h ?_ hnext
        apply makeDirectory_keeps _ hg
        apply keeps
        rw [wideString_value, prefix_view p w hi]
        have hle := (List.takeWhile_prefix (· ≠ 0) (l := p.view.take i)).length_le
        rw [List.length_take] at hle
        exact hle.trans ((min_le_left _ _).trans hi)
      · exact ih (by omega) h hg hnext

theorem createDirectories_keeps {σ : Type} {calls : DirectoryCalls σ} {P : σ → Prop}
    {p : PathBuffer} (hp : 0 < p.size)
    (keeps : ∀ s v, v.length ≤ p.size → P s → P (calls.create s v).1) {s : σ} {garbage : Wide}
    {hlength : garbage.length = 512} {g : Progress σ} {made : Bool}
    (h : createDirectories calls s p garbage hlength = .ok (g, made)) (hs : P s) : P g.files := by
  cases hloop : createLoop calls p 1 (.empty garbage hlength) { files := s } with
  | error c => simp [createDirectories, hloop, bind, Except.bind] at h
  | ok g₁ =>
    rw [createDirectories, hloop] at h
    rw [← (Prod.mk.inj (Except.ok.inj h)).1]
    apply makeDirectory_keeps _ (createLoop_keeps keeps hp hloop hs)
    apply keeps
    rw [wideString_value]
    exact (List.takeWhile_prefix _).length_le.trans p.view_length.le

/-! ## How the root is made -/

theorem directoryCalls_create (denied : Wide → Option (BitVec 32)) (fs : FileSystem) (v : Wide) :
    ((directoryCalls denied).create fs v).1 = fs ∨
      ((directoryCalls denied).create fs v).1 = fs.makeDirectory v := by
  unfold directoryCalls
  dsimp only
  split
  · exact .inl rfl
  · split_ifs
    · exact .inl rfl
    · exact .inr rfl

theorem directoryCalls_attributes {denied : Wide → Option (BitVec 32)} {fs : FileSystem} {v : Wide}
    (h : isDirectoryMask ((directoryCalls denied).attributes fs v) = true) :
    fs.directory v = true := by
  by_contra hnot
  simp only [directoryCalls, if_neg hnot] at h
  split_ifs at h <;> exact absurd h (by decide)

/-- Either nothing is made, or the directories down to the root are. -/
theorem resolveRoot_cases {env : RootEnv} {fs fs' : FileSystem} {r : Except Stop PathBuffer}
    (h : resolveRoot env fs = (r, fs')) :
    (fs' = fs ∧ ∃ e, r = .error e) ∨
      ∃ m g made, env.name = .ok m ∧ (rootOf env.garbage m).whole = true ∧
        createDirectories (directoryCalls env.denied) fs (rootOf env.garbage m) env.garbage.1
          env.garbage.2 = .ok (g, made) ∧ fs' = g.files ∧
        ∀ p, r = .ok p → made = true ∧ p = rootOf env.garbage m := by
  unfold resolveRoot at h
  split at h
  · obtain ⟨rfl, rfl⟩ := Prod.mk.inj h
    exact .inl ⟨rfl, _, rfl⟩
  · rename_i m hname
    split_ifs at h with hwhole
    · obtain ⟨rfl, rfl⟩ := Prod.mk.inj h
      exact .inl ⟨rfl, _, rfl⟩
    · rw [Bool.not_eq_false] at hwhole
      split at h
      · obtain ⟨rfl, rfl⟩ := Prod.mk.inj h
        exact .inl ⟨rfl, _, rfl⟩
      · rename_i g hmade
        obtain ⟨rfl, rfl⟩ := Prod.mk.inj h
        exact .inr ⟨m, g, true, hname, hwhole, hmade, rfl, fun p hp => ⟨rfl, (Except.ok.inj hp).symm⟩⟩
      · rename_i g hmade
        obtain ⟨rfl, rfl⟩ := Prod.mk.inj h
        exact .inr ⟨m, g, false, hname, hwhole, hmade, rfl, fun p hp => (nomatch hp)⟩

theorem rootPath_pos (w : Wide) : 0 < (rootPath w).length := by
  rw [rootPath, under, List.length_append]
  exact Nat.add_pos_right _ (by decide)

/-- What the directories down to the root keep. -/
theorem resolveRoot_keeps {P : FileSystem → Prop} {env : RootEnv} {w : Wide}
    (hname : ∀ m, env.name = .ok m → m.units = w)
    (keeps : (rootPath w).length ≤ 511 →
      ∀ fs v, v.length ≤ (rootPath w).length → P fs → P (fs.makeDirectory v))
    {fs fs' : FileSystem} {r : Except Stop PathBuffer} (h : resolveRoot env fs = (r, fs'))
    (hfs : P fs) : P fs' := by
  rcases resolveRoot_cases h with ⟨rfl, -⟩ | ⟨m, g, made, hm, hwhole, hmade, rfl, -⟩
  · exact hfs
  · have hview := rootOf_view hwhole
    rw [hname m hm] at hview
    have hsize := (rootOf env.garbage m).view_length
    rw [hview] at hsize
    apply createDirectories_keeps (hsize ▸ rootPath_pos w) _ hmade hfs
    intro fs v hv hkept
    rcases directoryCalls_create env.denied fs v with hcreate | hcreate
    · rw [hcreate]
      exact hkept
    · rw [hcreate]
      have hfits := (rootOf env.garbage m).fits
      exact keeps (by omega) fs v (hsize ▸ hv) hkept

theorem resolveRoot_ok {env : RootEnv} {fs fs' : FileSystem} {p : PathBuffer}
    (h : resolveRoot env fs = (.ok p, fs')) :
    ∃ m, env.name = .ok m ∧ p.view = rootPath m.units ∧ fs'.directory p.view = true := by
  rcases resolveRoot_cases h with ⟨-, e, he⟩ | ⟨m, g, made, hm, hwhole, hmade, rfl, hok⟩
  · cases he
  · obtain ⟨rfl, rfl⟩ := hok p rfl
    have hview := rootOf_view hwhole
    refine ⟨m, hm, hview, ?_⟩
    have hplain : 0 ∉ (rootOf env.garbage m).view := by
      rw [hview]
      exact rootPath_plain m.plain
    have hne : (rootOf env.garbage m).view ≠ [] := by
      rw [hview]
      exact List.ne_nil_of_length_pos (rootPath_pos _)
    obtain ⟨g', made', hcreate, -, -, hthere⟩ :=
      (creates_iff (directoryCalls env.denied) fs _ env.garbage.1 env.garbage.2).mpr ⟨hne, hplain⟩
    obtain ⟨rfl, rfl⟩ := Prod.mk.inj (Except.ok.inj (hmade.symm.trans hcreate))
    exact directoryCalls_attributes (hthere rfl)

/-- The root is found where it fits, no directory is denied and no file has its name. -/
theorem resolveRoot_made {env : RootEnv} {fs : FileSystem} {m : ModuleName}
    (hname : env.name = .ok m) (hwhole : (rootOf env.garbage m).whole = true)
    (hdenied : ∀ v, env.denied v = none) (hroot : fs.files (rootPath m.units) = none) :
    ∃ fs', resolveRoot env fs = (.ok (rootOf env.garbage m), fs') ∧ fs'.files = fs.files := by
  have hview := rootOf_view hwhole
  have hsize := (rootOf env.garbage m).view_length
  have hpos : 0 < (rootOf env.garbage m).size := by
    rw [← hsize, hview]
    exact rootPath_pos _
  have hfiles (t : FileSystem) (v : Wide) (ht : t.files = fs.files) :
      ((directoryCalls env.denied).create t v).1.files = fs.files := by
    rcases directoryCalls_create env.denied t v with hcreate | hcreate
    · rw [hcreate]
      exact ht
    · rw [hcreate]
      exact ht
  obtain ⟨g, hloop, -, -⟩ := createLoop_attempts (directoryCalls env.denied) (rootOf env.garbage m)
    (i := 1) (by norm_num) hpos (.empty env.garbage.1 env.garbage.2) { files := fs }
  have hg : g.files.files = fs.files :=
    createLoop_keeps (P := fun t : FileSystem => t.files = fs.files)
      (fun t v _ => hfiles t v) hpos hloop rfl
  have hstring : wideString (rootOf env.garbage m).value = rootPath m.units := by
    rw [wideString_value, hview]
    exact wideString_eq_self.mpr (rootPath_plain m.plain)
  have hmade : (makeDirectory (directoryCalls env.denied) g.files (rootPath m.units)).2 = true := by
    have hnone : g.files.files (rootPath m.units) = none := by rw [hg, hroot]
    unfold makeDirectory directoryCalls
    simp only [hdenied, hnone, Option.isSome_none, Bool.false_eq_true, or_false]
    by_cases hthere : g.files.directory (rootPath m.units) = true
    · simp [hthere]
      decide
    · simp [hthere]
  refine ⟨(makeDirectory (directoryCalls env.denied) g.files (rootPath m.units)).1, ?_, ?_⟩
  · have hcreate : createDirectories (directoryCalls env.denied) fs (rootOf env.garbage m)
        env.garbage.1 env.garbage.2 = .ok ({ g with
          files := (makeDirectory (directoryCalls env.denied) g.files (rootPath m.units)).1
          attempts := g.attempts ++ [rootPath m.units] }, true) := by
      rw [createDirectories, hloop, hstring, ← hmade]
      rfl
    simp only [resolveRoot, hname, hwhole, hcreate, Bool.true_eq_false, if_false]
  · exact makeDirectory_keeps (P := fun t : FileSystem => t.files = fs.files) (hfiles g.files _) hg

/-! ## What the file of the ID says -/

/-- The file can be opened, and it says the ID. -/
def Recorded (p : Wide) (v : Unsigned 8) (fs : FileSystem) : Prop :=
  fs.mayOpen p = true ∧ ∃ data, fs.files p = some data ∧ parseIdentity (data.take 32) = some v

theorem Recorded.unique {p : Wide} {v v' : Unsigned 8} {fs : FileSystem} (h : Recorded p v fs)
    (h' : Recorded p v' fs) : v = v' := by
  obtain ⟨-, data, hdata, hv⟩ := h
  obtain ⟨-, data', hdata', hv'⟩ := h'
  obtain rfl := Option.some.inj (hdata.symm.trans hdata')
  exact Option.some.inj (hv.symm.trans hv')

def FileEnv.Reads (env : FileEnv) (data : Bytes) : Prop :=
  env.opens = true ∧ env.sizes = true ∧ readFile env.answers data (min 32 data.length) ≠ none

theorem parseIdentity_ne_zero {b : Bytes} {v : Unsigned 8} (h : parseIdentity b = some v) :
    v ≠ 0 := by
  unfold parseIdentity at h
  dsimp only at h
  split at h
  · cases h
  · split_ifs at h with hzero
    rw [← Option.some.inj h]
    exact hzero

theorem take_identity (data : Bytes) :
    data.take (if data.length > 32 then 32 else data.length) = data.take 32 := by
  split_ifs with hlong
  · rfl
  · rw [List.take_of_length_le le_rfl, List.take_of_length_le (by omega)]

theorem readIdentity_recorded {fs : FileSystem} {p : Wide} {env : FileEnv} {v : Unsigned 8}
    (h : readIdentity fs p env = some v) : v ≠ 0 ∧ Recorded p v fs := by
  unfold readIdentity at h
  split at h
  · rename_i data hopen
    unfold FileSystem.openRead at hopen
    split_ifs at hopen with hmay
    split at h
    · cases h
    · dsimp only at h
      split at h
      · cases h
      · rename_i b hread
        rw [readFile_eq hread, take_identity] at h
        exact ⟨parseIdentity_ne_zero h, hmay.1, data, Option.some.inj hopen, h⟩
  · cases h

theorem readIdentity_of_recorded {fs : FileSystem} {p : Wide} {env : FileEnv} {v : Unsigned 8}
    (h : Recorded p v fs) (reads : ∀ data, fs.files p = some data → env.Reads data) :
    readIdentity fs p env = some v := by
  obtain ⟨hmay, data, hdata, hv⟩ := h
  obtain ⟨hopens, hsizes, hread⟩ := reads data hdata
  have hne : data.length ≠ 0 := by
    intro hzero
    have hnone : parseIdentity (List.take 32 []) = none := by decide
    rw [List.length_eq_zero_iff.mp hzero, hnone] at hv
    cases hv
  have hopen : fs.openRead p env.opens = some (some data) := by
    rw [FileSystem.openRead, if_pos ⟨hmay, hopens⟩, hdata]
  have hlength : (if data.length > 32 then 32 else data.length) = min 32 data.length := by
    split_ifs <;> omega
  obtain ⟨b, hb⟩ := Option.ne_none_iff_exists'.mp hread
  rw [readIdentity, hopen]
  simp only [hsizes, hne, Bool.true_eq_false, or_self, if_false, hlength, hb]
  rw [readFile_eq hb, ← hlength, take_identity]
  exact hv

theorem mintIdentity_recorded {m : Mem} {fs fs' : FileSystem} {p : Wide}
    {random : Option (Unsigned 8)} {env : FileEnv} {v : Unsigned 8}
    (h : mintIdentity m fs p random env = .ok (fs', some v)) : v ≠ 0 ∧ Recorded p v fs' := by
  have hlength := (xuidText_eq m v).2
  have hread : readIdentity fs' p {} = some v := by
    apply mintIdentity_read h rfl rfl
    simp [readFile, hlength]
  exact readIdentity_recorded hread

theorem mintIdentity_mayOpen {m : Mem} {fs fs' : FileSystem} {p : Wide}
    {random : Option (Unsigned 8)} {env : FileEnv} {v : Option (Unsigned 8)}
    (h : mintIdentity m fs p random env = .ok (fs', v)) (q : Wide) :
    fs'.mayOpen q = fs.mayOpen q := by
  unfold mintIdentity at h
  split at h
  · rw [← (Prod.mk.inj (Except.ok.inj h)).1]
  · rename_i u _
    rw [(xuidText_eq m u).1] at h
    cases hcreate : fs.createAlways p env.opens with
    | none =>
      rw [hcreate] at h
      rw [← (Prod.mk.inj (Except.ok.inj h)).1]
    | some fs₁ =>
      rw [hcreate] at h
      rw [← (Prod.mk.inj (Except.ok.inj h)).1, (FileSystem.createAlways_eq_some hcreate).2.2]
      rfl

/-! ## What a call does -/

/-- What is done elsewhere leaves the file alone. -/
structure LeftAlone (p : Wide) (fs fs' : FileSystem) : Prop where
  files : fs'.files p = fs.files p
  mayOpen : fs'.mayOpen p = fs.mayOpen p

theorem LeftAlone.trans {p : Wide} {fs fs' fs'' : FileSystem} (h : LeftAlone p fs fs')
    (h' : LeftAlone p fs' fs'') : LeftAlone p fs fs'' :=
  ⟨h'.files.trans h.files, h'.mayOpen.trans h.mayOpen⟩

theorem Recorded.leftAlone {p : Wide} {v : Unsigned 8} {fs fs' : FileSystem} (h : Recorded p v fs)
    (h' : LeftAlone p fs fs') : Recorded p v fs' := by
  obtain ⟨hmay, data, hdata, hv⟩ := h
  exact ⟨h'.mayOpen.trans hmay, data, h'.files.trans hdata, hv⟩

/-- The root that was found is that of the module. Where it leaves no room for a name below it, the
file of the ID is none. -/
def Rooted (w : Wide) (c : RootCell) : Prop :=
  ∀ r, c.value = some r → r.view = rootPath w ∧
    (idPath (rootPath w) = rootPath w → c.world.mayOpen (idPath (rootPath w)) = false)

theorem Rooted.leftAlone {w : Wide} {c : RootCell} {fs : FileSystem} (h : Rooted w c)
    (h' : LeftAlone (idPath (rootPath w)) c.world fs) : Rooted w ⟨c.value, fs⟩ := by
  intro r hr
  obtain ⟨hview, hnone⟩ := h r hr
  exact ⟨hview, fun hid => h'.mayOpen.trans (hnone hid)⟩

theorem length_lt_idPath {root : Wide} (hroot : root.length ≤ 511) (hid : idPath root ≠ root) :
    root.length < (idPath root).length := by
  have hbegin : root <+: idPath root := by
    have hunder : root <+: under root (wide "identity") := by
      rw [under, List.append_assoc]
      exact List.prefix_append _ _
    have htake := hunder.take 511
    rwa [List.take_of_length_le hroot] at htake
  apply lt_of_le_of_ne hbegin.length_le
  intro heq
  exact hid (hbegin.eq_of_length heq).symm

theorem resolveRoot_leftAlone {env : RootEnv} {w : Wide} (hname : ∀ m, env.name = .ok m → m.units = w)
    (hid : idPath (rootPath w) ≠ rootPath w) {fs fs' : FileSystem} {r : Except Stop PathBuffer}
    (h : resolveRoot env fs = (r, fs')) : LeftAlone (idPath (rootPath w)) fs fs' := by
  apply resolveRoot_keeps (P := LeftAlone (idPath (rootPath w)) fs) hname _ h ⟨rfl, rfl⟩
  intro hroot t v hv ht
  have hlt := length_lt_idPath hroot hid
  have hne : idPath (rootPath w) ≠ v := by
    rintro heq
    rw [heq] at hlt
    omega
  apply ht.trans
  constructor
  · rfl
  · simp only [FileSystem.mayOpen, FileSystem.makeDirectory, Function.update_of_ne hne]

theorem call_root {env : RootEnv} {w : Wide} (hname : ∀ m, env.name = .ok m → m.units = w)
    {c c' : RootCell} {r : Except Stop PathBuffer} (h : Once.call resolveRoot c env = (r, c'))
    (hc : Rooted w c) : Rooted w c' ∧
      (idPath (rootPath w) ≠ rootPath w → LeftAlone (idPath (rootPath w)) c.world c'.world) := by
  rcases Once.call_cases h with ⟨-, -, -, rfl⟩ | ⟨-, hattempt, hvalue⟩
  · exact ⟨hc, fun _ => ⟨rfl, rfl⟩⟩
  · refine ⟨?_, fun hid => resolveRoot_leftAlone hname hid hattempt⟩
    intro p hp
    cases r with
    | error e =>
      rw [hvalue] at hp
      cases hp
    | ok root =>
      rw [hvalue] at hp
      obtain rfl : root = p := Option.some.inj hp
      obtain ⟨m, hm, hview, hthere⟩ := resolveRoot_ok hattempt
      rw [hname m hm] at hview
      refine ⟨hview, fun hid => ?_⟩
      rw [hid, ← hview, FileSystem.mayOpen, hthere]
      simp

/-- How the ID is found: the root decides first, then the file, and the ID is minted at last. -/
theorem resolveId_cases {env : IdEnv} {c c' : RootCell} {r : Except Stop (Unsigned 8)}
    (h : resolveId env c = (r, c')) :
    (∃ e, Once.call resolveRoot c env.root = (.error e, c') ∧ r = .error .terminated) ∨
      ∃ root c₁, Once.call resolveRoot c env.root = (.ok root, c₁) ∧ c'.value = c₁.value ∧
        ((∃ v, readIdentity c₁.world (idPath root.view) env.read = some v ∧ r = .ok v ∧ c' = c₁) ∨
          readIdentity c₁.world (idPath root.view) env.read = none ∧
            ((∃ e, r = .error e ∧ c' = c₁) ∨
              ∃ fs v, mintIdentity env.memory c₁.world (idPath root.view) env.random env.write =
                .ok (fs, v) ∧ c'.world = fs ∧ ∀ u, r = .ok u → v = some u)) := by
  unfold resolveId at h
  split at h
  · rename_i e c₁ hroot
    obtain ⟨rfl, rfl⟩ := Prod.mk.inj h
    exact .inl ⟨e, hroot, rfl⟩
  · rename_i root c₁ hroot
    rw [identityFile_view] at h
    right
    refine ⟨root, c₁, hroot, ?_⟩
    split at h
    · rename_i v hread
      obtain ⟨rfl, rfl⟩ := Prod.mk.inj h
      exact ⟨rfl, .inl ⟨v, hread, rfl, rfl⟩⟩
    · rename_i hread
      split at h
      all_goals
        rename_i hmint
        obtain ⟨rfl, rfl⟩ := Prod.mk.inj h
        refine ⟨rfl, .inr ⟨hread, ?_⟩⟩
      · exact .inl ⟨_, rfl, rfl⟩
      · exact .inr ⟨_, _, hmint, rfl, fun u hu => congrArg some (Except.ok.inj hu)⟩
      · exact .inr ⟨_, _, hmint, rfl, fun u hu => (nomatch hu)⟩

/-- An ID that is found is recorded, in a file below the root. -/
theorem resolveId_recorded {env : IdEnv} {w : Wide} (hname : ∀ m, env.root.name = .ok m → m.units = w)
    {c c' : RootCell} {r : Except Stop (Unsigned 8)} (h : resolveId env c = (r, c'))
    (hc : Rooted w c) : Rooted w c' ∧ ∀ v, r = .ok v →
      v ≠ 0 ∧ idPath (rootPath w) ≠ rootPath w ∧ Recorded (idPath (rootPath w)) v c'.world := by
  rcases resolveId_cases h with ⟨e, hroot, rfl⟩ | ⟨root, c₁, hroot, hvalue, hrest⟩
  · exact ⟨(call_root hname hroot hc).1, fun v hv => (nomatch hv)⟩
  · have hc₁ := (call_root hname hroot hc).1
    obtain ⟨hview, hnone⟩ := hc₁ root (Once.value_of_call hroot)
    rw [hview] at hrest
    have hbelow (hmay : c₁.world.mayOpen (idPath (rootPath w)) = true) :
        idPath (rootPath w) ≠ rootPath w := by
      intro hid
      rw [hnone hid] at hmay
      cases hmay
    rcases hrest with ⟨v, hread, rfl, rfl⟩ | ⟨-, ⟨e, rfl, rfl⟩ | ⟨fs, v, hmint, hworld, hok⟩⟩
    · obtain ⟨hne, hrecorded⟩ := readIdentity_recorded hread
      refine ⟨hc₁, fun u hu => ?_⟩
      rw [← Except.ok.inj hu]
      exact ⟨hne, hbelow hrecorded.1, hrecorded⟩
    · exact ⟨hc₁, fun v hv => (nomatch hv)⟩
    · have hmay := mintIdentity_mayOpen hmint (idPath (rootPath w))
      constructor
      · intro p hp
        rw [hvalue] at hp
        obtain ⟨hp, hclosed⟩ := hc₁ p hp
        exact ⟨hp, fun hid => by rw [hworld, hmay, hclosed hid]⟩
      · rintro u hu
        rw [hok u hu] at hmint
        obtain ⟨hne, hrecorded⟩ := mintIdentity_recorded hmint
        rw [hworld]
        exact ⟨hne, hbelow (hmay ▸ hrecorded.1), hrecorded⟩

/-- Where an ID is recorded, no other is minted. -/
theorem resolveId_of_recorded {env : IdEnv} {w : Wide}
    (hname : ∀ m, env.root.name = .ok m → m.units = w) {c c' : RootCell}
    {r : Except Stop (Unsigned 8)} (h : resolveId env c = (r, c')) (hc : Rooted w c)
    (hid : idPath (rootPath w) ≠ rootPath w) {v : Unsigned 8}
    (hv : Recorded (idPath (rootPath w)) v c.world)
    (reads : ∀ data, c.world.files (idPath (rootPath w)) = some data → env.read.Reads data) :
    (r = .ok v ∨ r = .error .terminated) ∧ LeftAlone (idPath (rootPath w)) c.world c'.world := by
  rcases resolveId_cases h with ⟨e, hroot, rfl⟩ | ⟨root, c₁, hroot, -, hrest⟩
  · exact ⟨.inr rfl, (call_root hname hroot hc).2 hid⟩
  · obtain ⟨hc₁, halone⟩ := call_root hname hroot hc
    rw [(hc₁ root (Once.value_of_call hroot)).1] at hrest
    have hread : readIdentity c₁.world (idPath (rootPath w)) env.read = some v := by
      apply readIdentity_of_recorded (hv.leftAlone (halone hid))
      intro data hdata
      exact reads data (((halone hid).files).symm.trans hdata)
    rcases hrest with ⟨u, hu, rfl, rfl⟩ | ⟨hnone, -⟩
    · obtain rfl := Option.some.inj (hread.symm.trans hu)
      exact ⟨.inl rfl, halone hid⟩
    · rw [hread] at hnone
      cases hnone

/-- A process that finds its root answers the ID that is recorded. -/
theorem resolveId_reads {env : IdEnv} {fs : FileSystem} {m : ModuleName}
    (hname : env.root.name = .ok m) (hwhole : (rootOf env.root.garbage m).whole = true)
    (hdenied : ∀ v, env.root.denied v = none) (hroot : fs.files (rootPath m.units) = none)
    (hid : idPath (rootPath m.units) ≠ rootPath m.units) {v : Unsigned 8}
    (hv : Recorded (idPath (rootPath m.units)) v fs)
    (reads : ∀ data, fs.files (idPath (rootPath m.units)) = some data → env.read.Reads data) :
    ∃ c, resolveId env ⟨none, fs⟩ = (.ok v, c) ∧ c.world.files = fs.files ∧
      LeftAlone (idPath (rootPath m.units)) fs c.world := by
  obtain ⟨fs', hresolve, hfiles⟩ := resolveRoot_made hname hwhole hdenied hroot
  have hnames : ∀ m', env.root.name = .ok m' → m'.units = m.units := by
    intro m' hm'
    rw [← Except.ok.inj (hname.symm.trans hm')]
  have halone := resolveRoot_leftAlone hnames hid hresolve
  have hread : readIdentity fs' (identityFile (rootOf env.root.garbage m)).view env.read =
      some v := by
    rw [identityFile_view, rootOf_view hwhole]
    apply readIdentity_of_recorded (hv.leftAlone halone)
    intro data hdata
    exact reads data (halone.files.symm.trans hdata)
  have hcall : Once.call resolveRoot (⟨none, fs⟩ : RootCell) env.root =
      (.ok (rootOf env.root.garbage m), ⟨some (rootOf env.root.garbage m), fs'⟩) := by
    simp only [Once.call, hresolve]
  refine ⟨⟨some (rootOf env.root.garbage m), fs'⟩, ?_, hfiles, halone⟩
  simp only [resolveId, hcall, hread]

/-! ## Whole runs -/

namespace LocalState

/-- The module stays where it is, the file of the ID can be read where it is there, and nobody else
changes it. -/
def Undisturbed (w : Wide) (s : LocalState) : LocalInput → Prop
  | .root env => ∀ m, env.name = .ok m → m.units = w
  | .id env => (∀ m, env.root.name = .ok m → m.units = w) ∧
      ∀ data, s.files.files (idPath (rootPath w)) = some data → env.read.Reads data
  | .restart => True
  | .elsewhere fs => LeftAlone (idPath (rootPath w)) s.files fs

theorem step_cases {s t : LocalState} {input : LocalInput} {ev : List LocalEvent}
    (h : step s input = some (t, ev)) :
    (input = .restart ∧ t = start s.files ∧ ev = []) ∨
    (∃ fs, input = .elsewhere fs ∧ t.ids = ⟨s.ids.value, ⟨s.ids.world.value, fs⟩⟩ ∧ ev = []) ∨
    (∃ env r c, input = .root env ∧ Once.call resolveRoot s.ids.world env = (r, c) ∧
      t.ids = ⟨s.ids.value, c⟩ ∧ ev = [.root (r.map PathBuffer.view)]) ∨
    ∃ env r, input = .id env ∧ Once.call resolveId s.ids env = (r, t.ids) ∧ ev = [.id r] := by
  cases input with
  | restart =>
    obtain ⟨rfl, rfl⟩ := Prod.mk.inj (Option.some.inj h)
    exact .inl ⟨rfl, rfl, rfl⟩
  | elsewhere fs =>
    obtain ⟨rfl, rfl⟩ := Prod.mk.inj (Option.some.inj h)
    exact .inr (.inl ⟨fs, rfl, rfl, rfl⟩)
  | root env =>
    simp only [step] at h
    split_ifs at h
    obtain ⟨rfl, rfl⟩ := Prod.mk.inj (Option.some.inj h)
    exact .inr (.inr (.inl ⟨env, _, _, rfl, rfl, rfl, rfl⟩))
  | id env =>
    simp only [step] at h
    split_ifs at h
    split at h
    all_goals
      rename_i hcall
      obtain ⟨rfl, rfl⟩ := Prod.mk.inj (Option.some.inj h)
      exact .inr (.inr (.inr ⟨env, _, rfl, hcall, rfl⟩))

/-- What holds between the answers and the files. -/
structure Kept (w : Wide) (tr : List LocalEvent) (s : LocalState) : Prop where
  rooted : Rooted w s.ids.world
  roots : ∀ p, .root (.ok p) ∈ tr → p = rootPath w
  held : ∀ v, s.ids.value = some v → .id (.ok v) ∈ tr
  recorded : ∀ v, .id (.ok v) ∈ tr →
    v ≠ 0 ∧ idPath (rootPath w) ≠ rootPath w ∧ Recorded (idPath (rootPath w)) v s.files
  answers : ∀ a e b, tr = a ++ e :: b → ∀ r v, e = .id r → .id (.ok v) ∈ a →
    r = .ok v ∨ r = .error .terminated

theorem kept_start (w : Wide) (fs : FileSystem) : Kept w [] (start fs) where
  rooted := fun _ h => (nomatch h)
  roots := fun _ h => (nomatch h)
  held := fun _ h => (nomatch h)
  recorded := fun _ h => (nomatch h)
  answers := by simp

theorem Kept.of_quiet {w : Wide} {tr ev : List LocalEvent} {s t : LocalState} (h : Kept w tr s)
    (hrooted : Rooted w t.ids.world) (hquiet : ∀ r, .id r ∉ ev)
    (hroots : ∀ p, .root (.ok p) ∈ ev → p = rootPath w)
    (hheld : ∀ v, t.ids.value = some v → s.ids.value = some v)
    (halone : idPath (rootPath w) ≠ rootPath w → LeftAlone (idPath (rootPath w)) s.files t.files) :
    Kept w (tr ++ ev) t where
  rooted := hrooted
  roots p hp := (List.mem_append.mp hp).elim (h.roots p) (hroots p)
  held v hv := List.mem_append_left _ (h.held v (hheld v hv))
  recorded v hv := by
    rcases List.mem_append.mp hv with hv | hv
    · obtain ⟨hne, hid, hrecorded⟩ := h.recorded v hv
      exact ⟨hne, hid, hrecorded.leftAlone (halone hid)⟩
    · exact absurd hv (hquiet _)
  answers := by
    apply split_append h.answers
    rintro a e b rfl r v rfl
    exact absurd (List.mem_append_right a List.mem_cons_self) (hquiet r)

theorem kept_step {w : Wide} {tr ev : List LocalEvent} {s t : LocalState} {input : LocalInput}
    (h : Kept w tr s) (hok : Undisturbed w s input) (hstep : step s input = some (t, ev)) :
    Kept w (tr ++ ev) t := by
  rcases step_cases hstep with ⟨rfl, rfl, rfl⟩ | ⟨fs, rfl, ht, rfl⟩ |
    ⟨env, r, c, rfl, hcall, ht, rfl⟩ | ⟨env, r, rfl, hcall, rfl⟩
  · -- the next process knows nothing but the files
    apply h.of_quiet _ (by simp) (by simp)
    · intro v hv
      cases hv
    · exact fun _ => ⟨rfl, rfl⟩
    · intro p hp
      cases hp
  · apply h.of_quiet _ (by simp) (by simp)
    · exact fun v hv => by rwa [ht] at hv
    · intro _
      simp only [files, ht]
      exact hok
    · rw [ht]
      exact h.rooted.leftAlone hok
  · obtain ⟨hrooted, halone⟩ := call_root hok hcall h.rooted
    apply h.of_quiet _ (by simp)
    · intro p hp
      cases r with
      | error e => simp [Except.map] at hp
      | ok root =>
        have hp : p = root.view := by simpa [Except.map] using hp
        rw [hp]
        exact (hrooted root (Once.value_of_call hcall)).1
    · exact fun v hv => by rwa [ht] at hv
    · intro hid
      rw [files, files, ht]
      exact halone hid
    · rw [ht]
      exact hrooted
  · obtain ⟨hname, reads⟩ := hok
    have hspec : Rooted w t.ids.world ∧ (∀ v, r = .ok v → v ≠ 0 ∧
        idPath (rootPath w) ≠ rootPath w ∧ Recorded (idPath (rootPath w)) v t.files) ∧
        ∀ v, .id (.ok v) ∈ tr → (r = .ok v ∨ r = .error .terminated) ∧
          LeftAlone (idPath (rootPath w)) s.files t.files := by
      rcases Once.call_cases hcall with ⟨u, hu, rfl, ht⟩ | ⟨-, hattempt, -⟩
      · have hrecorded := h.recorded u (h.held u hu)
        rw [files, ht]
        refine ⟨h.rooted, fun v hv => ?_, fun v hv => ⟨.inl ?_, rfl, rfl⟩⟩
        · rw [← Except.ok.inj hv]
          exact hrecorded
        · rw [hrecorded.2.2.unique (h.recorded v hv).2.2]
      · obtain ⟨hrooted, hfound⟩ := resolveId_recorded hname hattempt h.rooted
        refine ⟨hrooted, hfound, fun v hv => ?_⟩
        obtain ⟨-, hid, hrecorded⟩ := h.recorded v hv
        exact resolveId_of_recorded hname hattempt h.rooted hid hrecorded reads
    obtain ⟨hrooted, hfound, hold⟩ := hspec
    refine ⟨hrooted, ?_, ?_, ?_, ?_⟩
    · intro p hp
      exact h.roots p (by simpa using hp)
    · intro v hv
      rcases Once.call_cases hcall with ⟨u, hu, rfl, ht⟩ | ⟨-, -, hvalue⟩
      · rw [ht] at hv
        exact List.mem_append_left _ (h.held v hv)
      · rw [hvalue] at hv
        cases r with
        | error e => cases hv
        | ok u =>
          obtain rfl : u = v := Option.some.inj hv
          exact List.mem_append_right _ List.mem_cons_self
    · intro v hv
      rcases List.mem_append.mp hv with hv | hv
      · obtain ⟨hne, hid, hrecorded⟩ := h.recorded v hv
        exact ⟨hne, hid, hrecorded.leftAlone (hold v hv).2⟩
      · obtain rfl : .ok v = r := by simpa using hv
        exact hfound v rfl
    · apply split_append h.answers
      rintro a e b hev r' v rfl hv
      cases a with
      | nil =>
        obtain rfl : r = r' := LocalEvent.id.inj (List.cons.inj hev).1
        exact (hold v (by simpa using hv)).1
      | cons e' a =>
        have hlength := congrArg List.length hev
        simp at hlength

/-- A player stays the same: once an ID was answered, every call after it answers that ID or ends its
process for want of a root, whatever comes between, and whatever processes end and are started. -/
theorem ids_kept {w : Wide} {fs : FileSystem} {tr : List LocalEvent} {s : LocalState}
    (h : Reaches step (Undisturbed w) (start fs) tr s) :
    (∀ p, .root (.ok p) ∈ tr → p = rootPath w) ∧ ∀ a v b, tr = a ++ .id (.ok v) :: b →
      v ≠ 0 ∧ Recorded (idPath (rootPath w)) v s.files ∧
        ∀ r, .id r ∈ b → r = .ok v ∨ r = .error .terminated := by
  have hkept : Kept w tr s := h.invariant (P := Kept w) (kept_start w fs)
    fun _ _ _ _ _ hkept hok hstep => kept_step hkept hok hstep
  refine ⟨hkept.roots, ?_⟩
  rintro a v b rfl
  obtain ⟨hne, -, hrecorded⟩ := hkept.recorded v (by simp)
  refine ⟨hne, hrecorded, fun r hr => ?_⟩
  obtain ⟨c, d, rfl⟩ := List.append_of_mem hr
  exact hkept.answers (a ++ .id (.ok v) :: c) (.id r) d (by simp) r v rfl (by simp)

theorem id_step {env : IdEnv} {fs : FileSystem} {v : Unsigned 8} {c : RootCell}
    (h : resolveId env ⟨none, fs⟩ = (.ok v, c)) :
    step (start fs) (.id env) = some (⟨⟨some v, c⟩, false⟩, [.id (.ok v)]) := by
  simp [step, start, Once.call, h]

def driveModule : ModuleName := ⟨wide "C:\\game.exe", by decide, by decide⟩

/-- Everything outside goes through. -/
def driveEnv : IdEnv where
  root := ⟨.ok driveModule, fun _ => none, ⟨0, none⟩, ⟨noughts, noughts_length⟩⟩
  read := {}
  random := none
  status := 0
  write := {}
  unwritten := ⟨0, none⟩
  memory := fun _ => 0

/-- The files of a player who was here before. -/
def driveFiles : FileSystem :=
  FileSystem.put ⟨fun _ => none, fun _ => false⟩ (wide "C:\\players\\identity") (ascii "0x1")

theorem ids_kept_restarted :
    ∃ s, (1 : Unsigned 8) ≠ 0 ∧ Recorded (idPath (rootPath driveModule.units)) 1 (files s) ∧
      ∀ r, LocalEvent.id r ∈ [LocalEvent.id (.ok 1)] → r = .ok 1 ∨ r = .error .terminated := by
  have hpath : idPath (rootPath driveModule.units) = wide "C:\\players\\identity" := by decide
  have hid : idPath (rootPath driveModule.units) ≠ rootPath driveModule.units := by decide
  have hmodule : driveEnv.root.name = .ok driveModule := rfl
  have hwhole : (rootOf driveEnv.root.garbage driveModule).whole = true := by decide
  have hname : ∀ m, driveEnv.root.name = .ok m → m.units = driveModule.units := by
    intro m hm
    rw [← Except.ok.inj hm]
  have hreads (fs : FileSystem) (hfs : fs.files = driveFiles.files) (data : Bytes)
      (hdata : fs.files (idPath (rootPath driveModule.units)) = some data) :
      driveEnv.read.Reads data := by
    rw [hfs, hpath, driveFiles, FileSystem.put_files_self] at hdata
    rw [← Option.some.inj hdata]
    exact ⟨rfl, rfl, by decide⟩
  have hrecorded : Recorded (idPath (rootPath driveModule.units)) 1 driveFiles := by
    refine ⟨by decide, ascii "0x1", ?_, by decide⟩
    rw [hpath, driveFiles, FileSystem.put_files_self]
  obtain ⟨c, hfirst, hfiles, halone⟩ := resolveId_reads hmodule hwhole
    (fun _ => rfl) (by decide) hid hrecorded (hreads driveFiles rfl)
  obtain ⟨c', hsecond, hfiles', -⟩ := resolveId_reads hmodule hwhole
    (fun _ => rfl) (by rw [hfiles]; decide) hid (hrecorded.leftAlone halone)
    (hreads c.world hfiles)
  have hok : Undisturbed driveModule.units (start driveFiles) (.id driveEnv) :=
    ⟨hname, hreads driveFiles rfl⟩
  have hok' : Undisturbed driveModule.units (start c.world) (.id driveEnv) :=
    ⟨hname, hreads c.world hfiles⟩
  have hanswer := Reaches.next .start hok (id_step hfirst)
  have hover : Undisturbed driveModule.units ⟨⟨some 1, c⟩, false⟩ .restart := trivial
  have hrestart := Reaches.next hanswer hover rfl
  have hagain := Reaches.next hrestart hok' (id_step hsecond)
  obtain ⟨-, hkept⟩ := ids_kept hagain
  exact ⟨_, hkept [] 1 [.id (.ok 1)] rfl⟩

end LocalState

end IW4x.Gdk
