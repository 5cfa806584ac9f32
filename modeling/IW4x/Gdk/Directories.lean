import IW4x.Hex.Digits
import IW4x.Gdk.PathBuffer

/-!
# Making directories

`create_directories` goes through a path from its second unit on and tries to make each directory on
the way before the path itself. It stops where it comes to the size of the path, which it never does
if that is zero.
-/

namespace IW4x.Gdk

open Unicode Hex

/-- What `GetFileAttributesW` answers says that there is a directory. -/
def isDirectoryMask (a : BitVec 32) : Bool := a ≠ 0xFFFFFFFF && a &&& 0x10 ≠ 0

def errorAlreadyExists : BitVec 32 := 183

/-- The calls of the file system that make directories. -/
structure DirectoryCalls (σ : Type) where
  /-- `CreateDirectoryW`, with what `GetLastError` answers where it fails. -/
  create : σ → Wide → σ × Option (BitVec 32)
  /-- `GetFileAttributesW`. -/
  attributes : σ → Wide → BitVec 32
  created : ∀ s p, (create s p).2 = none → isDirectoryMask (attributes (create s p).1 p) = true

variable {σ : Type} (calls : DirectoryCalls σ)

def makeDirectory (s : σ) (p : Wide) : σ × Bool :=
  match calls.create s p with
  | (s, none) => (s, true)
  | (s, some e) =>
    if e ≠ errorAlreadyExists then (s, false) else (s, isDirectoryMask (calls.attributes s p))

/-- How far `create_directories` has come: the file system, the strings that it tried to make and the
units of the path that it read. -/
structure Progress (σ : Type) where
  files : σ
  attempts : List Wide := []
  reads : List ℕ := []

/-- The loop of `create_directories`. It may not read past the end of the array. -/
def createLoop (p : PathBuffer) (i : ℕ) (w : PathBuffer) (g : Progress σ) :
    Except Contract (Progress σ) :=
  if i = p.size then .ok g
  else
    match _h : p.value[i]? with
    | none => .error .range
    | some u =>
      let g := { g with reads := g.reads ++ [i] }
      if u ≠ backslash ∧ u ≠ slash then createLoop p (i + 1) w g
      else
        let w := (w.clear.extendUnits (some (p.value.take i))).1
        let g := { g with reads := g.reads ++ List.range i }
        if w.size ≠ 0 ∧ w.value[w.size - 1]? ≠ some colon then
          createLoop p (i + 1) w
            { g with
              files := (makeDirectory calls g.files (wideString w.value)).1
              attempts := g.attempts ++ [wideString w.value] }
        else createLoop p (i + 1) w g
termination_by 512 - i
decreasing_by
  all_goals
    have hlt := (List.getElem?_eq_some_iff.mp _h).1
    rw [p.room] at hlt
    omega

/-- `create_directories`; its own path lies in memory that may hold anything. -/
def createDirectories (s : σ) (p : PathBuffer) (garbage : Wide) (h : garbage.length = 512) :
    Except Contract (Progress σ × Bool) := do
  let g ← createLoop calls p 1 (.empty garbage h) { files := s }
  let r := makeDirectory calls g.files (wideString p.value)
  return ({ g with files := r.1, attempts := g.attempts ++ [wideString p.value] }, r.2)

/-- The proper prefix of the length ends just before a separator, and not in a colon. -/
def isAncestor (v : Wide) (i : ℕ) : Bool :=
  (v[i]? = some backslash || v[i]? = some slash) && v[i - 1]? ≠ some colon

/-- The proper prefixes, none of them empty, that are directories on the way, from the length on. -/
def ancestorsFrom (v : Wide) (i : ℕ) : List Wide :=
  ((List.range' i (v.length - i)).filter (isAncestor v)).map fun i => v.take i

/-- The path is made with all that is on the way to it, parents first. -/
def Creates (s : σ) (p : PathBuffer) (garbage : Wide) (h : garbage.length = 512) : Prop :=
  ∃ g r, createDirectories calls s p garbage h = .ok (g, r) ∧ (∀ j ∈ g.reads, j < p.size) ∧
    g.attempts = ancestorsFrom p.view 1 ++ [p.view] ∧
    (r = true → isDirectoryMask (calls.attributes g.files p.view) = true)

/-! ## The strings that are passed on -/

theorem wideString_value (p : PathBuffer) : wideString p.value = wideString p.view := by
  have hsplit : p.value = p.view ++ 0 :: p.value.drop (p.size + 1) := by
    have hlt := (List.getElem?_eq_some_iff.mp p.ended).1
    have hzero := (List.getElem?_eq_some_iff.mp p.ended).2
    rw [PathBuffer.view, ← hzero, List.cons_getElem_drop_succ, List.take_append_drop]
  conv_lhs => rw [hsplit]
  rw [wideString, List.takeWhile_append]
  split_ifs with hall
  · rw [List.takeWhile_cons_of_neg (by simp), List.append_nil]
    exact ((List.takeWhile_prefix _).eq_of_length hall).symm
  · rfl

theorem wideString_eq_self {v : Wide} : wideString v = v ↔ 0 ∉ v := by
  rw [wideString, List.takeWhile_eq_self_iff]
  constructor
  · intro h hzero
    simpa using h 0 hzero
  · intro h x hx
    have hne : x ≠ 0 := fun hzero => h (hzero ▸ hx)
    simpa using hne

theorem value_unit (p : PathBuffer) {i : ℕ} (hi : i < p.size) : p.value[i]? = p.view[i]? := by
  rw [PathBuffer.view, List.getElem?_take_of_lt hi]

theorem prefix_view (p w : PathBuffer) {i : ℕ} (hi : i ≤ p.size) :
    (w.clear.extendUnits (some (p.value.take i))).1.view = p.view.take i := by
  have hfits := p.fits
  have hsize : w.clear.size = 0 := rfl
  rw [PathBuffer.extendUnits_view, PathBuffer.clear_view, hsize, List.nil_append, PathBuffer.view,
    List.take_take, List.take_take, Nat.min_eq_left hi, Nat.min_eq_right (by omega)]

variable {calls}

theorem makeDirectory_true {s : σ} {p : Wide} (h : (makeDirectory calls s p).2 = true) :
    isDirectoryMask (calls.attributes (makeDirectory calls s p).1 p) = true := by
  have hcreated := calls.created s p
  rw [makeDirectory] at h ⊢
  generalize calls.create s p = c at h hcreated ⊢
  obtain ⟨s', e⟩ := c
  cases e with
  | none => exact hcreated rfl
  | some e =>
    dsimp only at h ⊢
    split_ifs at h ⊢ with he
    exact h

/-! ## The loop -/

theorem ancestorsFrom_of_le {v : Wide} {i : ℕ} (h : v.length ≤ i) : ancestorsFrom v i = [] := by
  rw [ancestorsFrom, Nat.sub_eq_zero_of_le h]
  rfl

theorem ancestorsFrom_of_lt {v : Wide} {i : ℕ} (h : i < v.length) :
    ancestorsFrom v i =
      (if isAncestor v i = true then [v.take i] else []) ++ ancestorsFrom v (i + 1) := by
  rw [ancestorsFrom, show v.length - i = v.length - (i + 1) + 1 by omega, List.range'_succ,
    List.filter_cons]
  split_ifs <;> rfl

/-- From any unit of the path on, the loop comes to its end and has tried what is on the way. -/
theorem createLoop_attempts (calls : DirectoryCalls σ) (p : PathBuffer) {i : ℕ} (hpos : 0 < i)
    (hi : i ≤ p.size) (w : PathBuffer) (g : Progress σ) :
    ∃ g', createLoop calls p i w g = .ok g' ∧
      g'.attempts = g.attempts ++ (ancestorsFrom p.view i).map wideString ∧
      ∀ j ∈ g'.reads, j ∈ g.reads ∨ j < p.size := by
  have hlength := p.view_length
  induction hn : p.size - i generalizing i w g with
  | zero =>
    obtain rfl : i = p.size := by omega
    rw [createLoop, if_pos rfl, ancestorsFrom_of_le (by omega)]
    exact ⟨g, rfl, by simp, fun _ hj => .inl hj⟩
  | succ n ih =>
    have hlt : i < p.size := by omega
    have hnext : p.size - (i + 1) = n := by omega
    have hview := prefix_view p w hi
    have hsize := (w.clear.extendUnits (some (p.value.take i))).1.view_length
    have hlast := value_unit (w.clear.extendUnits (some (p.value.take i))).1 (i := i - 1)
    have hstring := wideString_value (w.clear.extendUnits (some (p.value.take i))).1
    rw [hview, List.length_take, hlength, Nat.min_eq_left hi] at hsize
    rw [hview, ← hsize, List.getElem?_take_of_lt (by omega)] at hlast
    rw [hview] at hstring
    rw [createLoop, if_neg (by omega), ancestorsFrom_of_lt (by omega)]
    split
    · next hnone =>
      rw [value_unit p hlt, List.getElem?_eq_none_iff] at hnone
      omega
    next u hu =>
    rw [value_unit p hlt] at hu
    have hread {g' : Progress σ} {js : List ℕ} (hjs : ∀ j ∈ js, j ≤ i)
        (h : ∀ j ∈ g'.reads, j ∈ g.reads ++ js ∨ j < p.size) :
        ∀ j ∈ g'.reads, j ∈ g.reads ∨ j < p.size := by
      intro j hj
      rcases h j hj with hj | hj
      · rcases List.mem_append.mp hj with hj | hj
        · exact .inl hj
        · exact .inr (lt_of_le_of_lt (hjs j hj) hlt)
      · exact .inr hj
    have hbelow : ∀ j ∈ [i] ++ List.range i, j ≤ i := by
      intro j hj
      rw [List.mem_append, List.mem_singleton, List.mem_range] at hj
      omega
    by_cases hsep : u ≠ backslash ∧ u ≠ slash
    · have hnot : ¬ isAncestor p.view i = true := by simp [isAncestor, hu, hsep]
      rw [if_pos hsep, if_neg hnot, List.nil_append]
      obtain ⟨g', hloop, hattempts, hreads⟩ := ih (Nat.succ_pos i) hlt w
        { g with reads := g.reads ++ [i] } hnext
      exact ⟨g', hloop, hattempts, hread (by simp) hreads⟩
    · have hsepTrue : u = backslash ∨ u = slash := by
        by_contra hnot
        exact hsep (not_or.mp hnot)
      rw [if_neg hsep]
      dsimp only
      generalize (w.clear.extendUnits (some (p.value.take i))).1 = w' at hview hsize hlast hstring
      rw [← hsize, hlast (by omega), List.append_assoc]
      by_cases hcolon : p.view[i - 1]? ≠ some colon
      · have hancestor : isAncestor p.view i = true := by
          rcases hsepTrue with rfl | rfl <;> simp [isAncestor, hu, hcolon]
        rw [if_pos ⟨by omega, hcolon⟩, if_pos hancestor, hstring]
        obtain ⟨g', hloop, hattempts, hreads⟩ := ih (Nat.succ_pos i) hlt w'
          { files := (makeDirectory calls g.files (wideString (p.view.take i))).1
            attempts := g.attempts ++ [wideString (p.view.take i)]
            reads := g.reads ++ ([i] ++ List.range i) } hnext
        exact ⟨g', hloop, by simpa using hattempts, hread hbelow hreads⟩
      · have hnot : ¬ isAncestor p.view i = true := by
          rw [not_not] at hcolon
          simp [isAncestor, hcolon]
        rw [if_neg (fun h => hcolon h.2), if_neg hnot, List.nil_append]
        obtain ⟨g', hloop, hattempts, hreads⟩ := ih (Nat.succ_pos i) hlt w'
          { g with reads := g.reads ++ ([i] ++ List.range i) } hnext
        exact ⟨g', hloop, hattempts, hread hbelow hreads⟩

/-- On a path that is empty the loop goes on to the end of the array. -/
theorem createLoop_empty {p : PathBuffer} (hp : p.size = 0) {i : ℕ} (hpos : 0 < i) (w : PathBuffer)
    (g : Progress σ) : createLoop calls p i w g = .error .range := by
  induction hn : 512 - i generalizing i w g with
  | zero =>
    have hnone : p.value[i]? = none := by
      rw [List.getElem?_eq_none_iff, p.room]
      omega
    rw [createLoop, if_neg (by omega)]
    split
    · rfl
    · next u hu =>
      rw [hnone] at hu
      exact absurd hu (by simp)
  | succ n ih =>
    have hnext : 512 - (i + 1) = n := by omega
    rw [createLoop, if_neg (by omega)]
    split
    · rfl
    · dsimp only
      split_ifs
      · exact ih (Nat.succ_pos i) _ _ hnext
      · exact ih (Nat.succ_pos i) _ _ hnext
      · exact ih (Nat.succ_pos i) _ _ hnext

theorem not_creates_empty {s : σ} {p : PathBuffer} (hp : p.size = 0) (garbage : Wide)
    (h : garbage.length = 512) : ¬ Creates calls s p garbage h := by
  rintro ⟨g, r, hcreate, -⟩
  rw [createDirectories, createLoop_empty hp (by norm_num)] at hcreate
  exact absurd hcreate (by simp [bind, Except.bind])

/-- A path is made with all that is on the way to it just if it is not empty and no unit of it ends
its strings early. -/
theorem creates_iff (calls : DirectoryCalls σ) (s : σ) (p : PathBuffer) (garbage : Wide)
    (h : garbage.length = 512) :
    Creates calls s p garbage h ↔ p.view ≠ [] ∧ 0 ∉ p.view := by
  have hlength := p.view_length
  rcases Nat.eq_zero_or_pos p.size with hzero | hpos
  · have hnil : p.view = [] := List.length_eq_zero_iff.mp (by omega)
    constructor
    · intro hcreates
      exact absurd hcreates (not_creates_empty hzero garbage h)
    · rintro ⟨hne, -⟩
      exact absurd hnil hne
  · have hne : p.view ≠ [] := fun hnil => by simp [hnil] at hlength; omega
    obtain ⟨g, hloop, hattempts, hreads⟩ := createLoop_attempts calls p (i := 1)
      (by norm_num) hpos (.empty garbage h) { files := s }
    have hcreate : createDirectories calls s p garbage h =
        .ok ({ g with
          files := (makeDirectory calls g.files (wideString p.view)).1
          attempts := g.attempts ++ [wideString p.view] },
          (makeDirectory calls g.files (wideString p.view)).2) := by
      rw [createDirectories, hloop, wideString_value]
      rfl
    rw [List.nil_append] at hattempts
    simp only [hne, ne_eq, not_false_eq_true, true_and]
    constructor
    · rintro ⟨g', r, hcreate', -, hmade, -⟩
      obtain ⟨rfl, -⟩ := Prod.mk.inj (Except.ok.inj (hcreate.symm.trans hcreate'))
      obtain ⟨-, hlast⟩ := List.append_inj' hmade rfl
      exact wideString_eq_self.mp (List.cons.inj hlast).1
    · intro hplain
      have hself : wideString p.view = p.view := wideString_eq_self.mpr hplain
      have hprefixes : (ancestorsFrom p.view 1).map wideString = ancestorsFrom p.view 1 := by
        rw [List.map_congr_left (g := id), List.map_id]
        intro v hv
        obtain ⟨i, -, rfl⟩ := List.mem_map.mp hv
        exact wideString_eq_self.mpr fun hzero => hplain (List.mem_of_mem_take hzero)
      refine ⟨_, _, hcreate, ?_, ?_, ?_⟩
      · intro j hj
        rcases hreads j hj with hj | hj
        · cases hj
        · exact hj
      · rw [hself, hattempts, hprefixes]
      · rw [hself]
        exact makeDirectory_true

def fileCalls : DirectoryCalls FileSystem where
  create fs p :=
    if fs.directory p then (fs, some errorAlreadyExists) else (fs.makeDirectory p, none)
  attributes fs p := if fs.directory p then 0x10 else 0xFFFFFFFF
  created fs p h := by
    by_cases hp : fs.directory p = true
    · simp [hp] at h
    · simp only [hp, if_false, FileSystem.makeDirectory, Bool.false_eq_true, Function.update_self,
        if_true]
      decide

/-- An array that holds nothing but noughts. -/
def noughts : Wide := List.replicate 512 0

theorem noughts_length : noughts.length = 512 := List.length_replicate

theorem creates_iff_drive :
    Creates fileCalls ⟨fun _ => none, fun _ => false⟩
      ((PathBuffer.empty noughts noughts_length).extend (some (wide "C:\\a\\b"))).1 noughts
      noughts_length := by
  rw [creates_iff]
  decide

/-- The empty path is never done. -/
theorem creates_fails_empty :
    ¬ Creates fileCalls ⟨fun _ => none, fun _ => false⟩ (PathBuffer.empty noughts noughts_length)
      noughts noughts_length :=
  not_creates_empty rfl noughts noughts_length

end IW4x.Gdk
