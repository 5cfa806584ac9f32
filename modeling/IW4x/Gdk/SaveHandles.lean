import IW4x.Gdk.AsyncThreads
import IW4x.Gdk.BlobNames
import IW4x.Lib.Runs

/-!
# The handles of the game saves

Containers and updates are items of two pools, and a handle is the address of an item. An item that
is closed is cleared and handed out again. An update points to the item of its container; only when
it is submitted is the location read there, and its blobs are moved into the operation.

The fields `queued`, `home` and `born` of an update, `home` of an operation and `closings` are not in
the source and nothing reads them. They tell what the caller has queued, the location of the
container when the update was created, and whether its handle was closed since.
-/

namespace IW4x.Gdk

open Unicode Runs

/-! ## Pools -/

structure HandlePool (α : Type) (n : ℕ) where
  items : Fin n → α
  used : Fin n → Bool

namespace HandlePool

variable {α : Type} {n : ℕ}

def start (zero : α) : HandlePool α n := ⟨fun _ => zero, fun _ => false⟩

/-- `open`. -/
def openItem (zero : α) (p : HandlePool α n) : Option (Fin n × HandlePool α n) :=
  match (List.finRange n).find? fun i => !p.used i with
  | none => none
  | some i => some (i, ⟨Function.update p.items i zero, Function.update p.used i true⟩)

/-- `lookup`, up to the item. A handle is the address of an item, or some other address. -/
def lookup (p : HandlePool α n) (h : Option (Fin n)) : Option (Fin n) := h.filter p.used

/-- `close`. -/
def closeItem (zero : α) (p : HandlePool α n) (h : Option (Fin n)) : HandlePool α n :=
  match p.lookup h with
  | none => p
  | some i => ⟨Function.update p.items i zero, Function.update p.used i false⟩

def set (p : HandlePool α n) (i : Fin n) (x : α) : HandlePool α n :=
  { p with items := Function.update p.items i x }

@[simp] theorem set_items_self (p : HandlePool α n) (i : Fin n) (x : α) : (p.set i x).items i = x :=
  Function.update_self ..

theorem set_set (p : HandlePool α n) (i : Fin n) (x y : α) : (p.set i x).set i y = p.set i y := by
  simp [set]

theorem openItem_eq_some {zero : α} {p q : HandlePool α n} {i : Fin n}
    (h : p.openItem zero = some (i, q)) : p.used i = false ∧
      q = ⟨Function.update p.items i zero, Function.update p.used i true⟩ := by
  unfold openItem at h
  split at h
  · cases h
  · rename_i j hfree
    obtain ⟨rfl, rfl⟩ := Prod.mk.inj (Option.some.inj h)
    have := List.find?_some hfree
    exact ⟨by simpa using this, rfl⟩

theorem lookup_eq_some {p : HandlePool α n} {h : Option (Fin n)} {i : Fin n}
    (hi : p.lookup h = some i) : p.used i = true := by
  obtain ⟨-, hused⟩ := Option.filter_eq_some_iff.mp hi
  exact hused

theorem closeItem_cases (zero : α) (p : HandlePool α n) (h : Option (Fin n)) :
    p.lookup h = none ∧ p.closeItem zero h = p ∨
      ∃ i, p.lookup h = some i ∧
        p.closeItem zero h =
          ⟨Function.update p.items i zero, Function.update p.used i false⟩ := by
  unfold closeItem
  cases hi : p.lookup h with
  | none => exact .inl ⟨rfl, rfl⟩
  | some i => exact .inr ⟨i, rfl, rfl⟩

end HandlePool

/-! ## Containers and updates -/

instance containers_ne_zero : NeZero maxContainers := ⟨by decide⟩

instance updates_ne_zero : NeZero maxUpdates := ⟨by decide⟩

structure SaveContainer where
  location : Path
  name : Bytes

/-- `save_container ()`. -/
def SaveContainer.zero : SaveContainer := ⟨.empty, []⟩

structure SaveUpdate where
  /-- The item of the container. -/
  target : Option (Fin maxContainers)
  /-- The first `count` of the writes. -/
  writes : List PendingWrite
  queued : List PendingWrite
  home : Path
  born : ℕ

/-- `save_update ()`. -/
def SaveUpdate.zero : SaveUpdate := ⟨none, [], [], .empty, 0⟩

structure SubmitOperation where
  location : Path
  writes : List PendingWrite
  home : Path

inductive SaveOperation where
  | submit (o : SubmitOperation)
  | other

def PendingWrite.moved (w : PendingWrite) : PendingWrite := { w with data := [] }

structure SaveHandles where
  /-- The root of the provider. -/
  root : Path
  containers : HandlePool SaveContainer maxContainers
  updates : HandlePool SaveUpdate maxUpdates
  /-- The operations that were begun and have not been performed. -/
  submitted : List SubmitOperation
  files : FileSystem
  closings : Fin maxContainers → ℕ

def submitId : ℕ := 1

/-- What `begin` answers; the answers other than `S_OK` it raises. -/
def begun {Op : Type} : Outcome Op → Option HResult
  | .ended _ => none
  | .next _ new _ =>
    match new.getLast? with
    | some (.returns _ (.code hr)) => some hr
    | _ => none

namespace SaveHandles

variable (skip : Bytes → ℕ) (s : SaveHandles)

def start (root : Path) (files : FileSystem) : SaveHandles where
  root := root
  containers := .start .zero
  updates := .start .zero
  submitted := []
  files := files
  closings := fun _ => 0

/-- `create_container`. The directories are made, or the error is raised; `provider` says whether the
provider is ours and `out` whether there is a result pointer. -/
def createContainer (provider : Bool) (n : Bytes) (denied : Option HResult) (out : Bool) :
    SaveHandles × HResult :=
  if storable n = false ∨ provider = false then (s, E_INVALIDARG)
  else
    let location := s.root.append skip n
    if location.whole = false then (s, E_FAIL)
    else match denied with
      | some hr => (s, hr)
      | none =>
        let s := { s with files := s.files.makeDirectory location.value }
        match s.containers.openItem .zero with
        | none => (s, E_OUTOFMEMORY)
        | some (c, p) =>
          ({ s with containers := p.set c ⟨location, text blobNameCapacity n⟩ },
            if out then S_OK else E_POINTER)

def closeContainer (c : Option (Fin maxContainers)) : SaveHandles :=
  { s with
    containers := s.containers.closeItem .zero c
    closings := match s.containers.lookup c with
      | none => s.closings
      | some i => Function.update s.closings i (s.closings i + 1) }

def createUpdate (c : Option (Fin maxContainers)) (out : Bool) : SaveHandles × HResult :=
  match s.containers.lookup c with
  | none => (s, E_INVALIDARG)
  | some i =>
    match s.updates.openItem .zero with
    | none => (s, E_OUTOFMEMORY)
    | some (u, p) =>
      ({ s with updates := p.set u { SaveUpdate.zero with
          target := some i
          home := (s.containers.items i).location
          born := s.closings i } },
        if out then S_OK else E_POINTER)

def closeUpdate (u : Option (Fin maxUpdates)) : SaveHandles :=
  { s with updates := s.updates.closeItem .zero u }

/-- `submit_blob_write`; the data is missing where there is a size and no data. -/
def submitBlobWrite (u : Option (Fin maxUpdates)) (n : Bytes) (data : Option Bytes)
    (alloc : Bool) : SaveHandles × HResult :=
  match s.updates.lookup u with
  | none => (s, E_INVALIDARG)
  | some i =>
    let t := s.updates.items i
    if h : storable n = true then
      match data with
      | none => (s, E_POINTER)
      | some data =>
        if t.writes.length = maxBlobWrites then (s, E_OUTOFMEMORY)
        else if data ≠ [] ∧ alloc = false then (s, E_OUTOFMEMORY)
        else
          let w := PendingWrite.of n data h
          let t := { t with writes := t.writes ++ [w], queued := t.queued ++ [w] }
          ({ s with updates := s.updates.set i t }, S_OK)
    else (s, E_INVALIDARG)

/-- The operation that is constructed for an update, before the data is moved. -/
def operation (i : Fin maxUpdates) (c : Fin maxContainers) : SubmitOperation :=
  let t := s.updates.items i
  ⟨(s.containers.items c).location, t.writes, t.home⟩

/-- `submit_update_async`, for the block and what `begin` finds; `alloc` says whether the operation
could be allocated. There is no answer where the process ends. The source forgets the writes only
once `begin` has returned; what an immediate port calls inside `begin`, or another thread before
that, does not come in between here. -/
def submitUpdateAsync (u : Option (Fin maxUpdates)) (b : Option BlockId) (m : Memory SaveOperation)
    (e : Env) (alloc : Bool) : Option (SaveHandles × HResult) :=
  match s.updates.lookup u with
  | none => some (s, E_INVALIDARG)
  | some i =>
    let t := s.updates.items i
    match t.target with
    | none => some (s, E_INVALIDARG)
    | some c =>
      if alloc = false then some (s, E_UNEXPECTED)
      else
        -- the constructor moves the data of the writes
        let o := s.operation i c
        let s := { s with
          updates := s.updates.set i { t with writes := t.writes.map PendingWrite.moved } }
        match begun (m.begin e b submitId (.submit o)) with
        | none => none
        | some hr =>
          if hr = S_OK then
            some ({ s with
              updates := s.updates.set i { t with writes := [], queued := [] }
              submitted := s.submitted ++ [o] }, S_OK)
          else some (s, hr)

/-- `submit_operation::work` of an operation that was begun. -/
def perform (k : ℕ) (e : ℕ → BlobEnv) : Option (SaveHandles × List (Path × FileEvent)) :=
  match s.submitted[k]? with
  | none => none
  | some o =>
    let r := work skip o.location s.files (o.writes.zipIdx.map fun x => (x.1, e x.2))
    some ({ s with files := r.files, submitted := s.submitted.eraseIdx k },
      r.events.map fun x => (o.home, x))

end SaveHandles

/-- A call of the interface, or an operation is performed, or canceled. -/
inductive SaveCall where
  /-- `initialize_operation::work` sets the root. -/
  | setRoot (root : Path)
  | createContainer (provider : Bool) (n : Bytes) (denied : Option HResult) (out : Bool)
  | closeContainer (c : Option (Fin maxContainers))
  | createUpdate (c : Option (Fin maxContainers)) (out : Bool)
  | closeUpdate (u : Option (Fin maxUpdates))
  | submitBlobWrite (u : Option (Fin maxUpdates)) (n : Bytes) (data : Option Bytes) (alloc : Bool)
  | submitUpdateAsync (u : Option (Fin maxUpdates)) (b : Option BlockId) (m : Memory SaveOperation)
    (e : Env) (alloc : Bool)
  | perform (k : ℕ) (e : ℕ → BlobEnv)
  | cancel (k : ℕ)

inductive SaveEvent where
  | returned (hr : HResult)
  /-- What was done to the files for an update that was created in this location. -/
  | file (home : Path) (x : FileEvent)

def SaveHandles.step (skip : Bytes → ℕ) : Step SaveHandles SaveCall SaveEvent
  | s, .setRoot root => some ({ s with root := root }, [])
  | s, .createContainer provider n denied out =>
    let r := s.createContainer skip provider n denied out
    some (r.1, [.returned r.2])
  | s, .closeContainer c => some (s.closeContainer c, [])
  | s, .createUpdate c out =>
    let r := s.createUpdate c out
    some (r.1, [.returned r.2])
  | s, .closeUpdate u => some (s.closeUpdate u, [])
  | s, .submitBlobWrite u n data alloc =>
    let r := s.submitBlobWrite u n data alloc
    some (r.1, [.returned r.2])
  | s, .submitUpdateAsync u b m e alloc =>
    (s.submitUpdateAsync u b m e alloc).map fun r => (r.1, [.returned r.2])
  | s, .perform k e => (s.perform skip k e).map fun r => (r.1, r.2.map fun x => .file x.1 x.2)
  | s, .cancel k => some ({ s with submitted := s.submitted.eraseIdx k }, [])

/-! ## What the calls do -/

namespace SaveHandles

variable (skip : Bytes → ℕ) (s : SaveHandles)

/-- A container is made or not; and there may be a directory and no handle for it. -/
theorem createContainer_cases (provider : Bool) (n : Bytes) (denied : Option HResult) (out : Bool) :
    (s.createContainer skip provider n denied out).1 = s ∨
      ∃ location : Path, (s.createContainer skip provider n denied out).1 =
          { s with files := s.files.makeDirectory location.value } ∨
        ∃ c p, s.containers.openItem .zero = some (c, p) ∧
          (s.createContainer skip provider n denied out).1 = { s with
            files := s.files.makeDirectory location.value
            containers := p.set c ⟨location, text blobNameCapacity n⟩ } := by
  unfold createContainer
  by_cases harguments : storable n = false ∨ provider = false
  · exact .inl (by rw [if_pos harguments])
  · rw [if_neg harguments]
    dsimp only
    by_cases hwhole : (s.root.append skip n).whole = false
    · exact .inl (by rw [if_pos hwhole])
    · rw [if_neg hwhole]
      split
      · exact .inl rfl
      · refine .inr ⟨s.root.append skip n, ?_⟩
        split
        · exact .inl rfl
        · rename_i c p hopen
          exact .inr ⟨c, p, hopen, rfl⟩

theorem createUpdate_cases (c : Option (Fin maxContainers)) (out : Bool) :
    (s.createUpdate c out).1 = s ∨
      ∃ i u p, s.containers.lookup c = some i ∧ s.updates.openItem .zero = some (u, p) ∧
        (s.createUpdate c out).1 = { s with updates := p.set u { SaveUpdate.zero with
          target := some i
          home := (s.containers.items i).location
          born := s.closings i } } := by
  unfold createUpdate
  split
  · exact .inl rfl
  · rename_i i hlookup
    split
    · exact .inl rfl
    · rename_i u p hopen
      exact .inr ⟨i, u, p, hlookup, hopen, rfl⟩

theorem submitBlobWrite_cases (u : Option (Fin maxUpdates)) (n : Bytes) (data : Option Bytes)
    (alloc : Bool) : (s.submitBlobWrite u n data alloc).1 = s ∨
      ∃ i w, (s.submitBlobWrite u n data alloc).1 = { s with
        updates := s.updates.set i { s.updates.items i with
          writes := (s.updates.items i).writes ++ [w]
          queued := (s.updates.items i).queued ++ [w] } } := by
  unfold submitBlobWrite
  split
  · exact .inl rfl
  · rename_i i hlookup
    by_cases hname : storable n = true
    · rw [dif_pos hname]
      cases data with
      | none => exact .inl rfl
      | some data =>
        dsimp only
        by_cases hcount : (s.updates.items i).writes.length = maxBlobWrites
        · exact .inl (by rw [if_pos hcount])
        · rw [if_neg hcount]
          by_cases halloc : data ≠ [] ∧ alloc = false
          · exact .inl (by rw [if_pos halloc])
          · exact .inr ⟨i, .of n data hname, by rw [if_neg halloc]⟩
    · exact .inl (by rw [dif_neg hname])

theorem perform_eq_some {k : ℕ} {e : ℕ → BlobEnv} {r : SaveHandles × List (Path × FileEvent)}
    (h : s.perform skip k e = some r) : ∃ o ws, s.submitted[k]? = some o ∧
      r = ({ s with
          files := (work skip o.location s.files ws).files
          submitted := s.submitted.eraseIdx k },
        (work skip o.location s.files ws).events.map fun x => (o.home, x)) := by
  unfold perform at h
  split at h
  · cases h
  · rename_i o ho
    exact ⟨o, _, ho, (Option.some.inj h).symm⟩

end SaveHandles

/-- `begin` answers `S_OK` or an error. -/
theorem failed_of_begun {Op : Type} {m : Memory Op} {e : Env} {b : Option BlockId} {id : ℕ} {o : Op}
    {hr : HResult} (h : begun (m.begin e b id o) = some hr) : hr = S_OK ∨ failed hr = true := by
  unfold Memory.begin at h
  cases b with
  | none =>
    obtain rfl := Option.some.inj h
    exact .inr (by decide)
  | some a =>
    simp only at h
    split at h
    · cases h
    · split at h
      · obtain rfl := Option.some.inj h
        exact .inr (by decide)
      · split at h
        · cases h
        · split at h
          · cases h
          · exact .inl (Option.some.inj h).symm
          · exact .inl (Option.some.inj h).symm
          · obtain rfl := Option.some.inj h
            exact .inr (by decide)

/-- The cases of a submission: the handle is not of an update, it fails before the blobs are moved,
`begin` raises after that, or the operation is begun. -/
inductive SubmitCases (s : SaveHandles) (u : Option (Fin maxUpdates)) (b : Option BlockId)
    (m : Memory SaveOperation) (e : Env) (alloc : Bool) : SaveHandles × HResult → Prop
  | unknown (h : s.updates.lookup u = none) : SubmitCases s u b m e alloc (s, E_INVALIDARG)
  | early {i hr} (h : s.updates.lookup u = some i)
      (early : (s.updates.items i).target = none ∨ alloc = false) (fails : failed hr = true) :
      SubmitCases s u b m e alloc (s, hr)
  | refused {i c hr} (h : s.updates.lookup u = some i)
      (target : (s.updates.items i).target = some c) (room : alloc = true)
      (raises : begun (m.begin e b submitId (.submit (s.operation i c))) = some hr)
      (fails : failed hr = true) :
      SubmitCases s u b m e alloc ({ s with
        updates := s.updates.set i { s.updates.items i with
          writes := (s.updates.items i).writes.map PendingWrite.moved } }, hr)
  | submitted {i c} (h : s.updates.lookup u = some i)
      (target : (s.updates.items i).target = some c) (room : alloc = true)
      (begins : begun (m.begin e b submitId (.submit (s.operation i c))) = some S_OK) :
      SubmitCases s u b m e alloc ({ s with
        updates := s.updates.set i { s.updates.items i with writes := [], queued := [] }
        submitted := s.submitted ++ [s.operation i c] }, S_OK)

theorem submitUpdateAsync_cases {s t : SaveHandles} {u : Option (Fin maxUpdates)}
    {b : Option BlockId} {m : Memory SaveOperation} {e : Env} {alloc : Bool} {hr : HResult}
    (h : s.submitUpdateAsync u b m e alloc = some (t, hr)) :
    SubmitCases s u b m e alloc (t, hr) := by
  unfold SaveHandles.submitUpdateAsync at h
  split at h
  · rename_i hlookup
    obtain ⟨rfl, rfl⟩ := Prod.mk.inj (Option.some.inj h)
    exact .unknown hlookup
  · rename_i i hlookup
    dsimp only at h
    split at h
    · rename_i htarget
      obtain ⟨rfl, rfl⟩ := Prod.mk.inj (Option.some.inj h)
      exact .early hlookup (.inl htarget) (by decide)
    · rename_i c htarget
      by_cases hroom : alloc = false
      · rw [if_pos hroom] at h
        obtain ⟨rfl, rfl⟩ := Prod.mk.inj (Option.some.inj h)
        exact .early hlookup (.inr hroom) (by decide)
      · rw [if_neg hroom] at h
        split at h
        · cases h
        · rename_i code hbegun
          split_ifs at h with hok
          · obtain ⟨rfl, rfl⟩ := Prod.mk.inj (Option.some.inj h)
            rw [hok] at hbegun
            simp only [HandlePool.set_set]
            exact .submitted hlookup htarget (by simpa using hroom) hbegun
          · obtain ⟨rfl, rfl⟩ := Prod.mk.inj (Option.some.inj h)
            exact .refused hlookup htarget (by simpa using hroom) hbegun
              ((failed_of_begun hbegun).resolve_left hok)

end IW4x.Gdk
