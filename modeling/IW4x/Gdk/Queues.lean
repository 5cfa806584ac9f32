import IW4x.Lib.Stacks
import IW4x.Gdk.TaskPort
import Mathlib.Algebra.BigOperators.Fin

/-!
# Task queues and the pool they come from

A queue is a pair of ports. The pool owns 32 ports and 64 queues, hands them out by index and
counts who owns and who borrows a port. Pointers into the pool are indices here; a port outside
the pool, for which `port_index` answers `max_ports`, is `none`.

Two fields are not in the source and nothing reads them: `generation` counts how often a queue
object was handed out, so that a queue can be told from a later one at the same address, and `lost`
collects the callbacks that were still in a port when it was opened again.
-/

namespace IW4x.Gdk

abbrev PortId := Fin 32
abbrev QueueId := Fin 64

scoped instance ports_ne_zero : NeZero 32 := ⟨by decide⟩
scoped instance queues_ne_zero : NeZero 64 := ⟨by decide⟩

inductive Port where
  | work
  | completion
  deriving DecidableEq, Repr

structure TaskQueue where
  work : Option PortId
  completion : Option PortId
  references : ℕ
  terminated : Bool

/-- `task_queue::operator[]`. -/
def TaskQueue.port (q : TaskQueue) : Port → Option PortId
  | .work => q.work
  | .completion => q.completion

/-- `task_queue::open`. -/
def TaskQueue.openWith (w c : Option PortId) : TaskQueue :=
  { work := w, completion := c, references := 1, terminated := false }

/-- The ports a queue of the pool holds; `none` is `max_ports`. -/
structure HeldPorts where
  work : Option PortId
  completion : Option PortId

structure QueuePool (α : Type) where
  owned : PortId → TaskPort α
  made : QueueId → TaskQueue
  madeUsed : QueueId → Bool
  madeOwns : QueueId → Bool
  madePorts : QueueId → HeldPorts
  portUsed : PortId → Bool
  portOwned : PortId → Bool
  portBorrows : PortId → ℕ
  ports : ℕ
  queues : ℕ
  /-- `current_process_queue`. -/
  current : Option QueueId
  /-- The static `fallback` of `process_queue`, once it was created. -/
  fallback : Option QueueId
  generation : QueueId → ℕ
  lost : List α

namespace QueuePool

variable {α : Type}

def empty [Inhabited α] : QueuePool α where
  owned := fun _ => .fresh
  made := fun _ => { work := none, completion := none, references := 1, terminated := false }
  madeUsed := fun _ => false
  madeOwns := fun _ => false
  madePorts := fun _ => ⟨none, none⟩
  portUsed := fun _ => false
  portOwned := fun _ => false
  portBorrows := fun _ => 0
  ports := 0
  queues := 0
  current := none
  fallback := none
  generation := fun _ => 0
  lost := []

def setPort (p : QueuePool α) (i : PortId) (t : TaskPort α) : QueuePool α :=
  { p with owned := Function.update p.owned i t }

@[simp] theorem setPort_owned (p : QueuePool α) (i : PortId) (t : TaskPort α) :
    (p.setPort i t).owned = Function.update p.owned i t := rfl

@[simp] theorem setPort_made (p : QueuePool α) (i : PortId) (t : TaskPort α) :
    (p.setPort i t).made = p.made := rfl

@[simp] theorem setPort_generation (p : QueuePool α) (i : PortId) (t : TaskPort α) :
    (p.setPort i t).generation = p.generation := rfl

@[simp] theorem setPort_current (p : QueuePool α) (i : PortId) (t : TaskPort α) :
    (p.setPort i t).current = p.current := rfl

/-- `take_queue`: the first free queue object. -/
def takeQueue (p : QueuePool α) : Option QueueId × QueuePool α :=
  match (List.finRange 64).find? fun i => !p.madeUsed i with
  | some i => (some i, { p with
      madeUsed := Function.update p.madeUsed i true
      queues := p.queues + 1
      generation := Function.update p.generation i (p.generation i + 1) })
  | none => (none, p)

/-- `take_port`: the first free port. -/
def takePort (p : QueuePool α) : Option PortId × QueuePool α :=
  match (List.finRange 32).find? fun i => !p.portUsed i with
  | some i => (some i, { p with
      portUsed := Function.update p.portUsed i true
      ports := p.ports + 1 })
  | none => (none, p)

def givePort (p : QueuePool α) : Option PortId → QueuePool α
  | none => p
  | some i => { p with
      portUsed := Function.update p.portUsed i false
      ports := p.ports - 1 }

/-- `spent`: nobody owns or borrows the port any more. -/
def spent (p : QueuePool α) (i : PortId) : Bool :=
  p.portUsed i && !p.portOwned i && p.portBorrows i == 0

def dropPort (p : QueuePool α) (owns : Bool) : Option PortId → Option PortId × QueuePool α
  | none => (none, p)
  | some j =>
    let q : QueuePool α :=
      if owns then { p with portOwned := Function.update p.portOwned j false }
      else if p.portBorrows j = 0 then p
      else { p with portBorrows := Function.update p.portBorrows j (p.portBorrows j - 1) }
    (if q.spent j then some j else none, q)

/-- The first critical section of `release_queue`: the ports to be stopped and given back. -/
def releaseQueue (p : QueuePool α) (i : QueueId) :
    (Option PortId × Option PortId) × QueuePool α :=
  if p.madeUsed i then
    let work := p.dropPort (p.madeOwns i) (p.madePorts i).work
    let completion := work.2.dropPort (p.madeOwns i) (p.madePorts i).completion
    ((work.1, completion.1), { completion.2 with
      madePorts := Function.update completion.2.madePorts i ⟨none, none⟩
      madeOwns := Function.update completion.2.madeOwns i false
      madeUsed := Function.update completion.2.madeUsed i false
      queues := completion.2.queues - 1 })
  else ((none, none), p)

/-- The second critical section of `release_queue`. -/
def givePorts (p : QueuePool α) (done : Option PortId × Option PortId) : QueuePool α :=
  (p.givePort done.1).givePort done.2

def createQueue (p : QueuePool α) (w c : DispatchMode) : Option QueueId × QueuePool α :=
  let work := p.takePort
  let completion := work.2.takePort
  match work.1, completion.1 with
  | some wi, some ci =>
    match completion.2.takeQueue with
    | (some i, q) =>
      (some i, { q with
        madePorts := Function.update q.madePorts i ⟨some wi, some ci⟩
        madeOwns := Function.update q.madeOwns i true
        portOwned := Function.update (Function.update q.portOwned wi true) ci true
        owned := Function.update (Function.update q.owned wi ((q.owned wi).openPort w)) ci
          ((q.owned ci).openPort c)
        made := Function.update q.made i (.openWith (some wi) (some ci))
        lost := q.lost ++ (q.owned wi).callbacks ++ (q.owned ci).callbacks })
    | (none, q) => (none, (q.givePort (some wi)).givePort (some ci))
  | wi, ci => (none, (completion.2.givePort wi).givePort ci)

def borrow (p : QueuePool α) : Option PortId → QueuePool α
  | none => p
  | some j => { p with portBorrows := Function.update p.portBorrows j (p.portBorrows j + 1) }

def createCompositeQueue (p : QueuePool α) (w c : Option PortId) :
    Option QueueId × QueuePool α :=
  match p.takeQueue with
  | (none, q) => (none, q)
  | (some i, q) =>
    let q := { q with
      madePorts := Function.update q.madePorts i ⟨w, c⟩
      madeOwns := Function.update q.madeOwns i false }
    let q := (q.borrow w).borrow c
    (some i, { q with made := Function.update q.made i (.openWith w c) })

/-- `process_queue`; `none` where the source ends the process with `fatal`. -/
def processQueue (p : QueuePool α) : Option (QueueId × QueuePool α) :=
  match p.current with
  | some q => some (q, p)
  | none =>
    match p.fallback with
    | some q => some (q, { p with current := some q })
    | none =>
      match p.createQueue .threadPool .threadPool with
      | (none, _) => none
      | (some q, p) => some (q, { p with fallback := some q, current := some q })

def setProcessQueue (p : QueuePool α) (q : Option QueueId) : QueuePool α := { p with current := q }

/-- `resolve` and `queue_of`: the queue itself where one is named. -/
def resolve (p : QueuePool α) : Option QueueId → Option (QueueId × QueuePool α)
  | some q => some (q, p)
  | none => p.processQueue

/-- `task_queue::duplicate`, on a queue of the pool: the reference count is an `unsigned`. -/
def duplicate (p : QueuePool α) (i : QueueId) : QueuePool α :=
  let q := p.made i
  { p with made := Function.update p.made i { q with references := (q.references + 1) % 2 ^ 32 } }

def close (p : QueuePool α) (i : QueueId) : QueuePool α :=
  let q := p.made i
  { p with
    made := Function.update p.made i { q with references := (q.references + 2 ^ 32 - 1) % 2 ^ 32 } }

/-- `task_queue::terminate`, on a queue of the pool; it answers whether the flag was clear. -/
def markTerminated (p : QueuePool α) (i : QueueId) : QueuePool α :=
  let q := p.made i
  { p with made := Function.update p.made i { q with terminated := true } }

/-- The callbacks of all ports, and those that were lost, weighed together. -/
def weigh (w : α → ℕ) (p : QueuePool α) : ℕ :=
  ∑ i, Stacks.weight w (p.owned i).callbacks + Stacks.weight w p.lost

theorem weigh_empty [Inhabited α] (w : α → ℕ) : (empty : QueuePool α).weigh w = 0 := by
  simp [weigh, empty, TaskPort.callbacks_fresh]

theorem weigh_congr {w : α → ℕ} {p q : QueuePool α} (howned : q.owned = p.owned)
    (hlost : q.lost = p.lost) : q.weigh w = p.weigh w := by
  simp only [weigh, howned, hlost]

theorem weigh_setPort (w : α → ℕ) (p : QueuePool α) (i : PortId) (t : TaskPort α) :
    (p.setPort i t).weigh w + Stacks.weight w (p.owned i).callbacks =
      p.weigh w + Stacks.weight w t.callbacks := by
  have hsum := Finset.sum_update_of_mem (Finset.mem_univ i)
    (fun j => Stacks.weight w (p.owned j).callbacks) (Stacks.weight w t.callbacks)
  have hold := Finset.add_sum_erase Finset.univ
    (fun j => Stacks.weight w (p.owned j).callbacks) (Finset.mem_univ i)
  have hnew : (fun j => Stacks.weight w ((p.setPort i t).owned j).callbacks) =
      Function.update (fun j => Stacks.weight w (p.owned j).callbacks) i
        (Stacks.weight w t.callbacks) := by
    funext j
    by_cases hj : j = i
    · subst hj; simp
    · simp [hj]
  rw [Finset.sdiff_singleton_eq_erase] at hsum
  simp only [weigh, hnew, hsum]
  simp only [setPort] at *
  omega

theorem weigh_accepted (w : α → ℕ) {p : QueuePool α} {i : PortId} {t : TaskPort α}
    {now delay : ℕ} {x : α} (h : (p.owned i).submit now delay x = .accepted t) :
    (p.setPort i t).weigh w = p.weigh w + w x := by
  obtain ⟨hcallbacks, -⟩ := TaskPort.submit_accepted h
  have hset := p.weigh_setPort w i t
  rw [hcallbacks, Stacks.weight_append, Stacks.weight_cons, Stacks.weight_nil] at hset
  omega

theorem weigh_taken (w : α → ℕ) {p : QueuePool α} {i : PortId} {now : ℕ} {t : TaskPort.Taken α}
    (h : (p.owned i).take now = some t) :
    (p.setPort i t.port).weigh w + w t.item.callback = p.weigh w := by
  obtain ⟨hperm, -⟩ := TaskPort.take_spec h
  have hset := p.weigh_setPort w i t.port
  have hweight := Stacks.weight_perm w hperm
  rw [Stacks.weight_cons] at hweight
  omega

theorem weigh_mono {w v : α → ℕ} (h : ∀ x, w x ≤ v x) (p : QueuePool α) :
    p.weigh w ≤ p.weigh v := by
  have hports : ∑ i, Stacks.weight w (p.owned i).callbacks ≤
      ∑ i, Stacks.weight v (p.owned i).callbacks :=
    Finset.sum_le_sum fun i _ => Stacks.weight_mono h _
  have hlost := Stacks.weight_mono h p.lost
  simp only [weigh]
  omega

theorem le_weigh (w : α → ℕ) {p : QueuePool α} {i : PortId} {x : α}
    (h : x ∈ (p.owned i).callbacks) : w x ≤ p.weigh w := by
  have hport := Stacks.le_weight w h
  have hsum := Finset.single_le_sum (f := fun j => Stacks.weight w (p.owned j).callbacks)
    (fun j _ => Nat.zero_le _) (Finset.mem_univ i)
  simp only [weigh]
  omega

/-- The parts of the pool that a submission or a running operation can see. -/
structure Alike (p q : QueuePool α) : Prop where
  owned : q.owned = p.owned
  made : q.made = p.made
  generation : q.generation = p.generation
  lost : q.lost = p.lost

theorem Alike.refl (p : QueuePool α) : Alike p p := ⟨rfl, rfl, rfl, rfl⟩

theorem takePort_some {p q : QueuePool α} {i : PortId} (h : p.takePort = (some i, q)) :
    p.portUsed i = false ∧ Alike p q ∧ q.portUsed = Function.update p.portUsed i true := by
  unfold takePort at h
  split at h
  · rename_i j hfind
    cases h
    exact ⟨by simpa using List.find?_some hfind, ⟨rfl, rfl, rfl, rfl⟩, rfl⟩
  · cases h

theorem takePort_none {p q : QueuePool α} (h : p.takePort = (none, q)) : q = p := by
  unfold takePort at h
  split at h
  · cases h
  · cases h; rfl

theorem givePort_alike (p : QueuePool α) (i : Option PortId) : Alike p (p.givePort i) := by
  cases i with
  | none => exact .refl p
  | some i => exact ⟨rfl, rfl, rfl, rfl⟩

theorem takeQueue_some {p q : QueuePool α} {i : QueueId} (h : p.takeQueue = (some i, q)) :
    q.owned = p.owned ∧ q.made = p.made ∧ q.lost = p.lost ∧ q.portUsed = p.portUsed ∧
      q.generation = Function.update p.generation i (p.generation i + 1) := by
  unfold takeQueue at h
  split at h
  · cases h; exact ⟨rfl, rfl, rfl, rfl, rfl⟩
  · cases h

theorem takeQueue_none {p q : QueuePool α} (h : p.takeQueue = (none, q)) : q = p := by
  unfold takeQueue at h
  split at h
  · cases h
  · cases h; rfl

/-- A queue was created: two ports nobody used were opened for a queue object that is handed out
once more. -/
structure Created (p q : QueuePool α) (w c : DispatchMode) (i : QueueId) (wi ci : PortId) :
    Prop where
  apart : wi ≠ ci
  workFree : p.portUsed wi = false
  completionFree : p.portUsed ci = false
  workUsed : q.portUsed wi = true
  completionUsed : q.portUsed ci = true
  owned : q.owned = Function.update (Function.update p.owned wi ((p.owned wi).openPort w)) ci
    ((p.owned ci).openPort c)
  made : q.made = Function.update p.made i (.openWith (some wi) (some ci))
  generation : q.generation = Function.update p.generation i (p.generation i + 1)
  lost : q.lost = p.lost ++ (p.owned wi).callbacks ++ (p.owned ci).callbacks

/-- `create_queue` creates a queue, or leaves the queues and the ports as they are. In either case
no port that was in use is free afterwards. -/
theorem createQueue_cases (p : QueuePool α) (w c : DispatchMode) :
    (∀ i, (p.createQueue w c).2.portUsed i = false → p.portUsed i = false) ∧
    (((p.createQueue w c).1 = none ∧ Alike p (p.createQueue w c).2) ∨
      ∃ i wi ci, (p.createQueue w c).1 = some i ∧ Created p (p.createQueue w c).2 w c i wi ci) := by
  unfold createQueue
  rcases hwork : p.takePort with ⟨wi, p₁⟩
  rcases hcompletion : p₁.takePort with ⟨ci, p₂⟩
  cases wi with
  | none =>
    obtain rfl := takePort_none hwork
    rw [hcompletion] at hwork
    cases hwork
    simp only [hcompletion]
    exact ⟨fun i hi => hi, .inl ⟨trivial, .refl _⟩⟩
  | some wi =>
    obtain ⟨hwfree, hwalike, hwused⟩ := takePort_some hwork
    cases ci with
    | none =>
      obtain rfl := takePort_none hcompletion
      simp only [hcompletion]
      refine ⟨?_, .inl ⟨trivial, ?_⟩⟩
      · intro i hi
        by_cases hiw : i = wi
        · rwa [hiw]
        · simpa [givePort, hwused, hiw] using hi
      · exact ⟨hwalike.owned, hwalike.made, hwalike.generation, hwalike.lost⟩
    | some ci =>
      obtain ⟨hcfree, hcalike, hcused⟩ := takePort_some hcompletion
      have hne : wi ≠ ci := by
        rintro rfl
        simp [hwused] at hcfree
      have hcfree' : p.portUsed ci = false := by
        rwa [hwused, Function.update_of_ne hne.symm] at hcfree
      simp only [hcompletion]
      rcases hqueue : p₂.takeQueue with ⟨i, q⟩
      cases i with
      | none =>
        obtain rfl := takeQueue_none hqueue
        refine ⟨?_, .inl ⟨rfl, ?_⟩⟩
        · intro i hi
          by_cases hiw : i = wi
          · rwa [hiw]
          · by_cases hic : i = ci
            · rwa [hic]
            · simpa [givePort, hcused, hwused, hiw, hic] using hi
        · exact ⟨hcalike.owned.trans hwalike.owned, hcalike.made.trans hwalike.made,
            hcalike.generation.trans hwalike.generation, hcalike.lost.trans hwalike.lost⟩
      | some i =>
        obtain ⟨howned, hmade, hlost, hused, hgen⟩ := takeQueue_some hqueue
        refine ⟨?_, .inr ⟨i, wi, ci, rfl, ?_⟩⟩
        · intro j hj
          by_cases hjw : j = wi
          · rwa [hjw]
          · by_cases hjc : j = ci
            · rwa [hjc]
            · simpa [hused, hcused, hwused, hjw, hjc] using hj
        · have howned' : q.owned = p.owned := howned.trans (hcalike.owned.trans hwalike.owned)
          constructor
          · exact hne
          · exact hwfree
          · exact hcfree'
          · simp [hused, hcused, hwused, hne]
          · simp [hused, hcused]
          · simp only [howned']
          · simp only [hmade, hcalike.made, hwalike.made]
          · simp only [hgen, hcalike.generation, hwalike.generation]
          · simp only [howned', hlost, hcalike.lost, hwalike.lost]

theorem Created.weigh {p q : QueuePool α} {w c : DispatchMode} {i : QueueId} {wi ci : PortId}
    (h : Created p q w c i wi ci) (v : α → ℕ) : q.weigh v = p.weigh v := by
  have hwork := p.weigh_setPort v wi ((p.owned wi).openPort w)
  have hcompletion := (p.setPort wi ((p.owned wi).openPort w)).weigh_setPort v ci
    ((p.owned ci).openPort c)
  have howned : q.owned = ((p.setPort wi ((p.owned wi).openPort w)).setPort ci
      ((p.owned ci).openPort c)).owned := h.owned
  have hlost : ((p.setPort wi ((p.owned wi).openPort w)).setPort ci
      ((p.owned ci).openPort c)).lost = p.lost := rfl
  simp only [setPort_owned, Function.update_of_ne h.apart.symm, TaskPort.callbacks_openPort,
    Stacks.weight_nil, Nat.add_zero] at hwork hcompletion
  simp only [QueuePool.weigh, howned, h.lost, Stacks.weight_append] at *
  rw [hlost] at hcompletion
  omega

/-- What managing the queues leaves alone: no callback is added to a port or forgotten, and a queue
object keeps its ports until it is handed out again. -/
structure Kept (p q : QueuePool α) : Prop where
  weigh : ∀ w, q.weigh w = p.weigh w
  callbacks : ∀ i x, x ∈ (q.owned i).callbacks → x ∈ (p.owned i).callbacks
  generation : ∀ i, p.generation i ≤ q.generation i
  ports : ∀ i, q.generation i = p.generation i → ∀ r, (q.made i).port r = (p.made i).port r

theorem Kept.refl (p : QueuePool α) : Kept p p :=
  ⟨fun _ => rfl, fun _ _ h => h, fun _ => le_refl _, fun _ _ _ => rfl⟩

theorem Kept.trans {p q r : QueuePool α} (hpq : Kept p q) (hqr : Kept q r) : Kept p r := by
  constructor
  · intro w
    rw [hqr.weigh, hpq.weigh]
  · intro i x hx
    exact hpq.callbacks i x (hqr.callbacks i x hx)
  · intro i
    exact (hpq.generation i).trans (hqr.generation i)
  · intro i hi s
    have hle := hpq.generation i
    have hle' := hqr.generation i
    rw [hqr.ports i (by omega), hpq.ports i (by omega)]

theorem Alike.kept {p q : QueuePool α} (h : Alike p q) : Kept p q := by
  constructor
  · intro w
    exact weigh_congr h.owned h.lost
  · intro i x hx
    rwa [h.owned] at hx
  · intro i
    rw [h.generation]
  · intro i _ r
    rw [h.made]

theorem Created.kept {p q : QueuePool α} {w c : DispatchMode} {i : QueueId} {wi ci : PortId}
    (h : Created p q w c i wi ci) : Kept p q := by
  constructor
  · exact h.weigh
  · intro j x hx
    rw [h.owned] at hx
    by_cases hjc : j = ci
    · subst hjc; simp at hx
    · by_cases hjw : j = wi
      · subst hjw; simp [hjc] at hx
      · simpa [hjc, hjw] using hx
  · intro j
    rw [h.generation]
    by_cases hj : j = i
    · subst hj; simp
    · simp [hj]
  · intro j hj r
    rw [h.generation] at hj
    by_cases hji : j = i
    · subst hji; simp at hj
    · simp [h.made, hji]

theorem borrow_alike (p : QueuePool α) (i : Option PortId) : Alike p (p.borrow i) := by
  cases i with
  | none => exact .refl p
  | some i => exact ⟨rfl, rfl, rfl, rfl⟩

theorem dropPort_alike (p : QueuePool α) (owns : Bool) (i : Option PortId) :
    Alike p (p.dropPort owns i).2 := by
  cases i with
  | none => exact .refl p
  | some i =>
    unfold dropPort
    dsimp only
    split_ifs <;> exact ⟨rfl, rfl, rfl, rfl⟩

theorem releaseQueue_alike (p : QueuePool α) (i : QueueId) : Alike p (p.releaseQueue i).2 := by
  unfold releaseQueue
  split_ifs
  · have hwork := p.dropPort_alike (p.madeOwns i) (p.madePorts i).work
    have hcompletion := (p.dropPort (p.madeOwns i) (p.madePorts i).work).2.dropPort_alike
      (p.madeOwns i) (p.madePorts i).completion
    exact ⟨hcompletion.owned.trans hwork.owned, hcompletion.made.trans hwork.made,
      hcompletion.generation.trans hwork.generation, hcompletion.lost.trans hwork.lost⟩
  · exact .refl p

theorem givePorts_alike (p : QueuePool α) (done : Option PortId × Option PortId) :
    Alike p (p.givePorts done) := by
  have hwork := p.givePort_alike done.1
  have hcompletion := (p.givePort done.1).givePort_alike done.2
  exact ⟨hcompletion.owned.trans hwork.owned, hcompletion.made.trans hwork.made,
    hcompletion.generation.trans hwork.generation, hcompletion.lost.trans hwork.lost⟩

theorem createCompositeQueue_kept (p : QueuePool α) (w c : Option PortId) :
    Kept p (p.createCompositeQueue w c).2 := by
  unfold createCompositeQueue
  rcases hqueue : p.takeQueue with ⟨i, q⟩
  cases i with
  | none =>
    obtain rfl := takeQueue_none hqueue
    exact .refl _
  | some i =>
    obtain ⟨howned, hmade, hlost, -, hgen⟩ := takeQueue_some hqueue
    have hborrow : ∀ p : QueuePool α, Alike p ((p.borrow w).borrow c) := fun p =>
      ⟨((p.borrow w).borrow_alike c).owned.trans (p.borrow_alike w).owned,
        ((p.borrow w).borrow_alike c).made.trans (p.borrow_alike w).made,
        ((p.borrow w).borrow_alike c).generation.trans (p.borrow_alike w).generation,
        ((p.borrow w).borrow_alike c).lost.trans (p.borrow_alike w).lost⟩
    constructor
    · intro v
      exact weigh_congr ((hborrow _).owned.trans howned) ((hborrow _).lost.trans hlost)
    · intro j x hx
      dsimp only at hx
      rw [(hborrow _).owned] at hx
      simpa [howned] using hx
    · intro j
      dsimp only
      rw [(hborrow _).generation]
      dsimp only
      rw [hgen]
      by_cases hj : j = i
      · subst hj; simp
      · simp [hj]
    · intro j hj r
      dsimp only at hj ⊢
      rw [(hborrow _).generation] at hj
      dsimp only at hj
      rw [hgen] at hj
      by_cases hji : j = i
      · subst hji; simp at hj
      · rw [(hborrow _).made]
        simp [hmade, hji]

/-- Resolving a queue leaves the pool as it is, or creates the default process queue. -/
theorem resolve_cases {p p' : QueuePool α} {q : Option QueueId} {x : QueueId}
    (h : p.resolve q = some (x, p')) :
    (∀ i, p'.portUsed i = false → p.portUsed i = false) ∧
      (Alike p p' ∨ ∃ wi ci, Created p p' .threadPool .threadPool x wi ci) := by
  cases q with
  | some q =>
    cases h
    exact ⟨fun _ hi => hi, .inl (.refl p)⟩
  | none =>
    simp only [resolve, processQueue] at h
    split at h
    · cases h
      exact ⟨fun _ hi => hi, .inl (.refl p)⟩
    · split at h
      · cases h
        exact ⟨fun _ hi => hi, .inl ⟨rfl, rfl, rfl, rfl⟩⟩
      · obtain ⟨hused, hcases⟩ := p.createQueue_cases .threadPool .threadPool
        split at h
        · cases h
        · rename_i y q hcreate
          cases h
          rw [hcreate] at hused hcases
          refine ⟨hused, ?_⟩
          rcases hcases with ⟨hnone, -⟩ | ⟨i, wi, ci, hsome, hmade⟩
          · cases hnone
          · cases hsome
            exact .inr ⟨wi, ci, ⟨hmade.apart, hmade.workFree, hmade.completionFree,
              hmade.workUsed, hmade.completionUsed, hmade.owned, hmade.made, hmade.generation,
              hmade.lost⟩⟩

theorem setPort_kept {p : QueuePool α} {i : PortId} {t : TaskPort α}
    (h : t.callbacks = (p.owned i).callbacks) : Kept p (p.setPort i t) := by
  constructor
  · intro w
    have hset := p.weigh_setPort w i t
    rw [h] at hset
    omega
  · intro j x hx
    by_cases hj : j = i
    · subst hj
      simpa [h] using hx
    · simpa [hj] using hx
  · intro j
    exact le_refl _
  · intro j _ r
    rfl

theorem ports_update {p : QueuePool α} {i : QueueId} {t : TaskQueue}
    (h : ∀ r, t.port r = (p.made i).port r) :
    Kept p { p with made := Function.update p.made i t } := by
  constructor
  · intro w
    exact weigh_congr rfl rfl
  · intro j x hx
    exact hx
  · intro j
    exact le_refl _
  · intro j _ r
    by_cases hj : j = i
    · subst hj
      simp [h]
    · simp [hj]

theorem duplicate_kept (p : QueuePool α) (i : QueueId) : Kept p (p.duplicate i) := by
  apply ports_update
  intro r
  cases r with
  | work => simp only [TaskQueue.port]
  | completion => simp only [TaskQueue.port]

theorem close_kept (p : QueuePool α) (i : QueueId) : Kept p (p.close i) := by
  apply ports_update
  intro r
  cases r with
  | work => simp only [TaskQueue.port]
  | completion => simp only [TaskQueue.port]

theorem markTerminated_kept (p : QueuePool α) (i : QueueId) : Kept p (p.markTerminated i) := by
  apply ports_update
  intro r
  cases r with
  | work => simp only [TaskQueue.port]
  | completion => simp only [TaskQueue.port]

end QueuePool

end IW4x.Gdk
