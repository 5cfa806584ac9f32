import IW4x.Lib.RingBuffer

/-!
# A task port

The data of one port and what each of its critical sections does to it. A submission carries a
callback (the function and its context) and a due time; `dispatch` takes the first callback that
is due, by exchanging it with the one at the head of the ring. The mutex, the workers and the
callbacks themselves belong to the threads that use the port.
-/

namespace IW4x.Gdk

inductive DispatchMode where
  | manual
  | async
  | threadPool
  | serializedThreadPool
  | immediate
  deriving DecidableEq, Repr

/-- How many threads a port starts for its mode. -/
def workerCount : DispatchMode → ℕ
  | .async => 3
  | .threadPool => 3
  | .serializedThreadPool => 1
  | .manual => 0
  | .immediate => 0

/-- A queued callback: `run` and `context` of the source are one value here. -/
structure Item (α : Type) where
  callback : α
  due : ℕ
  deriving DecidableEq, Repr, Inhabited

structure TaskPort (α : Type) where
  mode : DispatchMode
  ring : RingBuffer (Item α) 128
  terminated : Bool
  canceled : Bool
  /-- The atomic copy of the count that `dispatch (0)` reads without the lock. -/
  queued : ℕ

namespace TaskPort

variable {α : Type}

def capacity : ℕ := 128

/-- A port that no queue has opened yet. -/
def fresh [Inhabited α] : TaskPort α where
  mode := .manual
  ring := { items := fun _ => default, head := 0, count := 0, bounded := Nat.zero_le _ }
  terminated := false
  canceled := false
  queued := 0

/-- The critical section of `open`. The slots keep what they held. -/
def openPort (m : DispatchMode) (p : TaskPort α) : TaskPort α :=
  { mode := m
    ring := { items := p.ring.items, head := 0, count := 0, bounded := Nat.zero_le _ }
    terminated := false
    canceled := false
    queued := 0 }

/-- The callbacks in the ring, in the order of their places. -/
def callbacks (p : TaskPort α) : List α := p.ring.contents.map Item.callback

inductive Submission (α : Type) where
  /-- An immediate port runs the callback inside `submit`. -/
  | immediate
  | accepted (p : TaskPort α)
  | refused

/-- `submit`, up to the point where the lock is released. -/
def submit (p : TaskPort α) (now delay : ℕ) (x : α) : Submission α :=
  if p.mode = .immediate then .immediate
  else if p.terminated then .refused
  else if room : p.ring.count < 128 then
    .accepted { p with
      ring := p.ring.push ⟨x, now + delay⟩ room
      queued := p.ring.count + 1 }
  else .refused

def firstDue (p : TaskPort α) (now : ℕ) : Option ℕ :=
  (List.range p.ring.count).find? fun i => (p.ring.get i).due ≤ now

/-- `due`: `none` where the source answers -1, otherwise the port with the callback to run at
the head. A terminated port does not look at the due times. -/
def due (p : TaskPort α) (now : ℕ) : Option (TaskPort α) :=
  if p.ring.count = 0 then none
  else if p.terminated then some p
  else match p.firstDue now with
    | none => none
    | some 0 => some p
    | some i => some { p with ring := p.ring.bringToHead i }

/-- A callback a dispatcher has taken, with the flag it will be passed. -/
structure Taken (α : Type) where
  item : Item α
  canceled : Bool
  port : TaskPort α

/-- The critical section of `dispatch` that takes a callback, if one is to be run now. -/
def take (p : TaskPort α) (now : ℕ) : Option (Taken α) :=
  (p.due now).map fun q =>
    { item := q.ring.get 0
      canceled := q.canceled
      port := { q with ring := q.ring.pop, queued := q.ring.count - 1 } }

/-- What one pass through the loop of `dispatch` comes to. -/
inductive Pass (α : Type) where
  | took (t : Taken α)
  | gaveUp
  | waits

/-- One pass through the loop of `dispatch`, from taking the lock to releasing it: `due` reads the
clock as `looked`, and the deadline is held against `now`. Without a deadline the timeout is
`INFINITE`. -/
def pass (p : TaskPort α) (looked now : ℕ) (deadline : Option ℕ) : Pass α :=
  match p.take looked with
  | some t => .took t
  | none =>
    if p.terminated then .gaveUp
    else match deadline with
      | none => .waits
      | some d => if d ≤ now then .gaveUp else .waits

/-- The critical section of `terminate`. -/
def terminate (p : TaskPort α) : TaskPort α :=
  { p with
    terminated := true
    canceled := if p.mode = .manual then p.canceled else true }

/-- The critical section of `stop`. -/
def stop (p : TaskPort α) : TaskPort α := { p with terminated := true, canceled := true }

@[simp] theorem callbacks_terminate (p : TaskPort α) : p.terminate.callbacks = p.callbacks := rfl

@[simp] theorem callbacks_stop (p : TaskPort α) : p.stop.callbacks = p.callbacks := rfl

@[simp] theorem callbacks_openPort (m : DispatchMode) (p : TaskPort α) :
    (p.openPort m).callbacks = [] := rfl

theorem callbacks_fresh [Inhabited α] : (fresh : TaskPort α).callbacks = [] := rfl

theorem length_callbacks (p : TaskPort α) : p.callbacks.length = p.ring.count := by
  simp [callbacks]

theorem submit_accepted {p q : TaskPort α} {now delay : ℕ} {x : α}
    (h : p.submit now delay x = .accepted q) :
    q.callbacks = p.callbacks ++ [x] ∧ q.mode = p.mode ∧ q.terminated = p.terminated ∧
      q.canceled = p.canceled ∧ q.queued = q.ring.count ∧ p.mode ≠ .immediate ∧
      p.terminated = false := by
  unfold submit at h
  split_ifs at h with himm hterm hroom
  cases h
  exact ⟨by simp [callbacks], rfl, rfl, rfl, rfl, himm, by simpa using hterm⟩

theorem submit_contents {p q : TaskPort α} {now delay : ℕ} {x : α}
    (h : p.submit now delay x = .accepted q) :
    q.ring.contents = p.ring.contents ++ [⟨x, now + delay⟩] := by
  unfold submit at h
  split_ifs at h
  obtain rfl := Submission.accepted.inj h
  exact RingBuffer.contents_push _ _ _

/-- Outside the immediate mode a submission is refused exactly when the port is terminated or
full. -/
theorem submit_refused_iff {p : TaskPort α} {now delay : ℕ} {x : α} (hmode : p.mode ≠ .immediate) :
    p.submit now delay x = .refused ↔ p.terminated = true ∨ p.ring.count = capacity := by
  have hb := p.ring.bounded
  unfold submit capacity
  rw [if_neg hmode]
  split_ifs with hterm hroom
  · simp [hterm]
  · simp only [false_iff]
    rintro (h | h)
    · exact hterm h
    · omega
  · simp only [true_iff]
    exact Or.inr (by omega)

theorem firstDue_lt {p : TaskPort α} {now i : ℕ} (h : p.firstDue now = some i) :
    i < p.ring.count := by
  exact List.mem_range.mp (List.mem_of_find?_eq_some h)

theorem due_spec {p q : TaskPort α} {now : ℕ} (h : p.due now = some q) :
    q.callbacks.Perm p.callbacks ∧ q.ring.count = p.ring.count ∧ 0 < p.ring.count ∧
      q.mode = p.mode ∧ q.terminated = p.terminated ∧ q.canceled = p.canceled := by
  unfold due at h
  split_ifs at h with hempty hterm
  · cases h
    exact ⟨.refl _, rfl, by omega, rfl, rfl, rfl⟩
  · split at h
    · cases h
    · cases h
      exact ⟨.refl _, rfl, by omega, rfl, rfl, rfl⟩
    · rename_i i hne hfirst
      cases h
      have hperm := p.ring.contents_bringToHead_perm (firstDue_lt hfirst)
      exact ⟨hperm.map _, rfl, by omega, rfl, rfl, rfl⟩

/-- What taking a callback does: exactly that callback leaves the ring, it is passed the flag of
the port, and the flags stay. -/
theorem take_spec {p : TaskPort α} {now : ℕ} {t : Taken α} (h : p.take now = some t) :
    p.callbacks.Perm (t.item.callback :: t.port.callbacks) ∧ t.canceled = p.canceled ∧
      t.port.mode = p.mode ∧ t.port.terminated = p.terminated ∧
      t.port.canceled = p.canceled ∧ t.port.queued = t.port.ring.count := by
  unfold take at h
  obtain ⟨q, hq, rfl⟩ := Option.map_eq_some_iff.mp h
  obtain ⟨hperm, hcount, hpos, hmode, hterm, hcanceled⟩ := due_spec hq
  have hhead : q.callbacks = (q.ring.get 0).callback :: q.ring.pop.contents.map Item.callback := by
    rw [callbacks, q.ring.head_contents (by omega), List.map_cons, RingBuffer.contents_pop]
  refine ⟨?_, hcanceled, hmode, hterm, hcanceled, rfl⟩
  have := hperm.symm
  rwa [hhead] at this

theorem take_terminated {p : TaskPort α} {now : ℕ} (hterm : p.terminated = true) :
    p.take now = none ↔ p.callbacks = [] := by
  rw [← List.length_eq_zero_iff, length_callbacks]
  unfold take due
  split_ifs with hempty <;> simp [hempty]

theorem take_empty {p : TaskPort α} {now : ℕ} (h : p.ring.count = 0) : p.take now = none := by
  simp [take, due, h]

end TaskPort

end IW4x.Gdk
