import IW4x.Lib.Runs
import IW4x.Lib.Stacks
import IW4x.Gdk.TaskPort

/-!
# The threads of a task port

Any number of threads use one opened port: its workers, and threads of the caller. A thread is a
stack of activations, so that a callback may call the port again. A step of a thread is one
critical section under the port's mutex, the lock-free read at the start of `dispatch (0)`, or the
call of a callback after the lock was released. Waking is not modelled: a waiting thread may go on
at any time, as the condition variable permits.
-/

namespace IW4x.Gdk

open Runs

/-- Where a thread stands in the code of the port. -/
inductive Activity (α : Type) where
  /-- `work`, before its next `dispatch (INFINITE)`. -/
  | work
  /-- `dispatch`, before the lock-free check; no timeout is `INFINITE`. -/
  | enter (timeout : Option ℕ)
  /-- `dispatch`, before it takes the lock for the first time. -/
  | lock (timeout : Option ℕ)
  /-- `dispatch`, in `ready_.wait`. -/
  | wait (deadline : Option ℕ)
  /-- `dispatch` has taken a callback and released the lock. -/
  | run (x : α) (canceled : Bool)
  /-- Inside the callback. -/
  | callback (x : α)
  /-- `stop`, with so many workers joined. -/
  | join (joined : ℕ)
  /-- `stop`, in its last loop. -/
  | drain
  deriving DecidableEq

inductive PortEvent (α : Type) where
  | accepted (x : α)
  | refused (x : α)
  | took (x : α) (canceled : Bool)
  | started (x : α) (canceled : Bool)
  | terminated
  | stopping
  | stopped (thread : ℕ)
  | answered (thread : ℕ) (ran : Bool)
  deriving DecidableEq

/-- The port and the threads that use it; the first `started` threads are its workers. -/
structure PortThreads (α : Type) where
  port : TaskPort α
  /-- `worker_count_`. -/
  workers : ℕ
  started : ℕ
  threads : List (List (Activity α))

/-- What a thread can do next. Calls are made by the code outside the port and by callbacks. -/
inductive PortAct (α : Type) where
  | submit (now delay : ℕ) (x : α)
  | dispatch (timeout : Option ℕ)
  | terminate
  | stop
  /-- The callback on top of the stack returns. -/
  | finish
  /-- The thread goes on in the code of the port. `dispatch` reads the clock when it has the lock, and
  in each pass in `due` and for the deadline. -/
  | go (entered looked now : ℕ)

namespace PortThreads

variable {α : Type}

def mayCall (s : PortThreads α) (i : ℕ) : List (Activity α) → Bool
  | [] => s.started ≤ i
  | .callback _ :: _ => true
  | _ => false

/-- `dispatch` returns to its caller: `work` and the last loop of `stop` go on while the answer is
true. -/
def giveBack (i : ℕ) (ran : Bool) : List (Activity α) → List (Activity α) × List (PortEvent α)
  | .work :: rest => if ran then (.work :: rest, []) else (rest, [])
  | .drain :: rest => if ran then (.drain :: rest, []) else (rest, [.stopped i])
  | rest => (rest, [.answered i ran])

/-- What one step of a thread changes: the port, `worker_count_` and the thread's own stack. -/
structure Move (α : Type) where
  port : TaskPort α
  workers : ℕ
  stack : List (Activity α)
  events : List (PortEvent α)

/-- `dispatch` gives up and returns false. -/
def leave (s : PortThreads α) (i : ℕ) (rest : List (Activity α)) : Move α :=
  let back := giveBack i false rest
  ⟨s.port, s.workers, back.1, back.2⟩

/-- One pass through the loop of `dispatch`. -/
def loop (s : PortThreads α) (i : ℕ) (looked now : ℕ) (deadline : Option ℕ)
    (rest : List (Activity α)) : Move α :=
  match s.port.pass looked now deadline with
  | .took t => ⟨t.port, s.workers, .run t.item.callback t.canceled :: rest,
      [.took t.item.callback t.canceled]⟩
  | .gaveUp => s.leave i rest
  | .waits => ⟨s.port, s.workers, .wait deadline :: rest, []⟩

def go (s : PortThreads α) (i : ℕ) (entered looked now : ℕ) : List (Activity α) → Option (Move α)
  | .work :: rest => some ⟨s.port, s.workers, .enter none :: .work :: rest, []⟩
  | .enter timeout :: rest =>
    if timeout = some 0 ∧ s.port.queued = 0 then some (s.leave i rest)
    else some ⟨s.port, s.workers, .lock timeout :: rest, []⟩
  | .lock timeout :: rest => some (s.loop i looked now (timeout.map (entered + ·)) rest)
  | .wait deadline :: rest => some (s.loop i looked now deadline rest)
  | .run x c :: rest => some ⟨s.port, s.workers, .callback x :: rest, [.started x c]⟩
  | .join joined :: rest =>
    if joined = s.workers then some ⟨s.port, 0, .drain :: rest, []⟩
    -- `max_workers` bounds the array of threads: the source has no behaviour past it
    else if joined < 3 ∧ s.threads[joined]?.map List.isEmpty = some true then
      some ⟨s.port, s.workers, .join (joined + 1) :: rest, []⟩
    else none
  | .drain :: rest => some ⟨s.port, s.workers, .enter (some 0) :: .drain :: rest, []⟩
  | _ => none

/-- The move of thread `i`, whose stack is given. -/
def move (s : PortThreads α) (i : ℕ) (stack : List (Activity α)) : PortAct α → Option (Move α)
  | .submit now delay x =>
    if s.mayCall i stack then
      match s.port.submit now delay x with
      | .accepted q => some ⟨q, s.workers, stack, [.accepted x]⟩
      | .refused => some ⟨s.port, s.workers, stack, [.refused x]⟩
      | .immediate => none
    else none
  | .dispatch timeout =>
    if s.mayCall i stack then some ⟨s.port, s.workers, .enter timeout :: stack, []⟩ else none
  | .terminate =>
    if s.mayCall i stack then some ⟨s.port.terminate, s.workers, stack, [.terminated]⟩ else none
  | .stop =>
    if s.mayCall i stack then some ⟨s.port.stop, s.workers, .join 0 :: stack, [.stopping]⟩ else none
  | .finish =>
    match stack with
    | .callback _ :: rest =>
      let back := giveBack i true rest
      some ⟨s.port, s.workers, back.1, back.2⟩
    | _ => none
  | .go entered looked now => s.go i entered looked now stack

/-- One step of the system: a thread and what it does. -/
def step : Step (PortThreads α) (ℕ × PortAct α) (PortEvent α) := fun s input =>
  match s.threads[input.1]? with
  | none => none
  | some stack =>
    (s.move input.1 stack input.2).map fun m =>
      ({ s with port := m.port, workers := m.workers, threads := s.threads.set input.1 m.stack },
        m.events)

/-- A port right after `open` with so many workers started, and `outside` other threads. -/
def opened [Inhabited α] (mode : DispatchMode) (workers outside : ℕ) : PortThreads α where
  port := TaskPort.openPort mode .fresh
  workers := workers
  started := workers
  threads := List.replicate workers [.work] ++ List.replicate outside []

theorem step_eq {s s' : PortThreads α} {i : ℕ} {a : PortAct α} {ev : List (PortEvent α)}
    (h : step s (i, a) = some (s', ev)) :
    ∃ stack m, s.threads[i]? = some stack ∧ s.move i stack a = some m ∧ ev = m.events ∧
      s' = { s with port := m.port, workers := m.workers, threads := s.threads.set i m.stack } := by
  simp only [step] at h
  split at h
  · cases h
  · rename_i stack hstack
    obtain ⟨m, hm, heq⟩ := Option.map_eq_some_iff.mp h
    cases heq
    exact ⟨stack, m, hstack, hm, rfl, rfl⟩

/-- What a thread can do, case by case. Every invariant of the port is proved over these cases. -/
inductive Moved (s : PortThreads α) (i : ℕ) : List (Activity α) → Move α → Prop
  | accept {stack now delay x q} (call : s.mayCall i stack = true)
      (taken : s.port.submit now delay x = .accepted q) :
      Moved s i stack ⟨q, s.workers, stack, [.accepted x]⟩
  | refuse {stack now delay x} (call : s.mayCall i stack = true)
      (full : s.port.submit now delay x = .refused) :
      Moved s i stack ⟨s.port, s.workers, stack, [.refused x]⟩
  | dispatch {stack timeout} (call : s.mayCall i stack = true) :
      Moved s i stack ⟨s.port, s.workers, .enter timeout :: stack, []⟩
  | terminate {stack} (call : s.mayCall i stack = true) :
      Moved s i stack ⟨s.port.terminate, s.workers, stack, [.terminated]⟩
  | stop {stack} (call : s.mayCall i stack = true) :
      Moved s i stack ⟨s.port.stop, s.workers, .join 0 :: stack, [.stopping]⟩
  | finish {x rest} :
      Moved s i (.callback x :: rest)
        ⟨s.port, s.workers, (giveBack i true rest).1, (giveBack i true rest).2⟩
  | work {rest} :
      Moved s i (.work :: rest) ⟨s.port, s.workers, .enter none :: .work :: rest, []⟩
  | lock {timeout rest} :
      Moved s i (.enter timeout :: rest) ⟨s.port, s.workers, .lock timeout :: rest, []⟩
  | leave {f rest} (inside : f = .enter (some 0) ∨ (∃ t, f = .lock t) ∨ ∃ d, f = .wait d)
      (empty : s.port.queued = 0 ∨ ∃ now, s.port.take now = none) :
      Moved s i (f :: rest) (s.leave i rest)
  | took {f rest now t} (inside : (∃ t, f = .lock t) ∨ ∃ d, f = .wait d)
      (taken : s.port.take now = some t) :
      Moved s i (f :: rest) ⟨t.port, s.workers, .run t.item.callback t.canceled :: rest,
        [.took t.item.callback t.canceled]⟩
  | wait {f rest deadline} (inside : (∃ t, f = .lock t) ∨ ∃ d, f = .wait d) :
      Moved s i (f :: rest) ⟨s.port, s.workers, .wait deadline :: rest, []⟩
  | start {x c rest} :
      Moved s i (.run x c :: rest) ⟨s.port, s.workers, .callback x :: rest, [.started x c]⟩
  | lastJoin {joined rest} (all : joined = s.workers) :
      Moved s i (.join joined :: rest) ⟨s.port, 0, .drain :: rest, []⟩
  | nextJoin {joined rest} (ended : s.threads[joined]? = some []) :
      Moved s i (.join joined :: rest) ⟨s.port, s.workers, .join (joined + 1) :: rest, []⟩
  | drain {rest} :
      Moved s i (.drain :: rest) ⟨s.port, s.workers, .enter (some 0) :: .drain :: rest, []⟩

theorem loop_cases (s : PortThreads α) (i looked now : ℕ) (deadline : Option ℕ) {f : Activity α}
    (inside : (∃ t, f = .lock t) ∨ ∃ d, f = .wait d) (rest : List (Activity α)) :
    Moved s i (f :: rest) (s.loop i looked now deadline rest) := by
  unfold loop TaskPort.pass
  cases htake : s.port.take looked with
  | some t => exact .took inside htake
  | none =>
    have hleave : Moved s i (f :: rest) (s.leave i rest) :=
      .leave (.inr inside) (.inr ⟨looked, htake⟩)
    by_cases hterm : s.port.terminated = true
    · simpa [hterm] using hleave
    · cases deadline with
      | none => simpa [hterm] using Moved.wait inside
      | some d =>
        by_cases hd : d ≤ now
        · simpa [hterm, hd] using hleave
        · simpa [hterm, hd] using Moved.wait inside

theorem go_cases {s : PortThreads α} {i entered looked now : ℕ} {stack : List (Activity α)}
    {m : Move α} (h : s.go i entered looked now stack = some m) : Moved s i stack m := by
  cases stack with
  | nil => simp [go] at h
  | cons f rest =>
    cases f with
    | work => cases h; exact .work
    | enter timeout =>
      simp only [go] at h
      split_ifs at h with hempty
      · cases h
        obtain ⟨rfl, hqueued⟩ := hempty
        exact .leave (.inl rfl) (.inl hqueued)
      · cases h; exact .lock
    | lock timeout =>
      cases h
      exact s.loop_cases i looked now _ (.inl ⟨timeout, rfl⟩) rest
    | wait deadline =>
      cases h
      exact s.loop_cases i looked now deadline (.inr ⟨deadline, rfl⟩) rest
    | run x c => cases h; exact .start
    | callback x => simp [go] at h
    | join joined =>
      simp only [go] at h
      split_ifs at h with hall hended
      · cases h; exact .lastJoin hall
      · cases h
        obtain ⟨stack, hstack, hnil⟩ := Option.map_eq_some_iff.mp hended.2
        exact .nextJoin (by rw [hstack, List.isEmpty_iff.mp hnil])
    | drain => cases h; exact .drain

theorem move_cases {s : PortThreads α} {i : ℕ} {stack : List (Activity α)} {a : PortAct α}
    {m : Move α} (h : s.move i stack a = some m) : Moved s i stack m := by
  cases a with
  | submit now delay x =>
    simp only [move] at h
    split_ifs at h with hcall
    cases hsubmit : s.port.submit now delay x with
    | immediate => simp [hsubmit] at h
    | accepted q => simp only [hsubmit] at h; cases h; exact .accept hcall hsubmit
    | refused => simp only [hsubmit] at h; cases h; exact .refuse hcall hsubmit
  | dispatch timeout =>
    simp only [move] at h
    split_ifs at h with hcall
    cases h; exact .dispatch hcall
  | terminate =>
    simp only [move] at h
    split_ifs at h with hcall
    cases h; exact .terminate hcall
  | stop =>
    simp only [move] at h
    split_ifs at h with hcall
    cases h; exact .stop hcall
  | finish =>
    simp only [move] at h
    split at h
    · cases h; exact .finish
    · cases h
  | go entered looked now => exact go_cases h

theorem step_cases {s s' : PortThreads α} {input : ℕ × PortAct α} {ev : List (PortEvent α)}
    (h : step s input = some (s', ev)) :
    ∃ stack m, s.threads[input.1]? = some stack ∧ Moved s input.1 stack m ∧ ev = m.events ∧
      s' = { s with port := m.port, workers := m.workers
                    threads := s.threads.set input.1 m.stack } := by
  obtain ⟨stack, m, hstack, hmove, hev, hs⟩ := step_eq (i := input.1) (a := input.2) h
  exact ⟨stack, m, hstack, move_cases hmove, hev, hs⟩

end PortThreads

end IW4x.Gdk
