import IW4x.Lib.Runs
import IW4x.Gdk.TaskPort

/-!
# A task port in time

The threads that dispatch a port, with the clock, how long each waits and which of them a wake
reaches. A thread is away from the port (outside, or in a callback), asleep in `ready_.wait`, or woken
and on its way to the lock. What it does between taking the lock and releasing it is one step.

A pass reads the clock twice, to look for a callback that is due and then for the deadline and the
wait; before the first pass `dispatch` reads it once more.

A callback carries a stamp, which is not in the source and which the port does not look at: when it
was submitted, with which delay, and as which submission. A thread that sleeps carries the number of
the submissions before it went to sleep, which is not in the source either.
-/

namespace IW4x.Gdk

open Runs

structure Stamped (α : Type) where
  run : α
  made : ℕ
  delay : ℕ
  number : ℕ
  deriving DecidableEq, Inhabited

def infinite : ℕ := 2 ^ 32 - 1

namespace TaskPort

variable {α : Type}

def earliest (p : TaskPort α) : ℕ :=
  p.ring.contents.tail.foldl (fun r x => if x.due < r then x.due else r) (p.ring.get 0).due

/-- How long `dispatch` waits; the times are cut to 32 bits. -/
def patience (p : TaskPort α) (now : ℕ) (deadline : Option ℕ) : ℕ :=
  let w := match deadline with
    | none => infinite
    | some d => (d - now) % 2 ^ 32
  if p.ring.count = 0 then w
  else
    let e := p.earliest
    if now < e then
      let d := (e - now) % 2 ^ 32
      if deadline = none ∨ d < w then d else w
    else 0

end TaskPort

/-- Where a thread is; without a deadline it dispatches with `INFINITE`. -/
inductive Stance where
  /-- Outside `dispatch`, or in a callback. -/
  | away
  /-- In `ready_.wait`, until it is woken or the wait expires. -/
  | asleep (deadline expires : Option ℕ) (seen : ℕ)
  /-- Woken, and about to take the lock. -/
  | woken (deadline : Option ℕ)
  deriving DecidableEq

structure TimedPort (α : Type) where
  port : TaskPort (Stamped α)
  workers : ℕ
  threads : List Stance
  clock : ℕ
  /-- The submissions that have released the lock and not yet called `wake_one`. -/
  wakes : ℕ
  submitted : ℕ

inductive TimedAct (α : Type) where
  | submit (now delay : ℕ) (x : α)
  /-- `wake_one` reaches this thread, or there is none that waits. -/
  | wake (i : Option ℕ)
  /-- A thread calls `dispatch`. -/
  | dispatch (i entered looked now : ℕ) (timeout : Option ℕ)
  /-- A thread that waited goes on. -/
  | resume (i looked now : ℕ)
  | terminate
  | stop
  deriving DecidableEq

inductive TimedEvent (α : Type) where
  | accepted (t : Stamped α)
  | refused (x : α)
  /-- A callback was taken at this time, from a port that was terminated or not. -/
  | took (t : Stamped α) (now : ℕ) (terminated : Bool)
  deriving DecidableEq

namespace Stance

/-- `wake_all`. -/
def rouse : Stance → Stance
  | .asleep d _ _ => .woken d
  | st => st

def isAsleep : Stance → Bool
  | .asleep .. => true
  | _ => false

end Stance

namespace TimedPort

variable {α : Type}

/-- A port right after `open`, with any slots, and threads that are all away. -/
def start (m : DispatchMode) (p : TaskPort (Stamped α)) (workers threads clock : ℕ) :
    TimedPort α where
  port := p.openPort m
  workers := workers
  threads := .replicate threads .away
  clock := clock
  wakes := 0
  submitted := 0

/-- One pass of a thread through the loop of `dispatch`. -/
def pass (s : TimedPort α) (i looked now : ℕ) (deadline : Option ℕ) :
    TimedPort α × List (TimedEvent α) :=
  match s.port.pass looked now deadline with
  | .took t =>
    ({ s with port := t.port, threads := s.threads.set i .away, clock := looked },
      [.took t.item.callback looked s.port.terminated])
  | .gaveUp => ({ s with threads := s.threads.set i .away, clock := now }, [])
  | .waits =>
    let w := s.port.patience now deadline
    let expires := if w = infinite then none else some (now + w)
    ({ s with threads := s.threads.set i (.asleep deadline expires s.submitted), clock := now }, [])

/-- A step. The clock does not go back. -/
def step : Step (TimedPort α) (TimedAct α) (TimedEvent α)
  | s, .submit now delay x =>
    if s.clock ≤ now then
      let t : Stamped α := ⟨x, now, delay, s.submitted⟩
      match s.port.submit now delay t with
      | .accepted p => some ({ s with
          port := p
          clock := now
          wakes := s.wakes + 1
          submitted := s.submitted + 1 }, [.accepted t])
      | .refused => some ({ s with clock := now }, [.refused x])
      | .immediate => none
    else none
  | s, .wake none =>
    if 0 < s.wakes ∧ s.threads.all (!·.isAsleep) then
      some ({ s with wakes := s.wakes - 1 }, [])
    else none
  | s, .wake (some i) =>
    match s.threads[i]? with
    | some (.asleep d _ _) =>
      if 0 < s.wakes then
        some ({ s with threads := s.threads.set i (.woken d), wakes := s.wakes - 1 }, [])
      else none
    | _ => none
  | s, .dispatch i entered looked now timeout =>
    if s.clock ≤ entered ∧ entered ≤ looked ∧ looked ≤ now ∧ s.threads[i]? = some .away then
      if timeout = some 0 ∧ s.port.queued = 0 then some (s, [])
      else some (s.pass i looked now (timeout.map (entered + ·)))
    else none
  | s, .resume i looked now =>
    match s.threads[i]? with
    | some (.asleep d _ _) | some (.woken d) =>
      if s.clock ≤ looked ∧ looked ≤ now then some (s.pass i looked now d) else none
    | _ => none
  | s, .terminate =>
    some ({ s with port := s.port.terminate, threads := s.threads.map Stance.rouse }, [])
  | s, .stop =>
    some ({ s with port := s.port.stop, threads := s.threads.map Stance.rouse }, [])

/-! ## What a step does -/

inductive Passed (s : TimedPort α) (i looked now : ℕ) (deadline : Option ℕ) :
    TimedPort α → List (TimedEvent α) → Prop
  | took {t} (taken : s.port.take looked = some t) :
      Passed s i looked now deadline
        { s with port := t.port, threads := s.threads.set i .away, clock := looked }
        [.took t.item.callback looked s.port.terminated]
  | gaveUp (idle : s.port.take looked = none)
      (gives : s.port.terminated = true ∨ ∃ d, deadline = some d ∧ d ≤ now) :
      Passed s i looked now deadline { s with threads := s.threads.set i .away, clock := now } []
  | waits (idle : s.port.take looked = none) (live : s.port.terminated = false)
      (early : ∀ d, deadline = some d → now < d) :
      Passed s i looked now deadline
        { s with
          threads := s.threads.set i (.asleep deadline
            (if s.port.patience now deadline = infinite then none
              else some (now + s.port.patience now deadline)) s.submitted)
          clock := now } []

theorem pass_cases (s : TimedPort α) (i looked now : ℕ) (deadline : Option ℕ) :
    Passed s i looked now deadline (s.pass i looked now deadline).1
      (s.pass i looked now deadline).2 := by
  unfold pass TaskPort.pass
  cases htake : s.port.take looked with
  | some t => exact .took htake
  | none =>
    cases hterm : s.port.terminated with
    | true => exact .gaveUp htake (.inl hterm)
    | false =>
      cases deadline with
      | none => exact .waits htake hterm (by simp)
      | some d =>
        simp only [Bool.false_eq_true, if_false]
        by_cases hd : d ≤ now
        · rw [if_pos hd]
          exact .gaveUp htake (.inr ⟨d, rfl, hd⟩)
        · rw [if_neg hd]
          exact .waits htake hterm fun d' hd' => by
            obtain rfl := Option.some.inj hd'
            exact not_le.mp hd

inductive Stepped (s : TimedPort α) : TimedAct α → TimedPort α → List (TimedEvent α) → Prop
  | accepted {now delay x p} (later : s.clock ≤ now)
      (taken : s.port.submit now delay ⟨x, now, delay, s.submitted⟩ = .accepted p) :
      Stepped s (.submit now delay x)
        { s with port := p, clock := now, wakes := s.wakes + 1, submitted := s.submitted + 1 }
        [.accepted ⟨x, now, delay, s.submitted⟩]
  | refused {now delay x} (later : s.clock ≤ now) :
      Stepped s (.submit now delay x) { s with clock := now } [.refused x]
  | unheard (silent : ∀ st ∈ s.threads, st.isAsleep = false) :
      Stepped s (.wake none) { s with wakes := s.wakes - 1 } []
  | woke {i d e n} (asleep : s.threads[i]? = some (.asleep d e n)) :
      Stepped s (.wake (some i))
        { s with threads := s.threads.set i (.woken d), wakes := s.wakes - 1 } []
  | empty {i entered looked now timeout} : Stepped s (.dispatch i entered looked now timeout) s []
  | entered {i entered looked now timeout t ev} (later : s.clock ≤ looked) (after : looked ≤ now)
      (away : s.threads[i]? = some .away)
      (passed : Passed s i looked now (timeout.map (entered + ·)) t ev) :
      Stepped s (.dispatch i entered looked now timeout) t ev
  | resumed {i looked now d t ev} (later : s.clock ≤ looked) (after : looked ≤ now)
      (waited : s.threads[i]? = some (.woken d) ∨ ∃ e n, s.threads[i]? = some (.asleep d e n))
      (passed : Passed s i looked now d t ev) : Stepped s (.resume i looked now) t ev
  | terminated {p a} (port : a = .terminate ∧ p = s.port.terminate ∨ a = .stop ∧ p = s.port.stop) :
      Stepped s a { s with port := p, threads := s.threads.map Stance.rouse } []

theorem step_cases {s t : TimedPort α} {a : TimedAct α} {ev : List (TimedEvent α)}
    (h : step s a = some (t, ev)) : Stepped s a t ev := by
  cases a with
  | submit now delay x =>
    simp only [step] at h
    split_ifs at h with hclock
    split at h
    · rename_i p hp
      obtain ⟨rfl, rfl⟩ := Prod.mk.inj (Option.some.inj h)
      exact .accepted hclock hp
    · obtain ⟨rfl, rfl⟩ := Prod.mk.inj (Option.some.inj h)
      exact .refused hclock
    · cases h
  | wake i =>
    cases i with
    | none =>
      simp only [step] at h
      split_ifs at h with hwake
      obtain ⟨rfl, rfl⟩ := Prod.mk.inj (Option.some.inj h)
      exact .unheard (by simpa using hwake.2)
    | some i =>
      simp only [step] at h
      split at h
      · rename_i hasleep
        split_ifs at h
        obtain ⟨rfl, rfl⟩ := Prod.mk.inj (Option.some.inj h)
        exact .woke hasleep
      · cases h
  | dispatch i entered looked now timeout =>
    simp only [step] at h
    split_ifs at h with hready hempty
    · obtain ⟨rfl, rfl⟩ := Prod.mk.inj (Option.some.inj h)
      exact .empty
    · obtain ⟨rfl, rfl⟩ := Prod.mk.inj (Option.some.inj h)
      obtain ⟨hentered, hlooked, hnow, haway⟩ := hready
      exact .entered (hentered.trans hlooked) hnow haway (s.pass_cases i looked now _)
  | resume i looked now =>
    simp only [step] at h
    split at h
    · rename_i d e n hasleep
      split_ifs at h with hclock
      obtain ⟨rfl, rfl⟩ := Prod.mk.inj (Option.some.inj h)
      exact .resumed hclock.1 hclock.2 (.inr ⟨e, n, hasleep⟩) (s.pass_cases i looked now d)
    · rename_i d hwoken
      split_ifs at h with hclock
      obtain ⟨rfl, rfl⟩ := Prod.mk.inj (Option.some.inj h)
      exact .resumed hclock.1 hclock.2 (.inl hwoken) (s.pass_cases i looked now d)
    · cases h
  | terminate =>
    obtain ⟨rfl, rfl⟩ := Prod.mk.inj (Option.some.inj h)
    exact .terminated (.inl ⟨rfl, rfl⟩)
  | stop =>
    obtain ⟨rfl, rfl⟩ := Prod.mk.inj (Option.some.inj h)
    exact .terminated (.inr ⟨rfl, rfl⟩)

end TimedPort

end IW4x.Gdk
