import IW4x.Gdk.PortSleep

/-!
# A call of dispatch

A call passes through its loop until it takes a callback or gives up, and waits in between. What
other threads do to the port meanwhile is left open, and so is when a wait ends. In a pass the clock
is read twice, once to look for a callback that is due and then to see whether the deadline has come.
-/

namespace IW4x.Gdk

/-- What a pass finds once it has the lock: the port, and the two readings of the clock. -/
structure Look (α : Type) where
  port : TaskPort α
  looked : ℕ
  now : ℕ

/-- What a pass comes to: how it leaves the port, the callbacks that it runs, and how long it waits
where it does. -/
structure Visit (α : Type) where
  found : TaskPort α
  left : TaskPort α
  ran : List (α × Bool)
  waits : Option ℕ

variable {α : Type}

/-- The deadline of a call that reads the clock as `entered`. -/
def deadlineOf (timeout entered : ℕ) : Option ℕ :=
  if timeout = infinite then none else some (entered + timeout)

/-- The loop of `dispatch`: what it answers, and its passes; `none` while it waits. -/
def dispatchLoop (deadline : Option ℕ) : List (Look α) → Option (Bool × List (Visit α))
  | [] => none
  | l :: rest =>
    match l.port.pass l.looked l.now deadline with
    | .took t => some (true, [⟨l.port, t.port, [(t.item.callback, t.canceled)], none⟩])
    | .gaveUp => some (false, [⟨l.port, l.port, [], none⟩])
    | .waits =>
      (dispatchLoop deadline rest).map fun r =>
        (r.1, ⟨l.port, l.port, [], some (l.port.patience l.now deadline)⟩ :: r.2)

/-- `dispatch`, with the port as it is when `queued_` is read without the lock. -/
def dispatch (timeout : ℕ) (entry : TaskPort α) (entered : ℕ) (looks : List (Look α)) :
    Option (Bool × List (Visit α)) :=
  if timeout = 0 ∧ entry.queued = 0 then some (false, [])
  else dispatchLoop (deadlineOf timeout entered) looks

/-- The clock does not go back from one reading to the next. -/
def Ascending (entered : ℕ) (looks : List (Look α)) : Prop :=
  (entered :: looks.flatMap fun l => [l.looked, l.now]).Pairwise (· ≤ ·)

/-- Nothing is taken and nothing is run. -/
def Idle (visits : List (Visit α)) : Prop := ∀ v ∈ visits, v.left = v.found ∧ v.ran = []

/-- Just one callback is taken from the ring, by the last pass, and it is run. -/
def RanOne (visits : List (Visit α)) : Prop :=
  ∃ earlier v x, visits = earlier ++ [v] ∧ Idle earlier ∧
    v.found.callbacks.Perm (x :: v.left.callbacks) ∧ v.ran = [(x, v.found.canceled)]

/-- No callback in the ring is due at the time. -/
def NoneDue (p : TaskPort α) (now : ℕ) : Prop := ∀ x ∈ p.ring.contents, now < x.due

/-- The port is terminated and empty. -/
def Drained (p : TaskPort α) : Prop := p.terminated = true ∧ p.callbacks = []

/-- What a call owes for its answer. -/
structure Answers (timeout : ℕ) (entry : TaskPort α) (entered : ℕ) (looks : List (Look α))
    (answer : Bool) (visits : List (Visit α)) : Prop where
  took : answer = true ↔ RanOne visits
  idle : answer = false → Idle visits
  infinite : timeout = Gdk.infinite → answer = false →
    ∃ l ∈ looks, visits.getLast?.map Visit.left = some l.port ∧ Drained l.port
  /-- The lock is not taken, or the pass that gives up found nothing that was due. -/
  finite : timeout ≠ Gdk.infinite → answer = false →
    (timeout = 0 ∧ ∀ now, NoneDue entry now) ∨
      ∃ l ∈ looks, visits.getLast?.map Visit.left = some l.port ∧
        (Drained l.port ∨ entered + timeout ≤ l.now ∧ NoneDue l.port l.looked)
  /-- Without the lock the answer is that of a pass through the loop. -/
  unlocked : timeout = 0 → entry.callbacks = [] → ∀ looked now, entered ≤ looked → looked ≤ now →
    dispatchLoop (deadlineOf timeout entered) [⟨entry, looked, now⟩] =
      some (answer, [⟨entry, entry, [], none⟩])

/-! ## The loop -/

theorem not_ranOne_of_idle {visits : List (Visit α)} (idle : Idle visits) : ¬ RanOne visits := by
  rintro ⟨earlier, v, x, rfl, -, -, hran⟩
  have hnone := (idle v (by simp)).2
  rw [hran] at hnone
  cases hnone

theorem Idle.cons {v : Visit α} {visits : List (Visit α)} (idle : Idle visits)
    (hleft : v.left = v.found) (hran : v.ran = []) : Idle (v :: visits) := by
  intro u hu
  rcases List.mem_cons.mp hu with rfl | hu
  · exact ⟨hleft, hran⟩
  · exact idle u hu

theorem RanOne.cons {v : Visit α} {visits : List (Visit α)} (one : RanOne visits)
    (hleft : v.left = v.found) (hran : v.ran = []) : RanOne (v :: visits) := by
  obtain ⟨earlier, u, x, rfl, hidle, hperm, hcall⟩ := one
  exact ⟨v :: earlier, u, x, rfl, hidle.cons hleft hran, hperm, hcall⟩

/-- A pass that gives up leaves a port that is terminated and empty, or has passed its deadline when
nothing was due. -/
theorem gaveUp_spec {p : TaskPort α} {looked now : ℕ} {deadline : Option ℕ}
    (h : p.pass looked now deadline = .gaveUp) :
    Drained p ∨ NoneDue p looked ∧ ∃ d, deadline = some d ∧ d ≤ now := by
  unfold TaskPort.pass at h
  split at h
  · cases h
  · rename_i idle
    split_ifs at h with hterm
    · exact .inl ⟨hterm, (TaskPort.take_terminated hterm).mp idle⟩
    · have hnone := TimedPort.late_of_take_none idle (by simpa using hterm)
      split at h
      · cases h
      · rename_i d
        split_ifs at h with hd
        exact .inr ⟨hnone, d, rfl, hd⟩

theorem took_spec {p : TaskPort α} {looked now : ℕ} {deadline : Option ℕ} {t : TaskPort.Taken α}
    (h : p.pass looked now deadline = .took t) : p.take looked = some t := by
  unfold TaskPort.pass at h
  split at h
  · rename_i u hu
    obtain rfl := TaskPort.Pass.took.inj h
    exact hu
  · split_ifs at h
    split at h
    · cases h
    · split_ifs at h

/-- What the answer of the loop says about its passes. -/
theorem dispatchLoop_spec {deadline : Option ℕ} {looks : List (Look α)} {answer : Bool}
    {visits : List (Visit α)} (h : dispatchLoop deadline looks = some (answer, visits)) :
    (answer = true → RanOne visits) ∧
      (answer = false → Idle visits ∧ ∃ l ∈ looks,
        l.port.pass l.looked l.now deadline = .gaveUp ∧
          visits.getLast?.map Visit.left = some l.port) := by
  induction looks generalizing visits with
  | nil => cases h
  | cons l rest ih =>
    rw [dispatchLoop] at h
    split at h
    · rename_i t htook
      obtain ⟨rfl, rfl⟩ := Prod.mk.inj (Option.some.inj h)
      refine ⟨fun _ => ?_, nofun⟩
      obtain ⟨hperm, hcanceled, -⟩ := TaskPort.take_spec (took_spec htook)
      exact ⟨[], _, t.item.callback, rfl, by simp [Idle], hperm, by rw [hcanceled]⟩
    · rename_i hgave
      obtain ⟨rfl, rfl⟩ := Prod.mk.inj (Option.some.inj h)
      refine ⟨nofun, fun _ => ⟨?_, l, List.mem_cons_self, hgave, rfl⟩⟩
      simp [Idle]
    · obtain ⟨⟨answer', visits'⟩, hrest, heq⟩ := Option.map_eq_some_iff.mp h
      obtain ⟨rfl, rfl⟩ := Prod.mk.inj heq
      obtain ⟨htrue, hfalse⟩ := ih hrest
      refine ⟨fun ha => (htrue ha).cons rfl rfl, fun ha => ?_⟩
      obtain ⟨hidle, k, hk, hgave, hlast⟩ := hfalse ha
      refine ⟨hidle.cons rfl rfl, k, List.mem_cons_of_mem _ hk, hgave, ?_⟩
      cases visits' with
      | nil => cases hlast
      | cons v vs => rw [← hlast, List.getLast?_cons_cons]

theorem empty_loop {entry : TaskPort α} (empty : entry.ring.count = 0) {entered looked now : ℕ}
    (later : entered ≤ looked) (later' : looked ≤ now) :
    dispatchLoop (deadlineOf 0 entered) [⟨entry, looked, now⟩] =
      some (false, [⟨entry, entry, [], none⟩]) := by
  have hdeadline : deadlineOf 0 entered = some entered := rfl
  have hpass : entry.pass looked now (some entered) = .gaveUp := by
    rw [TaskPort.pass, TaskPort.take_empty empty]
    simp [later.trans later']
  rw [hdeadline, dispatchLoop, hpass]

/-- Whatever other threads do and whenever a wait ends, a call answers true if and only if it has
taken just one callback and run it. Without a limit it answers false only on a port that is
terminated and empty; with one also when the deadline has come and nothing was due when it looked.
That `queued_` is the count is what every critical section of the port leaves behind. -/
theorem dispatch_answers {timeout : ℕ} {entry : TaskPort α}
    (counted : entry.queued = entry.ring.count) {entered : ℕ} {looks : List (Look α)}
    {answer : Bool} {visits : List (Visit α)}
    (h : dispatch timeout entry entered looks = some (answer, visits)) :
    Answers timeout entry entered looks answer visits := by
  unfold dispatch at h
  split_ifs at h with hunlocked
  · obtain ⟨rfl, hqueued⟩ := hunlocked
    obtain ⟨rfl, rfl⟩ := Prod.mk.inj (Option.some.inj h)
    have hempty : entry.ring.count = 0 := by omega
    have hnone : entry.ring.contents = [] := entry.ring.contents_eq_nil.mpr hempty
    constructor
    · exact ⟨nofun, fun one => absurd one (not_ranOne_of_idle (by simp [Idle]))⟩
    · exact fun _ => by simp [Idle]
    · exact nofun
    · exact fun _ _ => .inl ⟨rfl, fun now => by simp [NoneDue, hnone]⟩
    · exact fun _ _ looked now later later' => empty_loop hempty later later'
  · obtain ⟨htrue, hfalse⟩ := dispatchLoop_spec h
    constructor
    · refine ⟨htrue, fun one => ?_⟩
      cases answer with
      | true => rfl
      | false => exact absurd one (not_ranOne_of_idle (hfalse rfl).1)
    · exact fun ha => (hfalse ha).1
    · intro hinfinite ha
      obtain ⟨-, l, hl, hgave, hlast⟩ := hfalse ha
      refine ⟨l, hl, hlast, ?_⟩
      rcases gaveUp_spec hgave with hdrained | ⟨-, d, hd, -⟩
      · exact hdrained
      · simp [deadlineOf, hinfinite] at hd
    · intro hfinite ha
      obtain ⟨-, l, hl, hgave, hlast⟩ := hfalse ha
      refine .inr ⟨l, hl, hlast, ?_⟩
      rcases gaveUp_spec hgave with hdrained | ⟨hnone, d, hd, hle⟩
      · exact .inl hdrained
      · rw [deadlineOf, if_neg hfinite] at hd
        obtain rfl := Option.some.inj hd
        exact .inr ⟨hle, hnone⟩
    · intro htimeout hempty
      have hcount : entry.ring.count = 0 := by
        rw [← TaskPort.length_callbacks, hempty, List.length_nil]
      exact absurd ⟨htimeout, counted.trans hcount⟩ hunlocked

def dueAtTen : TaskPort ℕ :=
  match (TaskPort.fresh.openPort .manual : TaskPort ℕ).submit 0 10 7 with
  | .accepted p => p
  | _ => .fresh

/-- A call looks at once, and again at the end of its wait, just before the deadline. -/
def looksTwice : List (Look ℕ) := [⟨dueAtTen, 0, 0⟩, ⟨dueAtTen, 9, 10⟩]

theorem dueAtTen_counted : dueAtTen.queued = dueAtTen.ring.count := by decide

theorem looksTwice_gives_up :
    ∃ visits, dispatch 10 dueAtTen 0 looksTwice = some (false, visits) := ⟨_, rfl⟩

theorem dispatch_answers_ten :
    ∃ visits, Answers 10 dueAtTen 0 looksTwice false visits := by
  obtain ⟨visits, h⟩ := looksTwice_gives_up
  exact ⟨visits, dispatch_answers dueAtTen_counted h⟩

/-- What becomes due between the two readings of the clock is not seen by a call that then gives
up. -/
theorem dispatch_misses_due :
    ¬ ∀ (timeout : ℕ) (entry : TaskPort ℕ) (entered : ℕ) (looks : List (Look ℕ))
      (visits : List (Visit ℕ)), entry.queued = entry.ring.count → Ascending entered looks →
      timeout ≠ infinite → dispatch timeout entry entered looks = some (false, visits) →
      (timeout = 0 ∧ ∀ now, NoneDue entry now) ∨
        ∃ l ∈ looks, visits.getLast?.map Visit.left = some l.port ∧
          (Drained l.port ∨ entered + timeout ≤ l.now ∧ NoneDue l.port l.now) := by
  intro claim
  obtain ⟨visits, h⟩ := looksTwice_gives_up
  have hring : dueAtTen.ring.contents = [⟨7, 10⟩] := by decide
  rcases claim 10 dueAtTen 0 looksTwice visits dueAtTen_counted (by simp [Ascending, looksTwice])
    (by decide) h with ⟨hzero, -⟩ | ⟨l, hl, -, hdrained | ⟨hnow, hnone⟩⟩
  · cases hzero
  · rcases List.mem_cons.mp hl with rfl | hl
    · exact absurd hdrained.1 (by decide)
    · obtain rfl := List.mem_singleton.mp hl
      exact absurd hdrained.1 (by decide)
  · rcases List.mem_cons.mp hl with rfl | hl
    · simp at hnow
    · obtain rfl := List.mem_singleton.mp hl
      have := hnone ⟨7, 10⟩ (by simp [hring])
      simp at this

end IW4x.Gdk
