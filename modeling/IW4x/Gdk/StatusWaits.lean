import IW4x.Lib.Runs
import IW4x.Gdk.AsyncThreads

/-!
# Waiting for an operation

`finish`, `get_status` and `result_size` on one operation, whose slot all of them hold, by any number
of threads. `finish` writes the outcome under the lock and wakes the threads that wait after it has
released it; `get_status` with `wait` sleeps on the condition; without it, and in `result_size`, the
flag and what it stands for are read without the lock. A wait may end although nothing woke it.
-/

namespace IW4x.Gdk

open Runs

/-- Where a thread is. -/
inductive WaitPhase where
  | away
  /-- `get_status`, before it takes the lock. -/
  | entering
  /-- `get_status`, with the lock, at the condition of its loop. -/
  | checking
  /-- `get_status`, in `done.wait`, which has released the lock. -/
  | asleep
  /-- Woken, and about to take the lock. -/
  | woken
  /-- `get_status`, with the lock and what it is going to answer. -/
  | leaving (hr : HResult)
  /-- `get_status` without `wait`, after it has seen the flag. -/
  | loaded
  /-- `result_size`, after it has seen the flag. -/
  | sizing
  /-- `result_size`, after it has read the size. -/
  | sized (n : ℕ)
  /-- `finish`, before it takes the lock. -/
  | finishing (hr : HResult) (n : ℕ)
  /-- `finish`, with the lock, before it looks at the flag. -/
  | storing (hr : HResult) (n : ℕ)
  /-- `finish`, with the lock, after it has written the outcome. -/
  | written
  /-- `finish`, with the lock, after it has set the flag. -/
  | published
  /-- `finish`, before `wake_all`. -/
  | signalling
  deriving DecidableEq

namespace WaitPhase

/-- `wake_all`. -/
def rouse : WaitPhase → WaitPhase
  | .asleep => .woken
  | p => p

def locks : WaitPhase → Bool
  | .checking => true
  | .leaving _ => true
  | .storing _ _ => true
  | .written => true
  | .published => true
  | _ => false

/-- The thread is about to wake the others. -/
def wakes : WaitPhase → Bool
  | .published => true
  | .signalling => true
  | _ => false

/-- How many steps the thread has before it at most, once the operation is completed. -/
def rank : WaitPhase → ℕ
  | .away => 0
  | .leaving _ | .loaded | .sized _ | .storing _ _ | .signalling => 1
  | .checking | .sizing | .finishing _ _ | .published => 2
  | .entering | .woken | .written => 3
  | .asleep => 4

end WaitPhase

structure StatusWaits where
  completed : Bool
  status : HResult
  size : ℕ
  /-- The thread that has the lock of the operation. -/
  lock : Option ℕ
  threads : List WaitPhase

inductive WaitCall where
  | status (wait : Bool)
  | resultSize
  /-- `finish`, for `perform`, `do_work`, `complete` or `cancel`. -/
  | finish (hr : HResult) (n : ℕ)
  deriving DecidableEq

inductive WaitAct where
  | call (c : WaitCall)
  | go
  /-- The wait ends although nothing woke it. -/
  | stir
  deriving DecidableEq

inductive WaitEvent where
  /-- The flag is set, with this outcome. -/
  | completed (hr : HResult) (n : ℕ)
  | answered (i : ℕ) (reply : Reply)
  deriving DecidableEq

namespace StatusWaits

/-- An operation that was just begun, and so many threads. -/
def start (threads : ℕ) : StatusWaits where
  completed := false
  status := pending
  size := 0
  lock := none
  threads := .replicate threads .away

def call (s : StatusWaits) (i : ℕ) : WaitCall → WaitPhase × List WaitEvent
  | .status true => (.entering, [])
  | .status false => if s.completed then (.loaded, []) else (.away, [.answered i (.code pending)])
  | .resultSize => if s.completed then (.sizing, []) else (.away, [.answered i (.code pending)])
  | .finish hr n => (.finishing hr n, [])

/-- A thread goes on. -/
def go (s : StatusWaits) (i : ℕ) : WaitPhase → Option (StatusWaits × WaitPhase × List WaitEvent)
  | .away => none
  | .asleep => none
  | .entering | .woken =>
    if s.lock = none then some ({ s with lock := some i }, .checking, []) else none
  | .checking =>
    if s.completed then some (s, .leaving s.status, [])
    else some ({ s with lock := none }, .asleep, [])
  | .leaving hr => some ({ s with lock := none }, .away, [.answered i (.code hr)])
  | .loaded => some (s, .away, [.answered i (.code s.status)])
  | .sizing => some (s, .sized s.size, [])
  | .sized n => some (s, .away, [.answered i (.size s.status n)])
  | .finishing hr n =>
    if s.lock = none then some ({ s with lock := some i }, .storing hr n, []) else none
  | .storing hr n =>
    if s.completed then some ({ s with lock := none }, .away, [])
    else some ({ s with status := hr, size := n }, .written, [])
  | .written =>
    some ({ s with completed := true }, .published, [.completed s.status s.size])
  | .published => some ({ s with lock := none }, .signalling, [])
  | .signalling => some ({ s with threads := s.threads.map .rouse }, .away, [])

/-- The thread is somewhere else. -/
def put (s : StatusWaits) (i : ℕ) (p : WaitPhase) : StatusWaits :=
  { s with threads := s.threads.set i p }

def step : Step StatusWaits (ℕ × WaitAct) WaitEvent := fun s input =>
  match s.threads[input.1]?, input.2 with
  | some .away, .call c => some (s.put input.1 (s.call input.1 c).1, (s.call input.1 c).2)
  | some .asleep, .stir => some (s.put input.1 .woken, [])
  | some p, .go => (s.go input.1 p).map fun next => (next.1.put input.1 next.2.1, next.2.2)
  | _, _ => none

end StatusWaits

/-- The outcome, as far as the trace has made it known. -/
def settled (tr : List WaitEvent) : Option (HResult × ℕ) :=
  tr.findSome? fun
    | .completed hr n => some (hr, n)
    | .answered _ _ => none

/-- An event is right after what the trace made known: an operation is completed once; until then every
answer is that it is pending, and from then on every answer is its outcome. -/
def Truthful (before : List WaitEvent) : WaitEvent → Prop
  | .completed _ _ => settled before = none
  | .answered _ reply =>
    match settled before with
    | none => reply = .code pending
    | some (hr, n) => reply = .code hr ∨ reply = .size hr n

namespace StatusWaits

/-- What is known of a thread from where it is. -/
def Fine (s : StatusWaits) (i : ℕ) (p : WaitPhase) : Prop :=
  (p.locks = true ↔ s.lock = some i) ∧
    match p with
    | .leaving hr => s.completed = true ∧ hr = s.status
    | .sized n => s.completed = true ∧ n = s.size
    | .loaded | .sizing | .published | .signalling => s.completed = true
    | .written => s.completed = false
    | _ => True

structure Sound (tr : List WaitEvent) (s : StatusWaits) : Prop where
  fine : ∀ i p, s.threads[i]? = some p → s.Fine i p
  /-- The lock belongs to a thread. -/
  owned : ∀ i, s.lock = some i → ∃ p, s.threads[i]? = some p
  outcome : settled tr = if s.completed then some (s.status, s.size) else none
  truthful : ∀ a e b, tr = a ++ e :: b → Truthful a e
  /-- No wake is lost. -/
  woken : s.completed = true → .asleep ∈ s.threads → ∃ p ∈ s.threads, p.wakes = true

theorem settled_append (tr ev : List WaitEvent) :
    settled (tr ++ ev) = (settled tr).or (settled ev) := by
  simp [settled, List.findSome?_append]

@[simp] theorem settled_answered (i : ℕ) (reply : Reply) : settled [.answered i reply] = none := rfl

@[simp] theorem settled_completed (hr : HResult) (n : ℕ) :
    settled [.completed hr n] = some (hr, n) := rfl

theorem start_sound (threads : ℕ) : Sound [] (start threads) where
  fine := by
    intro i p hp
    have hmem : p ∈ List.replicate threads .away := List.mem_of_getElem? hp
    rw [List.eq_of_mem_replicate hmem]
    exact ⟨⟨(nomatch ·), (nomatch ·)⟩, trivial⟩
  owned := fun _ h => nomatch h
  outcome := rfl
  truthful := by
    intro a e b h
    simp at h
  woken := fun h => nomatch h

/-! ## One step -/

def outcome (s : StatusWaits) : Bool × HResult × ℕ := (s.completed, s.status, s.size)

def Right (s : StatusWaits) (reply : Reply) : Prop :=
  if s.completed then reply = .code s.status ∨ reply = .size s.status s.size
  else reply = .code pending

structure Moved (s : StatusWaits) (i : ℕ) (old : WaitPhase) (t : StatusWaits) (new : WaitPhase)
    (ev : List WaitEvent) : Prop where
  /-- The lock is taken if it is free, and released by the thread that has it. -/
  lock : t.lock = s.lock ∨ (s.lock = none ∧ t.lock = some i) ∨ (s.lock = some i ∧ t.lock = none)
  /-- The outcome changes in the hands of the thread that has the lock, and only before the flag is
  set. -/
  outcome : t.outcome = s.outcome ∨ (s.lock = some i ∧ s.completed = false)
  fine : t.Fine i new
  event : (ev = [] ∧ t.completed = s.completed) ∨
    (∃ reply, ev = [.answered i reply] ∧ t.outcome = s.outcome ∧ s.Right reply) ∨
    (ev = [.completed t.status t.size] ∧ s.completed = false ∧ t.completed = true)
  threads : t.threads = s.threads ∨ (t.threads = s.threads.map .rouse ∧ new = .away)
  /-- A thread that is about to wake the others does, or still is. -/
  heir : old.wakes = true → t.threads = s.threads.map .rouse ∧ new = .away ∨ new.wakes = true
  sets : s.completed = false → t.completed = true → new.wakes = true
  sleeps : new = .asleep → t.completed = false

variable {s t : StatusWaits} {i : ℕ} {old new : WaitPhase} {ev : List WaitEvent} {l : Option ℕ}

theorem Moved.quiet (lock : l = s.lock ∨ (s.lock = none ∧ l = some i) ∨ (s.lock = some i ∧ l = none))
    (fine : { s with lock := l }.Fine i new) (heir : old.wakes = true → new.wakes = true)
    (sleeps : new = .asleep → s.completed = false) : Moved s i old { s with lock := l } new [] where
  lock := lock
  outcome := .inl rfl
  fine := fine
  event := .inl ⟨rfl, rfl⟩
  threads := .inl rfl
  heir := fun h => .inr (heir h)
  sets := fun h h' => absurd (h.symm.trans h') (by decide)
  sleeps := sleeps

theorem Moved.answers {reply : Reply} (hold : old.wakes = false)
    (lock : l = s.lock ∨ (s.lock = none ∧ l = some i) ∨ (s.lock = some i ∧ l = none))
    (free : l ≠ some i) (right : s.Right reply) :
    Moved s i old { s with lock := l } .away [.answered i reply] where
  lock := lock
  outcome := .inl rfl
  fine := ⟨⟨(nomatch ·), fun h => absurd h free⟩, trivial⟩
  event := .inr (.inl ⟨reply, rfl, rfl, right⟩)
  threads := .inl rfl
  heir := fun h => absurd (hold.symm.trans h) (by decide)
  sets := fun h h' => absurd (h.symm.trans h') (by decide)
  sleeps := (nomatch ·)

theorem right_of_completed (h : s.completed = true) {reply : Reply}
    (hreply : reply = .code s.status ∨ reply = .size s.status s.size) : s.Right reply := by
  rw [Right, if_pos h]
  exact hreply

theorem right_pending (h : s.completed ≠ true) : s.Right (.code pending) := by
  rw [Right, if_neg h]

theorem Fine.owner {p : WaitPhase} (h : s.Fine i p) (hp : p.locks = true) : s.lock = some i := h.1.mp hp

theorem Fine.other {p : WaitPhase} (h : s.Fine i p) (hp : p.locks = false) : s.lock ≠ some i :=
  fun howner => absurd (hp.symm.trans (h.1.mpr howner)) (by decide)

theorem moved_call (c : WaitCall) (h : s.Fine i .away) :
    Moved s i .away s (s.call i c).1 (s.call i c).2 := by
  have hfree : s.lock ≠ some i := h.other rfl
  have hlocks : ∀ p : WaitPhase, p.locks = false → (p.locks = true ↔ s.lock = some i) := fun p hp =>
    ⟨fun hp' => absurd (hp.symm.trans hp') (by decide), fun howner => absurd howner hfree⟩
  cases c with
  | finish hr n => exact .quiet (.inl rfl) ⟨hlocks _ rfl, trivial⟩ (nomatch ·) (nomatch ·)
  | resultSize =>
    simp only [call]
    split_ifs with hdone
    · exact .quiet (.inl rfl) ⟨hlocks _ rfl, hdone⟩ (nomatch ·) (nomatch ·)
    · exact .answers rfl (.inl rfl) hfree (right_pending hdone)
  | status wait =>
    cases wait with
    | true => exact .quiet (.inl rfl) ⟨hlocks _ rfl, trivial⟩ (nomatch ·) (nomatch ·)
    | false =>
      simp only [call]
      split_ifs with hdone
      · exact .quiet (.inl rfl) ⟨hlocks _ rfl, hdone⟩ (nomatch ·) (nomatch ·)
      · exact .answers rfl (.inl rfl) hfree (right_pending hdone)

theorem moved_stir (h : s.Fine i .asleep) : Moved s i .asleep s .woken [] :=
  .quiet (.inl rfl) ⟨⟨(nomatch ·), fun howner => absurd howner (h.other rfl)⟩, trivial⟩ (nomatch ·)
    (nomatch ·)

theorem moved_go (h : s.Fine i old) (hgo : s.go i old = some (t, new, ev)) :
    Moved s i old t new ev := by
  cases old with
  | away => cases hgo
  | asleep => cases hgo
  | entering =>
    simp only [go] at hgo
    split_ifs at hgo with hfree
    cases hgo
    exact .quiet (.inr (.inl ⟨hfree, rfl⟩)) ⟨⟨fun _ => rfl, fun _ => rfl⟩, trivial⟩ (nomatch ·)
      (nomatch ·)
  | woken =>
    simp only [go] at hgo
    split_ifs at hgo with hfree
    cases hgo
    exact .quiet (.inr (.inl ⟨hfree, rfl⟩)) ⟨⟨fun _ => rfl, fun _ => rfl⟩, trivial⟩ (nomatch ·)
      (nomatch ·)
  | finishing hr n =>
    simp only [go] at hgo
    split_ifs at hgo with hfree
    cases hgo
    exact .quiet (.inr (.inl ⟨hfree, rfl⟩)) ⟨⟨fun _ => rfl, fun _ => rfl⟩, trivial⟩ (nomatch ·)
      (nomatch ·)
  | checking =>
    have howner := h.owner rfl
    simp only [go] at hgo
    split_ifs at hgo with hdone
    · cases hgo
      exact .quiet (.inl rfl) ⟨⟨fun _ => howner, fun _ => rfl⟩, hdone, rfl⟩ (nomatch ·) (nomatch ·)
    · cases hgo
      exact .quiet (.inr (.inr ⟨howner, rfl⟩)) ⟨⟨(nomatch ·), (nomatch ·)⟩, trivial⟩ (nomatch ·)
        fun _ => by simpa using hdone
  | leaving hr =>
    obtain ⟨hdone, rfl⟩ := h.2
    cases hgo
    exact .answers rfl (.inr (.inr ⟨h.owner rfl, rfl⟩)) (nomatch ·)
      (right_of_completed hdone (.inl rfl))
  | loaded =>
    cases hgo
    exact .answers rfl (.inl rfl) (h.other rfl) (right_of_completed h.2 (.inl rfl))
  | sizing =>
    cases hgo
    exact .quiet (.inl rfl)
      ⟨⟨(nomatch ·), fun howner => absurd howner (h.other rfl)⟩, h.2, rfl⟩ (nomatch ·) (nomatch ·)
  | sized n =>
    obtain ⟨hdone, rfl⟩ := h.2
    cases hgo
    exact .answers rfl (.inl rfl) (h.other rfl) (right_of_completed hdone (.inr rfl))
  | storing hr n =>
    have howner := h.owner rfl
    simp only [go] at hgo
    split_ifs at hgo with hdone
    · cases hgo
      exact .quiet (.inr (.inr ⟨howner, rfl⟩)) ⟨⟨(nomatch ·), (nomatch ·)⟩, trivial⟩ (nomatch ·)
        (nomatch ·)
    · cases hgo
      have hpending : s.completed = false := by simpa using hdone
      exact
        { lock := .inl rfl
          outcome := .inr ⟨howner, hpending⟩
          fine := ⟨⟨fun _ => howner, fun _ => rfl⟩, hpending⟩
          event := .inl ⟨rfl, rfl⟩
          threads := .inl rfl
          heir := (nomatch ·)
          sets := fun h h' => absurd (h.symm.trans h') (by decide)
          sleeps := (nomatch ·) }
  | written =>
    have howner := h.owner rfl
    cases hgo
    exact
      { lock := .inl rfl
        outcome := .inr ⟨howner, h.2⟩
        fine := ⟨⟨fun _ => howner, fun _ => rfl⟩, rfl⟩
        event := .inr (.inr ⟨rfl, h.2, rfl⟩)
        threads := .inl rfl
        heir := (nomatch ·)
        sets := fun _ _ => rfl
        sleeps := (nomatch ·) }
  | published =>
    cases hgo
    exact .quiet (.inr (.inr ⟨h.owner rfl, rfl⟩)) ⟨⟨(nomatch ·), (nomatch ·)⟩, h.2⟩ (fun _ => rfl)
      (nomatch ·)
  | signalling =>
    cases hgo
    exact
      { lock := .inl rfl
        outcome := .inl rfl
        fine := ⟨⟨(nomatch ·), fun howner => absurd howner (h.other rfl)⟩, trivial⟩
        event := .inl ⟨rfl, rfl⟩
        threads := .inr ⟨rfl, rfl⟩
        heir := fun _ => .inl ⟨rfl, rfl⟩
        sets := fun h h' => absurd (h.symm.trans h') (by decide)
        sleeps := (nomatch ·) }

theorem step_moved (sound : ∀ i p, s.threads[i]? = some p → s.Fine i p) {input : ℕ × WaitAct}
    (hstep : step s input = some (t, ev)) : ∃ old u new, s.threads[input.1]? = some old ∧
      t = u.put input.1 new ∧ Moved s input.1 old u new ev := by
  obtain ⟨i, act⟩ := input
  unfold step at hstep
  split at hstep
  · rename_i c hold hact
    cases hstep
    exact ⟨_, s, _, hold, rfl, moved_call c (sound i _ hold)⟩
  · rename_i hold hact
    cases hstep
    exact ⟨_, s, _, hold, rfl, moved_stir (sound i _ hold)⟩
  · rename_i p hold hact
    obtain ⟨⟨u, new, ev'⟩, hgo, heq⟩ := Option.map_eq_some_iff.mp hstep
    cases heq
    exact ⟨_, u, new, hold, rfl, moved_go (sound i _ hold) hgo⟩
  · cases hstep

/-! ## Runs -/

theorem Moved.lock_other (moved : Moved s i old t new ev) {j : ℕ} (hne : j ≠ i) :
    t.lock = some j ↔ s.lock = some j := by
  have hij : some i ≠ some j := fun h => hne (Option.some.inj h).symm
  rcases moved.lock with h | ⟨hs, ht⟩ | ⟨hs, ht⟩
  · rw [h]
  · rw [hs, ht]
    simp [hij]
  · rw [hs, ht]
    simp [hij]

/-- What is known of another thread. -/
theorem Moved.fine_other (moved : Moved s i old t new ev) {j : ℕ} (hne : j ≠ i) {p : WaitPhase}
    (h : s.Fine j p) : t.Fine j p := by
  obtain ⟨hlocks, hphase⟩ := h
  refine ⟨hlocks.trans (moved.lock_other hne).symm, ?_⟩
  rcases moved.outcome with hsame | ⟨howner, hpending⟩
  · obtain ⟨hcompleted, hrest⟩ := Prod.mk.inj hsame
    obtain ⟨hstatus, hsize⟩ := Prod.mk.inj hrest
    cases p <;> simp only [hcompleted, hstatus, hsize] <;> exact hphase
  · have hother : p.locks ≠ true := by
      intro hp
      exact hne (Option.some.inj ((hlocks.mp hp).symm.trans howner))
    cases p with
    | leaving hr => exact absurd rfl hother
    | published => exact absurd rfl hother
    | written => exact absurd rfl hother
    | loaded => exact absurd (hpending.symm.trans hphase) (by decide)
    | sizing => exact absurd (hpending.symm.trans hphase) (by decide)
    | sized n => exact absurd (hpending.symm.trans hphase.1) (by decide)
    | signalling => exact absurd (hpending.symm.trans hphase) (by decide)
    | _ => trivial

theorem Fine.rouse {p : WaitPhase} (h : s.Fine i p) : s.Fine i p.rouse := by
  cases p with
  | asleep => exact ⟨⟨(nomatch ·), fun howner => absurd howner (h.other rfl)⟩, trivial⟩
  | _ => exact h

/-- Where the threads are after a step. -/
theorem Moved.at (moved : Moved s i old t new ev) (hold : s.threads[i]? = some old) {j : ℕ}
    {p : WaitPhase} (hp : (t.put i new).threads[j]? = some p) :
    (j = i ∧ p = new) ∨ (j ≠ i ∧ ∃ q, s.threads[j]? = some q ∧ (p = q ∨ p = q.rouse)) := by
  have hi : i < s.threads.length := (List.getElem?_eq_some_iff.mp hold).1
  by_cases hij : j = i
  · subst hij
    have hlength : j < t.threads.length := by
      rcases moved.threads with h | ⟨h, -⟩
      · rw [h]
        exact hi
      · rw [h, List.length_map]
        exact hi
    rw [put, List.getElem?_set_self hlength] at hp
    exact .inl ⟨rfl, (Option.some.inj hp).symm⟩
  · right
    refine ⟨hij, ?_⟩
    rw [put, List.getElem?_set_ne (fun h => hij h.symm)] at hp
    rcases moved.threads with h | ⟨h, -⟩
    · rw [h] at hp
      exact ⟨p, hp, .inl rfl⟩
    · rw [h, List.getElem?_map] at hp
      obtain ⟨q, hq, rfl⟩ := Option.map_eq_some_iff.mp hp
      exact ⟨q, hq, .inr rfl⟩

theorem Moved.fine_all (moved : Moved s i old t new ev) (hold : s.threads[i]? = some old)
    (sound : ∀ j p, s.threads[j]? = some p → s.Fine j p) {j : ℕ} {p : WaitPhase}
    (hp : (t.put i new).threads[j]? = some p) : (t.put i new).Fine j p := by
  rcases moved.at hold hp with ⟨rfl, rfl⟩ | ⟨hne, q, hq, rfl | rfl⟩
  · exact moved.fine
  · exact moved.fine_other hne (sound j p hq)
  · exact (moved.fine_other hne (sound j q hq)).rouse

theorem Moved.owned (moved : Moved s i old t new ev) (hold : s.threads[i]? = some old)
    (owned : ∀ j, s.lock = some j → ∃ p, s.threads[j]? = some p) (j : ℕ)
    (hj : (t.put i new).lock = some j) : ∃ p, (t.put i new).threads[j]? = some p := by
  have hlength : (t.put i new).threads.length = s.threads.length := by
    rw [put, List.length_set]
    rcases moved.threads with h | ⟨h, -⟩
    · rw [h]
    · rw [h, List.length_map]
  have hlt : j < s.threads.length := by
    by_cases hij : j = i
    · rw [hij]
      exact (List.getElem?_eq_some_iff.mp hold).1
    · obtain ⟨p, hp⟩ := owned j ((moved.lock_other hij).mp hj)
      exact (List.getElem?_eq_some_iff.mp hp).1
  exact ⟨_, List.getElem?_eq_getElem (hlength ▸ hlt)⟩

/-- No wake is lost in a step. -/
theorem Moved.woken (moved : Moved s i old t new ev) (hold : s.threads[i]? = some old)
    (woken : s.completed = true → .asleep ∈ s.threads → ∃ p ∈ s.threads, p.wakes = true)
    (hdone : t.completed = true) (hasleep : .asleep ∈ (t.put i new).threads) :
    ∃ p ∈ (t.put i new).threads, p.wakes = true := by
  have hi : i < s.threads.length := (List.getElem?_eq_some_iff.mp hold).1
  have hnew : new ≠ .asleep := fun h => absurd ((moved.sleeps h).symm.trans hdone) (by decide)
  rcases moved.threads with hsame | ⟨hrouse, haway⟩
  · have hput : (t.put i new).threads = s.threads.set i new := by rw [put, hsame]
    rw [hput] at hasleep ⊢
    have hmem : new ∈ s.threads.set i new := List.mem_set hi new
    have hbefore : .asleep ∈ s.threads := by
      rcases List.mem_or_eq_of_mem_set hasleep with h | h
      · exact h
      · exact absurd h.symm hnew
    by_cases hpast : s.completed = true
    · obtain ⟨p, hp, hwakes⟩ := woken hpast hbefore
      obtain ⟨j, hj⟩ := List.mem_iff_getElem?.mp hp
      by_cases hij : j = i
      · subst hij
        obtain rfl : p = old := Option.some.inj (hj.symm.trans hold)
        rcases moved.heir hwakes with ⟨hmap, -⟩ | hnext
        · rw [hsame] at hmap
          rw [hmap] at hbefore
          obtain ⟨q, -, hq⟩ := List.mem_map.mp hbefore
          cases q <;> cases hq
        · exact ⟨new, hmem, hnext⟩
      · refine ⟨p, List.mem_iff_getElem?.mpr ⟨j, ?_⟩, hwakes⟩
        rw [List.getElem?_set_ne (fun h => hij h.symm)]
        exact hj
    · exact ⟨new, hmem, moved.sets (by simpa using hpast) hdone⟩
  · rw [put, hrouse, haway] at hasleep
    rcases List.mem_or_eq_of_mem_set hasleep with h | h
    · obtain ⟨q, -, hq⟩ := List.mem_map.mp h
      cases q <;> cases hq
    · cases h

theorem right_truthful {tr : List WaitEvent} {reply : Reply} (i : ℕ) (h : s.Right reply)
    (houtcome : settled tr = if s.completed then some (s.status, s.size) else none) :
    Truthful tr (.answered i reply) := by
  unfold Truthful
  unfold Right at h
  rw [houtcome]
  split_ifs at h ⊢ with hdone
  · exact h
  · exact h

/-- What a step makes known is right, and says what the state says. -/
theorem Moved.trace (moved : Moved s i old t new ev) {tr : List WaitEvent}
    (houtcome : settled tr = if s.completed then some (s.status, s.size) else none) :
    (settled (tr ++ ev) = if t.completed then some (t.status, t.size) else none) ∧
      ∀ a e b, ev = a ++ e :: b → Truthful (tr ++ a) e := by
  have hone : ∀ {x e : WaitEvent} {a b : List WaitEvent}, [x] = a ++ e :: b → a = [] ∧ e = x := by
    intro x e a b h
    cases a with
    | nil => exact ⟨rfl, (List.cons.inj h).1.symm⟩
    | cons y a => simp at h
  rcases moved.event with ⟨rfl, hcompleted⟩ | ⟨reply, rfl, hsame, hright⟩ | ⟨rfl, hpending, hdone⟩
  · refine ⟨?_, by simp⟩
    rw [List.append_nil, houtcome, hcompleted]
    rcases moved.outcome with hsame | ⟨-, hpending⟩
    · obtain ⟨-, hrest⟩ := Prod.mk.inj hsame
      obtain ⟨hstatus, hsize⟩ := Prod.mk.inj hrest
      rw [hstatus, hsize]
    · rw [hpending]
      rfl
  · obtain ⟨hcompleted, hrest⟩ := Prod.mk.inj hsame
    obtain ⟨hstatus, hsize⟩ := Prod.mk.inj hrest
    constructor
    · rw [settled_append, settled_answered, Option.or_none, houtcome, hcompleted, hstatus, hsize]
    · intro a e b h
      obtain ⟨rfl, rfl⟩ := hone h
      rw [List.append_nil]
      exact right_truthful i hright houtcome
  · rw [hpending] at houtcome
    constructor
    · rw [settled_append, houtcome, settled_completed, hdone]
      rfl
    · intro a e b h
      obtain ⟨rfl, rfl⟩ := hone h
      rw [List.append_nil]
      exact houtcome

theorem step_sound {tr : List WaitEvent} (h : Sound tr s) {input : ℕ × WaitAct}
    (hstep : step s input = some (t, ev)) : Sound (tr ++ ev) t := by
  obtain ⟨old, u, new, hold, rfl, moved⟩ := step_moved h.fine hstep
  obtain ⟨houtcome, htruthful⟩ := moved.trace h.outcome
  exact
    { fine := fun _ _ => moved.fine_all hold h.fine
      owned := moved.owned hold h.owned
      outcome := houtcome
      truthful := split_append h.truthful htruthful
      woken := moved.woken hold h.woken }

theorem reaches_sound {threads : ℕ} {tr : List WaitEvent} {s : StatusWaits}
    (h : Reaches step always (start threads) tr s) : Sound tr s :=
  h.invariant (start_sound threads) fun _ _ _ _ _ hs _ hstep => step_sound hs hstep

/-! ## What the callers see -/

/-- However the threads interleave, an operation is completed once; until then every answer is that it
is pending, and from then on every answer is the outcome with which it was completed, be it read with
the lock or without. One thread at most has the lock, and when the operation is completed no thread
sleeps unless another is about to wake it. -/
theorem waits_truthful {threads : ℕ} {tr : List WaitEvent} {s : StatusWaits}
    (h : Reaches step always (start threads) tr s) :
    (∀ a e b, tr = a ++ e :: b → Truthful a e) ∧
    (∀ (i j : ℕ) (p q : WaitPhase), s.threads[i]? = some p → s.threads[j]? = some q →
      p.locks = true → q.locks = true → i = j) ∧
    (s.completed = true → .asleep ∈ s.threads → ∃ p ∈ s.threads, p.wakes = true) := by
  have hsound := reaches_sound h
  refine ⟨hsound.truthful, ?_, hsound.woken⟩
  intro i j p q hi hj hp hq
  have hown := (hsound.fine i p hi).owner hp
  have hown' := (hsound.fine j q hj).owner hq
  exact Option.some.inj (hown.symm.trans hown')

/-- A thread sleeps; another polls and completes the operation, and is about to wake the first. -/
def sleeperInputs : List (ℕ × WaitAct) :=
  [(0, .call (.status true)), (0, .go), (0, .go), (1, .call (.status false)),
    (1, .call (.finish 0 7)), (1, .go), (1, .go), (1, .go), (1, .go)]

def sleeperState : StatusWaits where
  completed := true
  status := 0
  size := 7
  lock := none
  threads := [.asleep, .signalling]

theorem sleeper_run : execute step (start 2) sleeperInputs =
    some (sleeperState, [.answered 1 (.code pending), .completed 0 7]) := rfl

theorem waits_truthful_sleeper :
    Truthful [.answered 1 (.code pending)] (.completed 0 7) ∧
      ∃ p ∈ sleeperState.threads, p.wakes = true := by
  have hall := waits_truthful (reaches_of_run sleeper_run)
  exact ⟨hall.1 _ _ [] rfl, hall.2.2 rfl List.mem_cons_self⟩

/-! ## Every wait ends -/

/-- How many steps a thread has before it at most, once the operation is completed. -/
def left (s : StatusWaits) (i : ℕ) : ℕ := (s.threads[i]?.map WaitPhase.rank).getD 0

theorem left_of {p : WaitPhase} (h : s.threads[i]? = some p) : s.left i = p.rank := by
  rw [left, h]
  rfl

theorem left_le (s : StatusWaits) (i : ℕ) : s.left i ≤ 4 := by
  cases h : s.threads[i]? with
  | none => simp [left, h]
  | some p =>
    rw [left_of h]
    cases p <;> simp [WaitPhase.rank]

theorem rank_rouse_le (p : WaitPhase) : p.rouse.rank ≤ p.rank := by
  cases p <;> simp [WaitPhase.rouse, WaitPhase.rank]

theorem go_rank (h : s.Fine i old) (hdone : s.completed = true)
    (hgo : s.go i old = some (t, new, ev)) : new.rank < old.rank := by
  cases old with
  | away => cases hgo
  | asleep => cases hgo
  | written => exact absurd (h.2.symm.trans hdone) (by decide)
  | entering | woken | finishing hr n =>
    simp only [go] at hgo
    split_ifs at hgo
    cases hgo
    simp [WaitPhase.rank]
  | checking | storing hr n =>
    simp only [go, hdone, if_true] at hgo
    cases hgo
    simp [WaitPhase.rank]
  | _ =>
    cases hgo
    simp [WaitPhase.rank]

/-- No call begins. -/
def Inward : StatusWaits → ℕ × WaitAct → Prop := fun _ input => ∀ c, input.2 ≠ .call c

theorem Moved.completed (moved : Moved s i old t new ev) (hdone : s.completed = true) :
    t.completed = true := by
  rcases moved.outcome with hsame | ⟨-, hpending⟩
  · exact (Prod.mk.inj hsame).1.trans hdone
  · exact absurd (hpending.symm.trans hdone) (by decide)

theorem step_rank {tr : List WaitEvent} (h : Sound tr s) (hdone : s.completed = true)
    {input : ℕ × WaitAct} (hin : Inward s input) (hstep : step s input = some (t, ev)) :
    ∃ old u new, s.threads[input.1]? = some old ∧ t = u.put input.1 new ∧
      Moved s input.1 old u new ev ∧ new.rank < old.rank := by
  obtain ⟨i, act⟩ := input
  unfold step at hstep
  split at hstep
  · rename_i c hold hact
    exact absurd hact (hin c)
  · rename_i hold hact
    cases hstep
    exact ⟨_, s, _, hold, rfl, moved_stir (h.fine i _ hold), by decide⟩
  · rename_i p hold hact
    obtain ⟨⟨u, new, ev'⟩, hgo, heq⟩ := Option.map_eq_some_iff.mp hstep
    cases heq
    have hfine := h.fine i p hold
    exact ⟨_, u, new, hold, rfl, moved_go hfine hgo, go_rank hfine hdone hgo⟩
  · cases hstep

/-- It brings its own thread nearer to its end, and no other farther from it. -/
theorem step_left {tr : List WaitEvent} (h : Sound tr s) (hdone : s.completed = true)
    {input : ℕ × WaitAct} (hin : Inward s input) (hstep : step s input = some (t, ev)) :
    t.completed = true ∧ ∀ j, t.left j + (if input.1 = j then 1 else 0) ≤ s.left j := by
  obtain ⟨old, u, new, hold, rfl, moved, hlt⟩ := step_rank h hdone hin hstep
  refine ⟨moved.completed hdone, fun j => ?_⟩
  have hone : ∀ {p : WaitPhase}, (u.put input.1 new).threads[j]? = some p →
      p.rank + (if input.1 = j then 1 else 0) ≤ s.left j := by
    intro p hp
    rcases moved.at hold hp with ⟨rfl, rfl⟩ | ⟨hne, q, hq, hrouse⟩
    · rw [left_of hold, if_pos rfl]
      exact hlt
    · rw [left_of hq, if_neg (Ne.symm hne)]
      rcases hrouse with rfl | rfl
      · exact le_rfl
      · exact rank_rouse_le q
  cases hp : (u.put input.1 new).threads[j]? with
  | some p =>
    rw [left_of hp]
    exact hone hp
  | none =>
    rw [left, hp]
    split_ifs with hij
    · subst hij
      rw [left_of hold]
      exact (Nat.zero_le new.rank).trans_lt hlt
    · exact Nat.zero_le _

theorem steps_le_left {tr : List WaitEvent} (h : Sound tr s) (hdone : s.completed = true)
    {is : List (ℕ × WaitAct)} {last : StatusWaits × List WaitEvent}
    (hrun : execute step s is = some last) (hin : ∀ input ∈ is, Inward s input) (j : ℕ) :
    is.countP (fun input => input.1 = j) ≤ s.left j := by
  induction is generalizing s tr last with
  | nil => exact Nat.zero_le _
  | cons input is ih =>
    cases hstep : step s input with
    | none => simp [execute, hstep] at hrun
    | some next =>
      obtain ⟨t, ev⟩ := next
      simp only [execute, hstep] at hrun
      obtain ⟨rest, hrest, -⟩ := Option.map_eq_some_iff.mp hrun
      obtain ⟨hnext, hleft⟩ := step_left h hdone (hin input List.mem_cons_self) hstep
      have hle := ih (step_sound h hstep) hnext hrest fun x hx => hin x (List.mem_cons_of_mem _ hx)
      have hfirst := hleft j
      simp only [List.countP_cons, decide_eq_true_eq]
      omega

theorem go_of_locks {p : WaitPhase} (hp : p.locks = true ∨ p.wakes = true) :
    ∃ next, s.go i p = some next := by
  cases p with
  | checking | storing hr n =>
    simp only [go]
    split_ifs
    · exact ⟨_, rfl⟩
    · exact ⟨_, rfl⟩
  | leaving hr => exact ⟨_, rfl⟩
  | written => exact ⟨_, rfl⟩
  | published => exact ⟨_, rfl⟩
  | signalling => exact ⟨_, rfl⟩
  | _ =>
    rcases hp with h | h
    · cases h
    · cases h

theorem idle_of_go {p : WaitPhase} (hfree : s.lock = none) (hstuck : s.go i p = none) :
    p = .away ∨ p = .asleep := by
  cases p with
  | away => exact .inl rfl
  | asleep => exact .inr rfl
  | entering | woken | finishing hr n => simp [go, hfree] at hstuck
  | checking | storing hr n =>
    simp only [go] at hstuck
    split_ifs at hstuck
  | _ => simp [go] at hstuck

theorem go_none {p : WaitPhase} (hp : s.threads[i]? = some p) (hstep : step s (i, .go) = none) :
    s.go i p = none := by
  have hmap : ((s.go i p).map fun next => (next.1.put i next.2.1, next.2.2)) = none := by
    unfold step at hstep
    simp only [hp] at hstep
    cases p <;> exact hstep
  exact Option.map_eq_none_iff.mp hmap

/-- Where the threads are when none can go on. -/
theorem idle_of_stuck {tr : List WaitEvent} (h : Sound tr s)
    (hstuck : ∀ i, step s (i, .go) = none) {p : WaitPhase} (hp : p ∈ s.threads) :
    p = .away ∨ (p = .asleep ∧ s.completed = false) := by
  have hnone : ∀ {j : ℕ} {q : WaitPhase}, s.threads[j]? = some q → s.go j q = none := fun hq =>
    go_none hq (hstuck _)
  have hbusy : ∀ q ∈ s.threads, ¬ (q.locks = true ∨ q.wakes = true) := by
    intro q hq hlocks
    obtain ⟨j, hj⟩ := List.mem_iff_getElem?.mp hq
    obtain ⟨next, hnext⟩ := go_of_locks (s := s) (i := j) hlocks
    rw [hnone hj] at hnext
    cases hnext
  have hfree : s.lock = none := by
    cases howner : s.lock with
    | none => rfl
    | some j =>
      obtain ⟨q, hq⟩ := h.owned j howner
      exact absurd (.inl ((h.fine j q hq).1.mpr howner)) (hbusy q (List.mem_of_getElem? hq))
  obtain ⟨j, hj⟩ := List.mem_iff_getElem?.mp hp
  rcases idle_of_go hfree (hnone hj) with haway | hasleep
  · exact .inl haway
  · right
    refine ⟨hasleep, ?_⟩
    by_contra hcompleted
    obtain ⟨q, hq, hwakes⟩ := h.woken (by simpa using hcompleted) (hasleep ▸ hp)
    exact hbusy q hq (.inr hwakes)

/-- Every call ends. Once the operation is completed, each thread makes four steps at most before
another call begins; and where no thread can go on, every call has returned, but for those that sleep
because the operation is not completed. -/
theorem waits_end {threads : ℕ} {tr : List WaitEvent} {s : StatusWaits}
    (h : Reaches step always (start threads) tr s) :
    (s.completed = true → ∀ is last, execute step s is = some last →
      (∀ input ∈ is, Inward s input) → ∀ i, is.countP (fun input => input.1 = i) ≤ 4) ∧
    ((∀ i, step s (i, .go) = none) →
      ∀ p ∈ s.threads, p = .away ∨ (p = .asleep ∧ s.completed = false)) := by
  have hsound := reaches_sound h
  constructor
  · intro hdone is last hrun hin i
    exact (steps_le_left hsound hdone hrun hin i).trans (s.left_le i)
  · intro hstuck p hp
    exact idle_of_stuck hsound hstuck hp

/-- The sleeper is woken, takes the lock and answers. -/
def sleeperWakes : List (ℕ × WaitAct) := [(1, .go), (0, .go), (0, .go), (0, .go)]

theorem sleeper_wakes : (execute step sleeperState sleeperWakes).map Prod.snd =
    some [.answered 0 (.code 0)] := by
  decide

theorem waits_end_sleeper : (∀ input ∈ sleeperWakes, Inward sleeperState input) ∧
    sleeperWakes.countP (fun input => input.1 = 0) ≤ 4 := by
  obtain ⟨last, hrun, -⟩ := Option.map_eq_some_iff.mp sleeper_wakes
  have hin : ∀ input ∈ sleeperWakes, Inward sleeperState input := by
    simp [sleeperWakes, Inward]
  exact ⟨hin, (waits_end (reaches_of_run sleeper_run)).1 rfl sleeperWakes last hrun hin 0⟩

end StatusWaits

end IW4x.Gdk
