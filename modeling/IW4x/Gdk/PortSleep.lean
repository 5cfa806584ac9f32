import IW4x.Gdk.PortOrder

/-!
# How long the workers sleep

A worker sleeps until the earliest due time as it is when it goes to sleep, and a submission wakes one
thread. A thread that then leaves its wait, to run a callback or to return, wakes no other: if callbacks
stay queued that were submitted after the other workers went to sleep, these may all sleep past them.
-/

namespace IW4x.Gdk

open Runs

namespace TaskPort

variable {α : Type}

/-- The due times that are compared keep the least. -/
theorem foldl_due (l : List (Item α)) (r : ℕ) :
    l.foldl (fun r x => if x.due < r then x.due else r) r ≤ r ∧
      (∀ x ∈ l, l.foldl (fun r x => if x.due < r then x.due else r) r ≤ x.due) ∧
      (l.foldl (fun r x => if x.due < r then x.due else r) r = r ∨
        ∃ x ∈ l, l.foldl (fun r x => if x.due < r then x.due else r) r = x.due) := by
  induction l generalizing r with
  | nil => simp
  | cons y l ih =>
    obtain ⟨hle, hall, hsome⟩ := ih (if y.due < r then y.due else r)
    rw [List.foldl_cons]
    have hmin : (if y.due < r then y.due else r) ≤ r ∧ (if y.due < r then y.due else r) ≤ y.due := by
      split_ifs <;> omega
    refine ⟨hle.trans hmin.1, fun x hx => ?_, ?_⟩
    · rcases List.mem_cons.mp hx with rfl | hx
      · exact hle.trans hmin.2
      · exact hall x hx
    · rcases hsome with heq | ⟨x, hx, heq⟩
      · rw [heq]
        split_ifs
        · exact .inr ⟨y, List.mem_cons_self, rfl⟩
        · exact .inl rfl
      · exact .inr ⟨x, List.mem_cons_of_mem _ hx, heq⟩

theorem earliest_spec {p : TaskPort α} (h : 0 < p.ring.count) :
    (∀ x ∈ p.ring.contents, p.earliest ≤ x.due) ∧ ∃ x ∈ p.ring.contents, p.earliest = x.due := by
  obtain ⟨hle, hall, hsome⟩ := foldl_due p.ring.contents.tail (p.ring.get 0).due
  have hhead := p.ring.head_contents h
  have hfirst : p.ring.get 0 ∈ p.ring.contents := p.ring.get_mem_contents h
  constructor
  · intro x hx
    rw [hhead] at hx
    rcases List.mem_cons.mp hx with rfl | hx
    · exact hle
    · exact hall x hx
  · rcases hsome with heq | ⟨x, hx, heq⟩
    · exact ⟨_, hfirst, heq⟩
    · exact ⟨x, List.mem_of_mem_tail hx, heq⟩

theorem earliest_mono {p q : TaskPort α} (hq : 0 < q.ring.count)
    (h : ∀ x ∈ q.ring.contents, x ∈ p.ring.contents) :
    0 < p.ring.count ∧ p.earliest ≤ q.earliest := by
  obtain ⟨x, hx, heq⟩ := (earliest_spec hq).2
  have hp : 0 < p.ring.count := by
    rw [← RingBuffer.length_contents]
    exact List.length_pos_of_mem (h x hx)
  exact ⟨hp, heq ▸ (earliest_spec hp).1 x (h x hx)⟩

end TaskPort

namespace TimedPort

variable {α : Type}

/-- A wake is outstanding: a submission has not called it, or a thread was woken and is on its way. -/
def Stirring (wakes : ℕ) (threads : List Stance) : Prop :=
  0 < wakes ∨ ∃ d, .woken d ∈ threads

def WorkerSleeps (workers : ℕ) (threads : List Stance) : Prop :=
  ∃ i < workers, ∃ d e n, threads[i]? = some (.asleep d e n)

/-- A worker sleeps no longer than until the earliest due time. -/
def WorkerCovers (workers : ℕ) (p : TaskPort (Stamped α)) (threads : List Stance) : Prop :=
  ∃ i < workers, ∃ d e n, threads[i]? = some (.asleep d (some e) n) ∧ e ≤ p.earliest

/-- No worker oversleeps: where the port is not terminated, callbacks are queued and no wake is
outstanding, if a worker sleeps then one sleeps no longer than until the earliest due time. -/
def NoneOversleeps (workers wakes : ℕ) (p : TaskPort (Stamped α)) (threads : List Stance) : Prop :=
  p.terminated = false → 0 < p.ring.count → ¬ Stirring wakes threads → WorkerSleeps workers threads →
    WorkerCovers workers p threads

/-- The callbacks that stay in the ring when the first that is due is taken. -/
def staying (p : TaskPort (Stamped α)) (now : ℕ) : List (Item (Stamped α)) :=
  p.ring.contents.eraseP fun x => x.due ≤ now

/-- Nothing is due when a pass looks for it, and a callback is due before the wait is reckoned. -/
def FallsDue (p : TaskPort (Stamped α)) (looked now : ℕ) : Prop :=
  (∀ x ∈ p.ring.contents, looked < x.due) ∧ ∃ x ∈ p.ring.contents, x.due < now

instance (p : TaskPort (Stamped α)) (looked now : ℕ) : Decidable (FallsDue p looked now) :=
  inferInstanceAs (Decidable (_ ∧ _))

def GoesBack (s : TimedPort α) (i looked now : ℕ) (deadline : Option ℕ) : Prop :=
  i < s.workers ∧ (∀ x ∈ s.port.ring.contents, looked < x.due) ∧ ∀ d, deadline = some d → now < d

/-- A thread may leave its wait: no callback stays queued, or another wake is outstanding, or no other
worker sleeps, or another went to sleep after all that stays had been submitted. -/
def MayLeave (s : TimedPort α) (i looked : ℕ) : Prop :=
  staying s.port looked = [] ∨
    (0 < s.wakes ∨ ∃ j, j ≠ i ∧ ∃ d, s.threads[j]? = some (.woken d)) ∨
    (∀ j < s.workers, j ≠ i → ∀ d e n, s.threads[j]? ≠ some (.asleep d e n)) ∨
    ∃ j < s.workers, j ≠ i ∧ ∃ d e n, s.threads[j]? = some (.asleep d e n) ∧
      ∀ x ∈ staying s.port looked, x.callback.number < n

/-- No delay is `INFINITE`. No worker sees a callback fall due between the two readings of its pass;
and a thread that goes on after a wait goes back to sleep, or may leave. -/
def Relieved (s : TimedPort α) : TimedAct α → Prop
  | .submit _ delay _ => delay < infinite
  | .dispatch i _ looked now _ =>
    s.port.terminated = true ∨ (i < s.workers → ¬ FallsDue s.port looked now)
  | .resume i looked now =>
    s.port.terminated = true ∨ (i < s.workers → ¬ FallsDue s.port looked now) ∧
      ∀ d, (s.threads[i]? = some (.woken d) ∨ ∃ e n, s.threads[i]? = some (.asleep d e n)) →
        GoesBack s i looked now d ∨ MayLeave s i looked
  | _ => True

/-! ## What a thread leaves -/

theorem late_of_take_none {p : TaskPort α} {now : ℕ} (idle : p.take now = none)
    (live : p.terminated = false) : ∀ x ∈ p.ring.contents, now < x.due := by
  intro x hx
  obtain ⟨i, hi, rfl⟩ := List.mem_map.mp hx
  simp only [TaskPort.take, Option.map_eq_none_iff, TaskPort.due, live] at idle
  split_ifs at idle with hempty
  · have := List.mem_range.mp hi
    omega
  · split at idle
    · rename_i hfirst
      have hnot := List.find?_range_eq_none.mp hfirst
      simpa using hnot i (List.mem_range.mp hi)
    · cases idle
    · cases idle

theorem staying_perm {p : TaskPort (Stamped α)} {now : ℕ} {t : TaskPort.Taken (Stamped α)}
    (h : p.take now = some t) (live : p.terminated = false) :
    t.port.ring.contents.Perm (staying p now) := by
  unfold staying
  rcases TaskPort.take_split h with ⟨hcontents, hdue⟩ |
    ⟨x, between, after, hcontents, hrest, -, hdue, hx, hbetween⟩
  · rw [hcontents, List.eraseP_cons_of_pos (by simpa using hdue live)]
  · have hskip : ∀ y ∈ x :: between, ¬ (decide (y.due ≤ now) = true) := by
      intro y hy
      rcases List.mem_cons.mp hy with rfl | hy
      · simpa using hx
      · simpa using hbetween y hy
    rw [hcontents, hrest, List.eraseP_append_right _ hskip,
      List.eraseP_cons_of_pos (by simpa using hdue)]
    exact List.perm_middle

theorem staying_of_late {p : TaskPort (Stamped α)} {now : ℕ}
    (late : ∀ x ∈ p.ring.contents, now < x.due) : staying p now = p.ring.contents :=
  List.eraseP_of_forall_not fun x hx => by simpa using late x hx

theorem due_of_take {p : TaskPort (Stamped α)} {now : ℕ} {t : TaskPort.Taken (Stamped α)}
    (h : p.take now = some t) (live : p.terminated = false) :
    ∃ x ∈ p.ring.contents, x.due ≤ now := by
  rcases TaskPort.take_split h with ⟨hcontents, hdue⟩ | ⟨_, _, _, hcontents, _, _, hdue, _⟩
  · exact ⟨t.item, by simp [hcontents], hdue live⟩
  · exact ⟨t.item, by simp [hcontents], hdue⟩

/-- A thread that goes to sleep while callbacks are queued sleeps until the first is due at most. -/
theorem patience_le {p : TaskPort (Stamped α)} {now : ℕ} (deadline : Option ℕ)
    (late : ∀ x ∈ p.ring.contents, now ≤ x.due)
    (timely : ∀ x ∈ p.ring.contents, x.due < now + infinite) {x : Item (Stamped α)}
    (hx : x ∈ p.ring.contents) :
    p.patience now deadline < infinite ∧ now + p.patience now deadline ≤ x.due := by
  have hcount : 0 < p.ring.count := by
    rw [← RingBuffer.length_contents]
    exact List.length_pos_of_mem hx
  obtain ⟨hall, y, hy, heq⟩ := TaskPort.earliest_spec hcount
  have hfirst := hall x hx
  have hlate := late y hy
  have htimely := timely y hy
  rw [← heq] at hlate htimely
  have hinfinite : infinite = 2 ^ 32 - 1 := rfl
  have hcut : (p.earliest - now) % 2 ^ 32 = p.earliest - now := by
    refine Nat.mod_eq_of_lt ?_
    omega
  unfold TaskPort.patience
  rw [if_neg (by omega)]
  simp only [hcut]
  split_ifs with hlater hshort
  · omega
  · simp only [not_or, not_lt] at hshort
    cases deadline with
    | none => exact absurd rfl hshort.1
    | some d =>
      have := hshort.2
      simp only at this ⊢
      omega
  · omega

/-! ## What keeps the workers from oversleeping -/

theorem noneOversleeps_of_terminated {workers wakes : ℕ} {p : TaskPort (Stamped α)}
    {threads : List Stance} (h : p.terminated = true) : NoneOversleeps workers wakes p threads := by
  intro live
  rw [h] at live
  cases live

theorem noneOversleeps_of_stirring {workers wakes : ℕ} {p : TaskPort (Stamped α)}
    {threads : List Stance} (h : Stirring wakes threads) : NoneOversleeps workers wakes p threads :=
  fun _ _ hquiet => absurd h hquiet

theorem noneOversleeps_of_covers {workers wakes j : ℕ} {p : TaskPort (Stamped α)}
    {threads : List Stance} {d e : Option ℕ} {n : ℕ} (hj : j < workers)
    (asleep : threads[j]? = some (.asleep d e n))
    (covers : ∀ x ∈ p.ring.contents, ∃ t, e = some t ∧ t ≤ x.due) :
    NoneOversleeps workers wakes p threads := by
  intro _ hcount _ _
  obtain ⟨x, hx, heq⟩ := (TaskPort.earliest_spec hcount).2
  obtain ⟨t, rfl, hle⟩ := covers x hx
  exact ⟨j, hj, d, t, n, asleep, heq ▸ hle⟩

theorem NoneOversleeps.fewer {workers wakes : ℕ} {p q : TaskPort (Stamped α)} {threads : List Stance}
    (none : NoneOversleeps workers wakes p threads) (terminated : q.terminated = p.terminated)
    (fewer : ∀ x ∈ q.ring.contents, x ∈ p.ring.contents) :
    NoneOversleeps workers wakes q threads := by
  intro live hcount hquiet hsleeps
  obtain ⟨hpos, hle⟩ := TaskPort.earliest_mono hcount fewer
  obtain ⟨i, hi, d, e, n, hasleep, he⟩ := none (terminated ▸ live) hpos hquiet hsleeps
  exact ⟨i, hi, d, e, n, hasleep, he.trans hle⟩

theorem getElem?_set_of_some {threads : List Stance} {i j : ℕ} {st x y : Stance}
    (hi : threads[i]? = some x) (hy : (threads.set i st)[j]? = some y) :
    j = i ∧ y = st ∨ j ≠ i ∧ threads[j]? = some y := by
  by_cases hj : j = i
  · subst hj
    rw [List.getElem?_set_self', hi] at hy
    exact .inl ⟨rfl, (Option.some.inj hy).symm⟩
  · rw [List.getElem?_set_ne (Ne.symm hj)] at hy
    exact .inr ⟨hj, hy⟩

theorem NoneOversleeps.other {workers wakes i : ℕ} {p : TaskPort (Stamped α)} {threads : List Stance}
    {x st : Stance} (none : NoneOversleeps workers wakes p (threads.set i st))
    (hi : threads[i]? = some x) (other : workers ≤ i) (st' : Stance) (hst : ∀ d, st ≠ .woken d) :
    NoneOversleeps workers wakes p (threads.set i st') := by
  intro live hcount hquiet ⟨j, hj, d, e, n, hasleep⟩
  have hsame : ∀ k, k ≠ i → (threads.set i st')[k]? = (threads.set i st)[k]? := by
    intro k hk
    rw [List.getElem?_set_ne (Ne.symm hk), List.getElem?_set_ne (Ne.symm hk)]
  have hquiet' : ¬ Stirring wakes (threads.set i st) := by
    rintro (hwakes | ⟨d, hwoken⟩)
    · exact hquiet (.inl hwakes)
    · obtain ⟨k, hk⟩ := List.mem_iff_getElem?.mp hwoken
      rcases getElem?_set_of_some hi hk with ⟨-, heq⟩ | ⟨hne, -⟩
      · exact hst d heq.symm
      · rw [← hsame k hne] at hk
        exact hquiet (.inr ⟨d, List.mem_of_getElem? hk⟩)
  rw [hsame j (by omega)] at hasleep
  obtain ⟨k, hk, d, e, n, hcovers, hle⟩ := none live hcount hquiet' ⟨j, hj, d, e, n, hasleep⟩
  exact ⟨k, hk, d, e, n, by rwa [hsame k (by omega)], hle⟩

/-! ## What the workers watch -/

/-- The callbacks in the ring are numbered and not due so late that the cut of a wait to 32 bits shows;
and a worker that sleeps covers all that had been submitted when it went to sleep. -/
structure Watchful (s : TimedPort α) : Prop where
  timely : ∀ x ∈ s.port.ring.contents, x.due < s.clock + infinite
  numbered : ∀ x ∈ s.port.ring.contents, x.callback.number < s.submitted
  seen : ∀ (i : ℕ) d e n, s.threads[i]? = some (.asleep d e n) → n ≤ s.submitted
  watches : ∀ i < s.workers, ∀ d e n, s.threads[i]? = some (.asleep d e n) →
    ∀ x ∈ s.port.ring.contents, x.callback.number < n → ∃ t, e = some t ∧ t ≤ x.due

theorem Watchful.start (m : DispatchMode) (p : TaskPort (Stamped α)) (workers threads clock : ℕ) :
    Watchful (start m p workers threads clock) := by
  have hnothing : (TimedPort.start m p workers threads clock).port.ring.contents = [] := by
    rw [← List.length_eq_zero_iff, RingBuffer.length_contents]
    rfl
  have haway : ∀ (i : ℕ) d e n, (TimedPort.start m p workers threads clock).threads[i]? ≠
      some (.asleep d e n) := by
    intro i d e n h
    have := List.eq_of_mem_replicate (List.mem_of_getElem? h)
    cases this
  constructor
  · simp [hnothing]
  · simp [hnothing]
  · exact fun i d e n h => absurd h (haway i d e n)
  · exact fun i _ d e n h => absurd h (haway i d e n)

theorem Watchful.quiet {s t : TimedPort α} (watchful : Watchful s) (clock : s.clock ≤ t.clock)
    (submitted : t.submitted = s.submitted) (workers : t.workers = s.workers)
    (fewer : ∀ x ∈ t.port.ring.contents, x ∈ s.port.ring.contents)
    (asleep : ∀ (i : ℕ) d e n, t.threads[i]? = some (.asleep d e n) →
      s.threads[i]? = some (.asleep d e n)) : Watchful t := by
  constructor
  · intro x hx
    have := watchful.timely x (fewer x hx)
    omega
  · intro x hx
    rw [submitted]
    exact watchful.numbered x (fewer x hx)
  · intro i d e n h
    rw [submitted]
    exact watchful.seen i d e n (asleep i d e n h)
  · intro i hi d e n h x hx
    exact watchful.watches i (workers ▸ hi) d e n (asleep i d e n h) x (fewer x hx)

theorem asleep_of_set {threads : List Stance} {i : ℕ} {x st : Stance} (hi : threads[i]? = some x)
    (awake : st.isAsleep = false) (j : ℕ) (d e : Option ℕ) (n : ℕ)
    (h : (threads.set i st)[j]? = some (.asleep d e n)) : threads[j]? = some (.asleep d e n) := by
  rcases getElem?_set_of_some hi h with ⟨-, rfl⟩ | ⟨-, h⟩
  · cases awake
  · exact h

section Passes

variable {s t : TimedPort α} {i looked now : ℕ} {d : Option ℕ} {ev : List (TimedEvent α)} {x : Stance}

theorem Watchful.covers (watchful : Watchful s) (later : s.clock ≤ now)
    (late : ∀ x ∈ s.port.ring.contents, looked < x.due) (prompt : ¬ FallsDue s.port looked now) :
    ∀ x ∈ s.port.ring.contents, ∃ t, (if s.port.patience now d = infinite then none
      else some (now + s.port.patience now d)) = some t ∧ t ≤ x.due := by
  intro x hx
  have hlate : ∀ y ∈ s.port.ring.contents, now ≤ y.due := by
    intro y hy
    by_contra hnot
    exact prompt ⟨late, y, hy, not_le.mp hnot⟩
  have htimely : ∀ y ∈ s.port.ring.contents, y.due < now + infinite := by
    intro y hy
    have := watchful.timely y hy
    omega
  obtain ⟨hshort, hle⟩ := patience_le d hlate htimely hx
  exact ⟨_, if_neg hshort.ne, hle⟩

theorem Watchful.passed (watchful : Watchful s) (hi : s.threads[i]? = some x)
    (later : s.clock ≤ looked) (after : looked ≤ now)
    (prompt : s.port.terminated = true ∨ (i < s.workers → ¬ FallsDue s.port looked now))
    (h : Passed s i looked now d t ev) : Watchful t := by
  cases h with
  | took htake =>
    exact watchful.quiet later rfl rfl (TaskPort.take_subset htake) (asleep_of_set hi rfl)
  | gaveUp _ _ =>
    exact watchful.quiet (later.trans after) rfl rfl (fun _ hx => hx) (asleep_of_set hi rfl)
  | waits idle live early =>
    constructor
    · intro y hy
      have := watchful.timely y hy
      dsimp only
      omega
    · exact watchful.numbered
    · intro j d' e n hj
      rcases getElem?_set_of_some hi hj with ⟨-, heq⟩ | ⟨-, hj⟩
      · obtain ⟨-, -, rfl⟩ := Stance.asleep.inj heq
        exact le_rfl
      · exact watchful.seen j d' e n hj
    · intro j hworker d' e n hj y hy hnumber
      rcases getElem?_set_of_some hi hj with ⟨rfl, heq⟩ | ⟨-, hj⟩
      · obtain ⟨rfl, rfl, rfl⟩ := Stance.asleep.inj heq
        have hprompt := prompt.resolve_left (by simp [live]) hworker
        exact watchful.covers (later.trans after) (late_of_take_none idle live) hprompt y hy
      · exact watchful.watches j hworker d' e n hj y hy hnumber

/-- A thread that may leave its wait leaves nothing that all the others sleep past. -/
theorem MayLeave.noneOversleeps (may : MayLeave s i looked) (watchful : Watchful s)
    {q : TaskPort (Stamped α)} {x : Stance} (hi : s.threads[i]? = some x)
    (stay : ∀ y ∈ q.ring.contents, y ∈ staying s.port looked) :
    NoneOversleeps s.workers s.wakes q (s.threads.set i .away) := by
  rcases may with hnothing | hstirring | hawake | ⟨j, hj, hne, d, e, n, hasleep, hseen⟩
  · intro _ hcount _ _
    obtain ⟨y, hy, -⟩ := (TaskPort.earliest_spec hcount).2
    have := stay y hy
    rw [hnothing] at this
    cases this
  · refine noneOversleeps_of_stirring ?_
    rcases hstirring with hwakes | ⟨j, hne, d, hwoken⟩
    · exact .inl hwakes
    · refine .inr ⟨d, List.mem_of_getElem? (i := j) ?_⟩
      rwa [List.getElem?_set_ne (Ne.symm hne)]
  · rintro _ _ _ ⟨j, hj, d, e, n, hasleep⟩
    rcases getElem?_set_of_some hi hasleep with ⟨-, heq⟩ | ⟨hne, hasleep⟩
    · cases heq
    · exact absurd hasleep (hawake j hj hne d e n)
  · refine noneOversleeps_of_covers hj (d := d) (e := e) (n := n) ?_ ?_
    · rwa [List.getElem?_set_ne (Ne.symm hne)]
    · intro y hy
      have hstay := stay y hy
      exact watchful.watches j hj d e n hasleep y (List.mem_of_mem_eraseP hstay) (hseen y hstay)

/-- A pass after which no worker oversleeps: what is left when the thread leaves is no matter, and if
it is a worker that goes to sleep it covers the rest. -/
theorem Passed.noneOversleeps (h : Passed s i looked now d t ev) (watchful : Watchful s)
    (hi : s.threads[i]? = some x) (later : s.clock ≤ looked) (after : looked ≤ now)
    (prompt : s.port.terminated = true ∨ (i < s.workers → ¬ FallsDue s.port looked now))
    (took : ∀ y, s.port.take looked = some y →
      NoneOversleeps s.workers s.wakes y.port (s.threads.set i .away))
    (idle : s.port.take looked = none → ¬ GoesBack s i looked now d →
      NoneOversleeps s.workers s.wakes s.port (s.threads.set i .away)) :
    NoneOversleeps t.workers t.wakes t.port t.threads := by
  cases h with
  | took htake => exact took _ htake
  | gaveUp hidle gives =>
    by_cases hterm : s.port.terminated = true
    · exact noneOversleeps_of_terminated hterm
    · obtain ⟨e, rfl, he⟩ := gives.resolve_left hterm
      refine idle hidle fun hback => ?_
      have := hback.2.2 e rfl
      omega
  | waits hidle live early =>
    have hlate := late_of_take_none hidle live
    by_cases hworker : i < s.workers
    · have hprompt := prompt.resolve_left (by simp [live]) hworker
      exact noneOversleeps_of_covers hworker
        (List.getElem?_set_self (List.getElem?_eq_some_iff.mp hi).1)
        (watchful.covers (later.trans after) hlate hprompt)
    · have hnone := idle hidle fun hback => hworker hback.1
      exact hnone.other hi (not_lt.mp hworker) _ (by simp)

end Passes

/-! ## Runs -/

structure InTime (s : TimedPort α) : Prop where
  watchful : Watchful s
  none : NoneOversleeps s.workers s.wakes s.port s.threads

theorem inTime_start (m : DispatchMode) (p : TaskPort (Stamped α)) (workers threads clock : ℕ) :
    InTime (start m p workers threads clock) := by
  refine ⟨.start m p workers threads clock, fun _ hcount => ?_⟩
  exact absurd hcount (Nat.lt_irrefl 0)

theorem Watchful.accepted {s : TimedPort α} (watchful : Watchful s) {now delay : ℕ} {x : α}
    {p : TaskPort (Stamped α)} (later : s.clock ≤ now) (bounded : delay < infinite)
    (taken : s.port.submit now delay ⟨x, now, delay, s.submitted⟩ = .accepted p) :
    Watchful { s with port := p, clock := now, wakes := s.wakes + 1, submitted := s.submitted + 1 } := by
  have hcontents := TaskPort.submit_contents taken
  have hmem : ∀ y ∈ p.ring.contents, y ∈ s.port.ring.contents ∨
      y = ⟨⟨x, now, delay, s.submitted⟩, now + delay⟩ := by
    intro y hy
    rw [hcontents] at hy
    simpa using hy
  constructor
  · intro y hy
    rcases hmem y hy with hy | rfl
    · have := watchful.timely y hy
      dsimp only
      omega
    · dsimp only
      omega
  · intro y hy
    rcases hmem y hy with hy | rfl
    · exact Nat.lt_succ_of_lt (watchful.numbered y hy)
    · exact Nat.lt_succ_self _
  · exact fun i d e n h => Nat.le_succ_of_le (watchful.seen i d e n h)
  · intro i hi d e n h y hy hnumber
    rcases hmem y hy with hy | rfl
    · exact watchful.watches i hi d e n h y hy hnumber
    · exact absurd (watchful.seen i d e n h) (not_le.mpr hnumber)

theorem asleep_of_rouse (threads : List Stance) (i : ℕ) (d e : Option ℕ) (n : ℕ) :
    (threads.map Stance.rouse)[i]? ≠ some (.asleep d e n) := by
  rw [List.getElem?_map]
  cases threads[i]? with
  | none => simp
  | some st => cases st <;> simp [Stance.rouse]

theorem InTime.step {s t : TimedPort α} {a : TimedAct α} {ev : List (TimedEvent α)}
    (inTime : InTime s) (relieved : Relieved s a) (h : Stepped s a t ev) : InTime t := by
  obtain ⟨watchful, none⟩ := inTime
  cases h with
  | accepted later taken =>
    exact ⟨watchful.accepted later relieved taken,
      noneOversleeps_of_stirring (.inl (Nat.succ_pos _))⟩
  | refused later =>
    exact ⟨watchful.quiet later rfl rfl (fun _ hx => hx) (fun _ _ _ _ h => h), none⟩
  | unheard silent =>
    refine ⟨watchful.quiet le_rfl rfl rfl (fun _ hx => hx) (fun _ _ _ _ h => h), ?_⟩
    rintro _ _ _ ⟨j, -, d, e, n, hasleep⟩
    cases silent _ (List.mem_of_getElem? hasleep)
  | @woke i d e n asleep =>
    refine ⟨watchful.quiet le_rfl rfl rfl (fun _ hx => hx) (asleep_of_set asleep rfl), ?_⟩
    refine noneOversleeps_of_stirring (.inr ⟨d, ?_⟩)
    exact List.mem_set (List.getElem?_eq_some_iff.mp asleep).1 _
  | empty => exact ⟨watchful, none⟩
  | @entered i _ _ _ _ _ _ later after away passed =>
    have hset : s.threads.set i .away = s.threads := by
      obtain ⟨hlt, hget⟩ := List.getElem?_eq_some_iff.mp away
      rw [← hget, List.set_getElem_self]
    refine ⟨watchful.passed away later after relieved passed,
      passed.noneOversleeps watchful away later after relieved ?_ ?_⟩
    · intro y hy
      rw [hset]
      exact none.fewer (TaskPort.take_spec hy).2.2.2.1 (TaskPort.take_subset hy)
    · intro _ _
      rwa [hset]
  | @resumed i looked now d _ _ later after waited passed =>
    obtain ⟨st, here⟩ : ∃ st, s.threads[i]? = some st := by
      rcases waited with here | ⟨e, n, here⟩ <;> exact ⟨_, here⟩
    have hprompt := relieved.imp_right And.left
    refine ⟨watchful.passed here later after hprompt passed,
      passed.noneOversleeps watchful here later after hprompt ?_ ?_⟩
    · intro y hy
      by_cases hterm : s.port.terminated = true
      · refine noneOversleeps_of_terminated ?_
        rw [(TaskPort.take_spec hy).2.2.2.1, hterm]
      · rw [Bool.not_eq_true] at hterm
        obtain ⟨z, hz, hdue⟩ := due_of_take hy hterm
        rcases (relieved.resolve_left (by simp [hterm])).2 d waited with hback | hmay
        · exact absurd (hback.2.1 z hz) (not_lt.mpr hdue)
        · exact hmay.noneOversleeps watchful here fun w hw =>
            (staying_perm hy hterm).mem_iff.mp hw
    · intro hidle hnot
      by_cases hterm : s.port.terminated = true
      · exact noneOversleeps_of_terminated hterm
      · rw [Bool.not_eq_true] at hterm
        have hmay := ((relieved.resolve_left (by simp [hterm])).2 d waited).resolve_left hnot
        refine hmay.noneOversleeps watchful here fun w hw => ?_
        rwa [staying_of_late (late_of_take_none hidle hterm)]
  | @terminated p _ port =>
    have hterm : p.terminated = true ∧ p.ring = s.port.ring := by
      rcases port with ⟨-, rfl⟩ | ⟨-, rfl⟩ <;> exact ⟨rfl, rfl⟩
    refine ⟨watchful.quiet le_rfl rfl rfl (fun x hx => ?_) fun i d e n h => ?_,
      noneOversleeps_of_terminated hterm.1⟩
    · rwa [hterm.2] at hx
    · exact absurd h (asleep_of_rouse _ i d e n)

/-- No worker oversleeps in any state of a run in which no thread leaves its wait while callbacks stay
queued that no other worker saw when it went to sleep, and no callback falls due within a pass of a
worker. -/
theorem no_worker_oversleeps {m : DispatchMode} {p : TaskPort (Stamped α)}
    {workers threads clock : ℕ} {tr : List (TimedEvent α)} {s : TimedPort α}
    (h : Reaches step Relieved (start m p workers threads clock) tr s) :
    NoneOversleeps s.workers s.wakes s.port s.threads := by
  have hinTime := h.invariant (P := fun _ s => InTime s) (inTime_start m p workers threads clock)
    fun tr s a t ev inTime relieved hstep => inTime.step relieved (step_cases hstep)
  exact hinTime.none

/-- A worker waits, and is woken for a callback with a delay. -/
def oneWatches : List (TimedAct ℕ) :=
  [.dispatch 0 0 0 0 none, .submit 0 1000 1, .wake (some 0), .resume 0 2 3]

theorem oneWatches_end :
    (execute step (start .serializedThreadPool (.fresh : TaskPort (Stamped ℕ)) 1 1 0)
      oneWatches).map (fun last => (last.1.threads, last.1.port.callbacks)) =
        some ([.asleep none (some 1000) 1], [⟨1, 0, 1000, 0⟩]) := by
  decide

theorem oneWatches_relieved :
    Along step Relieved (start .serializedThreadPool (.fresh : TaskPort (Stamped ℕ)) 1 1 0)
      oneWatches := by
  refine ⟨.inr fun _ => by decide, fun t ev ht => ?_⟩
  obtain ⟨rfl, -⟩ := Prod.mk.inj (Option.some.inj ht)
  refine ⟨show 1000 < infinite by decide, fun t ev ht => ?_⟩
  obtain ⟨rfl, -⟩ := Prod.mk.inj (Option.some.inj ht)
  refine ⟨trivial, fun t ev ht => ?_⟩
  obtain ⟨rfl, -⟩ := Prod.mk.inj (Option.some.inj ht)
  refine ⟨.inr ⟨fun _ => by decide, fun d hd => .inl ⟨by decide, by decide, ?_⟩⟩, fun _ _ _ => trivial⟩
  rcases hd with hd | ⟨e, n, hd⟩
  · obtain rfl := Stance.woken.inj (Option.some.inj hd)
    nofun
  · cases hd

/-- The worker sleeps until the callback is due. -/
theorem no_worker_oversleeps_one :
    ∃ (tr : List (TimedEvent ℕ)) (s : TimedPort ℕ),
      Reaches step Relieved (start .serializedThreadPool .fresh 1 1 0) tr s ∧
        s.threads = [.asleep none (some 1000) 1] ∧
        NoneOversleeps s.workers s.wakes s.port s.threads := by
  obtain ⟨⟨s, tr⟩, hrun, hend⟩ := Option.map_eq_some_iff.mp oneWatches_end
  have h := reaches_of_execute _ hrun oneWatches_relieved
  exact ⟨tr, s, h, (Prod.mk.inj hend).1, no_worker_oversleeps h⟩

/-- Three workers wait. Two callbacks with a delay wake the first and the second, and a third without
delay the second again. -/
def secondWoken : List (TimedAct ℕ) :=
  [.dispatch 0 0 0 0 none, .dispatch 1 0 0 0 none, .dispatch 2 0 0 0 none,
    .submit 0 1000 1, .wake (some 0), .resume 0 0 0,
    .submit 0 500 2, .wake (some 1), .resume 1 0 0,
    .submit 0 0 3, .wake (some 1)]

def secondTakesThird : List (TimedAct ℕ) := secondWoken ++ [.resume 1 0 0]

theorem secondTakesThird_end :
    (execute step (start .threadPool (.fresh : TaskPort (Stamped ℕ)) 3 3 0) secondTakesThird).map
      (fun last => (last.1.threads, last.1.workers, last.1.wakes)) =
        some ([.asleep none (some 1000) 1, .away, .asleep none none 0], 3, 0) ∧
    (execute step (start .threadPool (.fresh : TaskPort (Stamped ℕ)) 3 3 0) secondTakesThird).map
      (fun last => (last.1.port.terminated, last.1.port.ring.count, last.1.port.earliest)) =
        some (false, 2, 500) := by
  decide

theorem secondTakesThird_oversleeps :
    ¬ Along step (fun s a => ∀ t ev, step s a = some (t, ev) →
        NoneOversleeps t.workers t.wakes t.port t.threads)
      (start .threadPool (.fresh : TaskPort (Stamped ℕ)) 3 3 0) secondTakesThird := by
  intro along
  obtain ⟨⟨t, tr⟩, hrun, hthreads⟩ := Option.map_eq_some_iff.mp secondTakesThird_end.1
  have hport := secondTakesThird_end.2
  rw [hrun] at hport
  simp only [Option.map_some, Option.some.injEq, Prod.mk.injEq] at hthreads hport
  obtain ⟨s, tr₁, ev, hbefore, hlast, -⟩ := execute_concat hrun
  have hnone := Along.last along hbefore t ev hlast
  rw [hthreads.1, hthreads.2.1, hthreads.2.2] at hnone
  obtain ⟨i, hi, d, e, n, hasleep, he⟩ := hnone hport.1 (by omega)
    (by simp [Stirring]) ⟨0, by omega, none, some 1000, 1, rfl⟩
  rw [hport.2.2] at he
  have : i = 0 ∨ i = 1 ∨ i = 2 := by omega
  rcases this with rfl | rfl | rfl <;> simp at hasleep
  omega

theorem secondTakesThird_delays {now delay x : ℕ} (h : .submit now delay x ∈ secondTakesThird) :
    delay < infinite := by
  simp only [secondTakesThird, secondWoken, List.cons_append, List.nil_append, List.mem_cons,
    reduceCtorEq, TimedAct.submit.injEq, List.not_mem_nil, false_or, or_false] at h
  have : infinite = 2 ^ 32 - 1 := rfl
  omega

theorem no_worker_oversleeps_fails :
    ¬ ∀ (m : DispatchMode) (p : TaskPort (Stamped ℕ)) (workers threads clock : ℕ)
        (calls : List (TimedAct ℕ)),
      0 < workers → workers ≤ workerCount m → workers ≤ threads →
      (∀ now delay x, .submit now delay x ∈ calls → delay < infinite) →
      (∀ i entered looked now timeout, .dispatch i entered looked now timeout ∈ calls →
        i < workers → timeout = none) →
      Along step (fun s a => ∀ t ev, step s a = some (t, ev) →
          NoneOversleeps t.workers t.wakes t.port t.threads)
        (start m p workers threads clock) calls := by
  intro h
  refine secondTakesThird_oversleeps (h .threadPool .fresh 3 3 0 secondTakesThird (by decide)
    le_rfl le_rfl (fun _ _ _ => secondTakesThird_delays) ?_)
  intro i entered looked now timeout hi _
  simp only [secondTakesThird, secondWoken, List.cons_append, List.nil_append, List.mem_cons,
    reduceCtorEq, TimedAct.dispatch.injEq, List.not_mem_nil, or_false] at hi
  rcases hi with ⟨-, -, -, -, rfl⟩ | ⟨-, -, -, -, rfl⟩ | ⟨-, -, -, -, rfl⟩ <;> rfl

end TimedPort

end IW4x.Gdk
