import IW4x.Lib.Notes
import IW4x.Gdk.QueueCourses

/-!
# The callback of a termination

`queue_terminate` marks the work port, hands its callback to the completion port, behind what is
there, and marks that port too. Nothing waits for what the work port still holds, and a completion
routine that comes late is refused. The calls of these callbacks are held against the tickets that
their ports had accepted before, and against the operations whose work was outstanding.
-/

namespace IW4x.Gdk

open Runs

/-- Both ports have run what they had accepted before the call, and the operations whose work was
outstanding have had their routines dispatched. -/
structure Termination.Honoured (T : Termination) (past : List QueueEvent) : Prop where
  ran : ∀ n : Ticket, n.number < T.before → n.port = T.work ∨ n.port = T.completion →
    .accepted n ∈ past → .returned n ∈ past
  heard : ∀ k ∈ T.owes, .routine k ∈ past ∨ .finished k false ∈ past

namespace QueueThreads

/-- From how many places the callback of the termination is still going to be called. -/
def waits (t : ℕ) (s : QueueThreads) : ℕ :=
  ∑ p, Stacks.weight (Ticket.ends t) (s.memory.pool.owned p).callbacks +
    Stacks.total (QueueFrame.ends t) s.threads

/-- Of what both ports were given before the call nothing is queued, being run or lost, and of the
operations whose work was outstanding none is running, and no routine is being published, waits or
was refused. -/
structure Clear (s : QueueThreads) (T : Termination) : Prop where
  idle : ∀ n : Ticket, n.number < T.before → n.port = T.work ∨ n.port = T.completion →
    s.queued n + s.running n = 0 ∧ n ∉ s.memory.pool.lost
  heard : ∀ k ∈ T.owes,
    (s.memory.operations k).stage = .heard ∨ (s.memory.operations k).stage = .silent

/-- The callback of a termination is called when its promises are kept, and none that waits for its
call is dropped. -/
def EndsInOrder (s : Noted QueueThreads (List QueueEvent))
    (input : ℕ × QueueEnv × QueueChoice) : Prop :=
  ∀ s' ev, step s.state input = some (s', ev) →
    (∀ t T, .last t ∈ ev → s.state.memory.terminations[t]? = some T → T.Honoured s.notes) ∧
    ∀ t, s.state.waits t ≤ s'.waits t + ev.count (.last t)

variable {tr : List QueueEvent} {s s' : QueueThreads} {i : ℕ} {e : QueueEnv} {c : QueueChoice}
  {ev : List QueueEvent}

/-- How far the completion of an operation has come. -/
structure Course (k : ℕ) (tr : List QueueEvent) (s : QueueThreads) : Prop where
  publishing : Stacks.total (QueueFrame.publishes k) s.threads ≤
    if (s.memory.operations k).stage = .publishing then 1 else 0
  waiting : s.memory.pool.weigh (Ticket.announces k) +
    Stacks.total (QueueFrame.announces k) s.threads ≤
      if (s.memory.operations k).stage = .waiting then 1 else 0
  heard : .routine k ∈ tr ↔ (s.memory.operations k).stage = .heard
  silent : .finished k false ∈ tr ↔ (s.memory.operations k).stage = .silent
  unborn : s.memory.begun ≤ k → (s.memory.operations k).stage = .running ∧
    Stacks.total (QueueFrame.names k) s.threads = 0 ∧ s.memory.pool.weigh (Ticket.names k) = 0

/-- What is known of the callbacks of the terminations, of the operations and of the tickets. -/
structure Settled (tr : List QueueEvent) (s : QueueThreads) : Prop where
  course : ∀ k, Course k tr s
  /-- The callback of a termination was called, or there is one place that it will be called from,
  or it was lost. -/
  lasts : ∀ t, tr.count (.last t) + s.memory.pool.weigh (Ticket.ends t) +
    Stacks.total (QueueFrame.ends t) s.threads = if t < s.memory.terminations.length then 1 else 0
  accepted : ∀ n, tr.count (.accepted n) = s.memory.pool.weigh n.same +
    Stacks.total (QueueFrame.runs n) s.threads + tr.count (.returned n)
  once : ∀ n, tr.count (.accepted n) ≤ if n.number < s.memory.tickets then 1 else 0

theorem settled_start (threads : ℕ) : Settled [] (start threads) := by
  have hweigh : ∀ v, (start threads).memory.pool.weigh v = 0 := QueuePool.weigh_empty
  have htotal : ∀ w, Stacks.total w (start threads).threads = 0 := fun w =>
    Stacks.total_replicate_nil w threads
  constructor
  case course =>
    intro k
    refine ⟨?_, ?_, by simp [start, QueueMemory.start], by simp [start, QueueMemory.start], ?_⟩
    · rw [htotal]
      exact Nat.zero_le _
    · rw [hweigh, htotal]
      exact Nat.zero_le _
    · exact fun _ => ⟨rfl, htotal _, hweigh _⟩
  case lasts =>
    intro t
    rw [hweigh, htotal]
    rfl
  case accepted =>
    intro n
    rw [hweigh, htotal]
    rfl
  case once => exact fun n => Nat.zero_le _

theorem settles_append (tr : List QueueEvent) {k : ℕ} (quiet : ∀ x ∈ ev, x.settles k = false) :
    (.routine k ∈ tr ++ ev ↔ .routine k ∈ tr) ∧
      (.finished k false ∈ tr ++ ev ↔ .finished k false ∈ tr) := by
  have absent : ∀ x : QueueEvent, x.settles k = true → x ∉ ev := by
    intro x hx hmem
    rw [quiet x hmem] at hx
    cases hx
  simp [List.mem_append, absent (.routine k) (by simp [QueueEvent.settles]),
    absent (.finished k false) (by simp [QueueEvent.settles])]

theorem Course.step {k : ℕ} (course : Course k tr s) (h : step s (i, e, c) = some (s', ev)) :
    Course k (tr ++ ev) s' := by
  obtain ⟨old, rest, mv, hstack, acts, rfl, rfl⟩ := step_cases h
  have moved := moved_of_acts acts
  have concern := moved.concern
  have htotal := total_acts (w := QueueFrame.publishes k) hstack moved fun _ => rfl
  have hlooked := total_acts (w := QueueFrame.announces k) hstack moved fun _ => rfl
  have hnamed := total_acts (w := QueueFrame.names k) hstack moved fun _ => rfl
  have hpublished := weight_old_le (QueueFrame.publishes k) hstack
  have hnames := weight_old_le (QueueFrame.names k) hstack
  have hpool : (s.memory.tick e).pool = s.memory.pool := rfl
  obtain ⟨publishing, waiting, heard, silent, unborn⟩ := course
  obtain ⟨hbegun, hunnamed⟩ := concern.names k
  change s.memory.begun ≤ _ at hbegun
  -- what is not begun is not named, and stays so
  have later : mv.memory.begun ≤ k → Stacks.weight (QueueFrame.names k) old = 0 ∧
      Stacks.total (QueueFrame.names k) (s.threads.set i (mv.new ++ rest) ++ mv.spawned) = 0 ∧
      mv.memory.pool.weigh (Ticket.names k) = 0 := by
    intro hk
    obtain ⟨-, hnone, hweigh⟩ := unborn (hbegun.trans hk)
    obtain ⟨hnew, hweigh'⟩ := hunnamed hk (by omega) hweigh
    exact ⟨by omega, by omega, hweigh'⟩
  cases concern.turn k with
  | stays hstage hpublishes hwaits quiet =>
    obtain ⟨hroutine, hfinished⟩ := settles_append tr quiet
    rw [QueueMemory.onWay, QueueMemory.onWay, hpool] at hwaits
    rcases hstage with hstage | ⟨hk, hborn, hstage⟩
    · have hsame : (mv.memory.operations k).stage = (s.memory.operations k).stage := hstage
      refine ⟨?_, ?_, ?_, ?_, ?_⟩
      · dsimp only
        rw [hsame]
        omega
      · dsimp only
        rw [hsame]
        omega
      · rw [hroutine, hsame]
        exact heard
      · rw [hfinished, hsame]
        exact silent
      · intro hk
        rw [hsame]
        exact ⟨(unborn (hbegun.trans hk)).1, (later hk).2⟩
    · -- the operation is a new one
      change k = s.memory.begun at hk
      change s.memory.begun < _ at hborn
      obtain ⟨hwas, -, -⟩ := unborn hk.ge
      rw [hwas] at publishing waiting heard silent
      simp only [reduceCtorEq, if_false, iff_false] at publishing waiting heard silent
      refine ⟨?_, ?_, ?_, ?_, ?_⟩
      · dsimp only
        omega
      · dsimp only
        omega
      · rw [hroutine]
        rcases hstage with hstage | hstage <;> simp [heard, hstage]
      · rw [hfinished]
        rcases hstage with hstage | hstage <;> simp [silent, hstage]
      · intro hlate
        change mv.memory.begun ≤ k at hlate
        omega
  | finished hwas published hstage named hpublishes hwaits events =>
    change (s.memory.operations k).stage = .running at hwas
    rw [QueueMemory.onWay, QueueMemory.onWay, hpool] at hwaits
    rw [hwas] at publishing waiting heard silent
    simp only [reduceCtorEq, if_false, iff_false] at publishing waiting heard silent
    have hafter : Stacks.total (QueueFrame.publishes k)
        (s.threads.set i (mv.new ++ rest) ++ mv.spawned) ≤ if published then 1 else 0 := by
      omega
    refine ⟨?_, ?_, ?_, ?_, ?_⟩
    · refine hafter.trans ?_
      dsimp only
      rw [hstage]
      cases published <;> simp
    · dsimp only
      omega
    · rw [events]
      dsimp only
      rw [hstage]
      cases published <;> simp [heard]
    · rw [events]
      dsimp only
      rw [hstage]
      cases published <;> simp [silent]
    · intro hk
      have hnone := (later hk).1
      omega
  | handed published hpublishes hstage quiet =>
    obtain ⟨hroutine, hfinished⟩ := settles_append tr quiet
    have hwas : (s.memory.operations k).stage = .publishing := by
      by_contra hne
      rw [if_neg hne] at publishing
      omega
    rw [hwas] at publishing waiting heard silent
    simp only [reduceCtorEq, if_false, if_true, iff_false] at publishing waiting heard silent
    rw [QueueMemory.onWay, QueueMemory.onWay, hpool] at hstage
    refine ⟨?_, ?_, ?_, ?_, ?_⟩
    · dsimp only
      omega
    · dsimp only
      rcases hstage with ⟨hstage, hwaits⟩ | ⟨hstage, hwaits⟩ <;> rw [hstage]
      · rw [if_pos rfl]
        omega
      · simp only [reduceCtorEq, if_false]
        omega
    · rw [hroutine]
      rcases hstage with ⟨hstage, -⟩ | ⟨hstage, -⟩ <;> simp [heard, hstage]
    · rw [hfinished]
      rcases hstage with ⟨hstage, -⟩ | ⟨hstage, -⟩ <;> simp [silent, hstage]
    · intro hk
      obtain ⟨hrunning, -⟩ := unborn (hbegun.trans hk)
      rw [hwas] at hrunning
      cases hrunning
  | announced _ came hpublishes hstage events =>
    rw [QueueMemory.onWay, QueueMemory.onWay, hpool] at came
    have hlooks := weight_old_le (QueueFrame.announces k) hstack
    have hwas : (s.memory.operations k).stage = .waiting := by
      by_contra hne
      rw [if_neg hne] at waiting
      omega
    rw [hwas] at publishing waiting heard silent
    simp only [reduceCtorEq, if_false, if_true, iff_false] at publishing waiting heard silent
    refine ⟨?_, ?_, ?_, ?_, ?_⟩
    · dsimp only
      omega
    · dsimp only
      omega
    · dsimp only
      rw [events, hstage]
      split_ifs <;> simp [heard]
    · dsimp only
      rw [events, hstage]
      split_ifs <;> simp [silent]
    · intro hk
      obtain ⟨hrunning, -⟩ := unborn (hbegun.trans hk)
      rw [hwas] at hrunning
      cases hrunning

theorem Settled.step (settled : Settled tr s) (h : step s (i, e, c) = some (s', ev)) :
    Settled (tr ++ ev) s' := by
  refine ⟨fun k => (settled.course k).step h, ?_, ?_, ?_⟩
  all_goals obtain ⟨old, rest, mv, hstack, acts, rfl, rfl⟩ := step_cases h
  all_goals have moved := moved_of_acts acts
  · intro t
    have hbefore := settled.lasts t
    have hmove := (moved.concern.lasts t).2
    have htotal := total_acts (w := QueueFrame.ends t) hstack moved fun _ => rfl
    change _ + (if t < s.memory.terminations.length then 1 else 0) =
      s.memory.pool.weigh (Ticket.ends t) + _ + _ at hmove
    simp only [List.count_append]
    omega
  · intro n
    have hbefore := settled.accepted n
    have hmove := (moved.balance n).accepted
    have htotal := total_acts (w := QueueFrame.runs n) hstack moved fun _ => rfl
    change _ + s.memory.pool.weigh n.same + _ = _ at hmove
    simp only [List.count_append]
    omega
  · intro n
    have hbefore := settled.once n
    obtain ⟨htickets, hmove⟩ := moved.concern.accepts n
    change s.memory.tickets ≤ _ at htickets
    change _ ≤ if n.number = s.memory.tickets ∧ s.memory.tickets < mv.memory.tickets then 1 else 0
      at hmove
    simp only [List.count_append]
    split_ifs at hbefore hmove ⊢ <;> omega

/-- What was promised has happened if and only if the state is clear of it. -/
theorem honoured_iff (settled : Settled tr s) (T : Termination) : T.Honoured tr ↔ s.Clear T := by
  have hidle : ∀ n : Ticket, (.accepted n ∈ tr → .returned n ∈ tr) ↔
      s.queued n + s.running n = 0 ∧ n ∉ s.memory.pool.lost := by
    intro n
    have hlost : n ∉ s.memory.pool.lost ↔ Stacks.weight n.same s.memory.pool.lost = 0 := by
      rw [Stacks.weight_eq_zero_iff]
      constructor
      · intro h x hx
        rw [Ticket.same, if_neg]
        rintro rfl
        exact h hx
      · intro h hn
        simpa [Ticket.same] using h n hn
    have haccepted := settled.accepted n
    have honce := settled.once n
    rw [QueuePool.weigh] at haccepted
    change _ = s.queued n + _ + s.running n + _ at haccepted
    rw [hlost, ← List.count_pos_iff, ← List.count_pos_iff]
    split_ifs at honce <;> omega
  have hheard : ∀ k, (.routine k ∈ tr ∨ .finished k false ∈ tr) ↔
      (s.memory.operations k).stage = .heard ∨ (s.memory.operations k).stage = .silent :=
    fun k => or_congr (settled.course k).heard (settled.course k).silent
  constructor
  · intro honoured
    exact ⟨fun n hn hport => (hidle n).mp (honoured.ran n hn hport),
      fun k hk => (hheard k).mp (honoured.heard k hk)⟩
  · intro clear
    exact ⟨fun n hn hport => (hidle n).mpr (clear.idle n hn hport),
      fun k hk => (hheard k).mpr (clear.heard k hk)⟩

end QueueThreads

end IW4x.Gdk
