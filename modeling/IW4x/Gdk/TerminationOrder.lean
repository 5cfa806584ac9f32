import IW4x.Gdk.PortOrder
import IW4x.Gdk.Terminations

/-!
# When a termination is in order

All that `queue_terminate` sees to is the place of its callback, behind what the completion port
holds. The rest is up to its callers: that the work port is done when the callback is handed over,
that the completion port gives out what is in front of it and not something that is due earlier, and
that nobody is in a callback of that port when it is taken. Then nothing is left that the ports had
accepted before: all of it was in front of the callback, and was taken first.
-/

namespace IW4x.Gdk

open Runs

namespace TaskPort

/-- A port that is marked, or whose head is due, gives out its head. -/
theorem take_head {α : Type} {p : TaskPort α} {now : ℕ} {t : Taken α} (h : p.take now = some t)
    {x : Item α} {rest : List (Item α)} (contents : p.ring.contents = x :: rest)
    (turn : p.terminated = true ∨ x.due ≤ now) : t.item = x ∧ t.port.ring.contents = rest := by
  rcases take_split h with ⟨hcontents, -⟩ | ⟨y, between, after, hcontents, -, hlive, -, hlate, -⟩
  · rw [contents] at hcontents
    obtain ⟨hitem, hrest⟩ := List.cons.inj hcontents
    exact ⟨hitem.symm, hrest.symm⟩
  · rw [contents] at hcontents
    obtain ⟨rfl, -⟩ := List.cons.inj hcontents
    rcases turn with hmarked | hdue
    · rw [hmarked] at hlive
      cases hlive
    · omega

theorem mem_callbacks {α : Type} {p : TaskPort α} {n : α} :
    n ∈ p.callbacks ↔ ∃ x ∈ p.ring.contents, x.callback = n :=
  List.mem_map

end TaskPort

/-- The task is the callback of a termination. -/
def Job.isLast : Job → Bool
  | .last _ => true
  | _ => false

/-- The activation is about to look for the routine of the operation, for a ticket of the port. -/
def QueueFrame.looks (k : ℕ) (p : PortId) : QueueFrame → ℕ
  | .announcing n _ => if n.job = .announce k ∧ n.port = p then 1 else 0
  | _ => 0

/-- The port would take the submission and run it later. -/
def QueueMemory.accepts (m : QueueMemory) (e : QueueEnv) (p : PortId) (delay : ℕ) (j : Job) : Bool :=
  match m.offer e p delay j with
  | .accepted _ _ => true
  | _ => false

namespace QueueThreads

/-- The activation that the thread is in. -/
def top (s : QueueThreads) (i : ℕ) : Option QueueFrame := s.threads[i]?.bind List.head?

/-- The activation that goes on with the step. -/
def going (s : QueueThreads) (input : ℕ × QueueEnv × QueueChoice) : Option QueueFrame :=
  match input.2.2 with
  | .go => s.top input.1
  | _ => none

/-- The port that the step dispatches. -/
def dispatched (s : QueueThreads) (input : ℕ × QueueEnv × QueueChoice) : Option PortId :=
  match input.2.2, s.top input.1 with
  | .call (.dispatch q p), _ => (s.memory.pool.made q).port p
  | .go, some (.drain p) => some p
  | .go, some (.worker p) => some p
  | _, _ => none

/-- The port that the step dispatches, and what it has to give out. -/
def taken (s : QueueThreads) (input : ℕ × QueueEnv × QueueChoice) :
    Option (PortId × TaskPort.Taken Ticket) :=
  (s.dispatched input).bind fun p =>
    ((s.memory.pool.owned p).take (s.memory.clock + input.2.1.elapsed)).map (Prod.mk p)

/-- Nobody is in a callback of the port. -/
def Idle (s : QueueThreads) (p : PortId) : Prop :=
  ∀ stack ∈ s.threads, ∀ f ∈ stack, ∀ n ∈ f.ticket, n.port ≠ p

/-- The operation has no routine, or its routine was dispatched, is among these tickets, or is about
to be looked for by a thread that has taken it from the port. -/
def Routed (s : QueueThreads) (c : PortId) (ns : List Ticket) (k : ℕ) : Prop :=
  (s.memory.operations k).stage = .silent ∨ (s.memory.operations k).stage = .heard ∨
    (s.memory.operations k).stage = .waiting ∧
      ((∃ n ∈ ns, n.job = .announce k) ∨ 0 < Stacks.total (QueueFrame.looks k c) s.threads)

/-- The callback of the termination may be handed to the completion port: the work port, if it is
another one, has nothing left and nobody is in one of its callbacks, and the completion port has been
given the routine of every operation whose work was outstanding. -/
structure Ready (s : QueueThreads) (T : Termination) : Prop where
  work : T.work ≠ T.completion → (s.memory.pool.owned T.work).callbacks = []
  idle : T.work ≠ T.completion → s.Idle T.work
  owed : ∀ k ∈ T.owes,
    s.Routed T.completion (s.memory.pool.owned T.completion).callbacks k

/-- What has to be found by an activation that goes on. -/
def MayGo (s : QueueThreads) (e : QueueEnv) : QueueFrame → Prop
  -- where the port does not take the callback, `queue_terminate` calls it itself
  | .submitLast t _ _ c _ => ∀ T ∈ s.memory.terminations[t]?,
      s.Ready T ∧ ((s.memory.tick e).accepts e c 0 (.last t) = true ∨
        (s.memory.pool.owned c).callbacks = [] ∧ s.Idle c)
  -- the operation still has its routine, and was not retired
  | .announcing n _ => ∀ T ∈ s.memory.terminations, ∀ k ∈ T.owes, n.job = .announce k →
      (s.memory.operations k).heeded = true
  | _ => True

/-- What has to be found by a step that takes a callback from a port: if the port holds the callback
of a termination, it is marked or its head is due, and nobody is in one of its callbacks when that
one is taken. -/
structure MayTake (s : QueueThreads) (e : QueueEnv) (p : PortId) (taken : Ticket) : Prop where
  turn : (∃ n ∈ (s.memory.pool.owned p).callbacks, n.job.isLast = true) →
    (s.memory.pool.owned p).terminated = true ∨
      ∀ x ∈ (s.memory.pool.owned p).ring.contents.head?, x.due ≤ s.memory.clock + e.elapsed
  alone : taken.job.isLast = true → s.Idle p

/-- What has to be found by a step. -/
structure Serves (s : QueueThreads) (input : ℕ × QueueEnv × QueueChoice) : Prop where
  going : ∀ f ∈ s.going input, s.MayGo input.2.1 f
  taking : ∀ d ∈ s.taken input, s.MayTake input.2.1 d.1 d.2.item.callback
  /-- A port that is not in use holds nothing. -/
  free : ∀ p, s.memory.pool.portUsed p = false → (s.memory.pool.owned p).callbacks = []

/-- The step finds what it has to find. -/
def EndsServed (s : Noted QueueThreads (List QueueEvent))
    (input : ℕ × QueueEnv × QueueChoice) : Prop := s.state.Serves input

instance (s : QueueThreads) (p : PortId) : Decidable (s.Idle p) :=
  inferInstanceAs (Decidable (∀ stack ∈ s.threads, ∀ f ∈ stack, ∀ n ∈ f.ticket, n.port ≠ p))

instance (s : QueueThreads) (c : PortId) (ns : List Ticket) (k : ℕ) : Decidable (s.Routed c ns k) :=
  inferInstanceAs (Decidable (_ ∨ _))

instance (s : QueueThreads) (T : Termination) : Decidable (s.Ready T) :=
  decidable_of_iff (_ ∧ _ ∧ _) ⟨fun h => ⟨h.1, h.2.1, h.2.2⟩, fun h => ⟨h.work, h.idle, h.owed⟩⟩

instance (s : QueueThreads) (e : QueueEnv) (f : QueueFrame) : Decidable (s.MayGo e f) := by
  cases f <;> unfold MayGo <;> infer_instance

instance (s : QueueThreads) (e : QueueEnv) (p : PortId) (n : Ticket) :
    Decidable (s.MayTake e p n) :=
  decidable_of_iff (_ ∧ _) ⟨fun h => ⟨h.1, h.2⟩, fun h => ⟨h.turn, h.alone⟩⟩

instance (s : QueueThreads) (input : ℕ × QueueEnv × QueueChoice) : Decidable (s.Serves input) :=
  decidable_of_iff (_ ∧ _ ∧ _)
    ⟨fun h => ⟨h.1, h.2.1, h.2.2⟩, fun h => ⟨h.going, h.taking, h.free⟩⟩

instance (s : Noted QueueThreads (List QueueEvent)) (input : ℕ × QueueEnv × QueueChoice) :
    Decidable (EndsServed s input) :=
  inferInstanceAs (Decidable (s.state.Serves input))

/-- What a termination has to wait for lies ahead of its callback in the completion port: what is
behind came later, and so did what the work port holds. -/
structure Ahead (s : QueueThreads) (T : Termination) (ahead behind : List (Item Ticket)) : Prop where
  behind : ∀ x ∈ behind, T.before ≤ x.callback.number
  work : T.work ≠ T.completion →
    ∀ n ∈ (s.memory.pool.owned T.work).callbacks, T.before ≤ n.number
  idle : T.work ≠ T.completion →
    ∀ n : Ticket, n.port = T.work → n.number < T.before → s.running n = 0
  owed : ∀ k ∈ T.owes, s.Routed T.completion (ahead.map Item.callback) k

/-- What is known where all steps find things as they should be. -/
structure Placed (s : QueueThreads) : Prop where
  lost : s.memory.pool.lost = []
  /-- A port holds tickets of its own. -/
  home : ∀ p, ∀ n ∈ (s.memory.pool.owned p).callbacks, n.port = p
  before : ∀ T ∈ s.memory.terminations, T.before ≤ s.memory.tickets
  /-- `queue_terminate` is about to hand its callback to the port that the termination names. -/
  handing : ∀ stack ∈ s.threads, ∀ f ∈ stack, ∀ t q w c wait, f = .submitLast t q w c wait →
    ∃ T, s.memory.terminations[t]? = some T ∧ T.completion = c
  /-- A callback that waits has everything that it has to come after ahead of it. -/
  placed : ∀ t T p ahead x behind, s.memory.terminations[t]? = some T →
    (s.memory.pool.owned p).ring.contents = ahead ++ x :: behind → x.callback.job = .last t →
      p = T.completion ∧ s.Ahead T ahead (x :: behind)

variable {tr : List QueueEvent} {s s' : QueueThreads} {i : ℕ} {e : QueueEnv} {c : QueueChoice}
  {ev : List QueueEvent}

theorem top_of_stack {f : QueueFrame} {rest : List QueueFrame}
    (h : s.threads[i]? = some ([f] ++ rest)) : s.top i = some f := by
  rw [top, h]
  rfl

/-- What the thread takes from the port that it dispatches. -/
theorem taken_of_loop {old rest : List QueueFrame} {p : PortId} {t : TaskPort.Taken Ticket}
    (hstack : s.threads[i]? = some (old ++ rest)) (loop : (s.memory.tick e).Dispatches p c old)
    (took : ((s.memory.tick e).pool.owned p).take (s.memory.tick e).clock = some t) :
    s.taken (i, e, c) = some (p, t) := by
  have hport : s.dispatched (i, e, c) = some p := by
    cases loop with
    | call port => exact port
    | drain => simp only [dispatched, top_of_stack hstack]
    | worker _ => simp only [dispatched, top_of_stack hstack]
  rw [taken, hport]
  exact congrArg (Option.map (Prod.mk p)) took

theorem Idle.running {p : PortId} (idle : s.Idle p) {n : Ticket} (hport : n.port = p) :
    s.running n = 0 := by
  rw [QueueThreads.running, Stacks.total_eq_zero_iff]
  intro stack hstack f hf
  refine if_neg fun hticket => ?_
  exact idle stack hstack f hf n hticket hport

/-- What is about to be looked for is being run. -/
theorem looks_eq_zero {k : ℕ} {p : PortId} (idle : s.Idle p) :
    Stacks.total (QueueFrame.looks k p) s.threads = 0 := by
  rw [Stacks.total_eq_zero_iff]
  intro stack hstack f hf
  cases f with
  | announcing n canceled =>
    refine if_neg ?_
    rintro ⟨-, hport⟩
    exact idle stack hstack _ hf n rfl hport
  | _ => rfl

/-! ## What a step keeps -/

/-- An activation that is no callback goes on. -/
theorem goes_of_acts {m : QueueMemory} {threads : List (List QueueFrame)} {f : QueueFrame}
    {rest : List QueueFrame} {mv : QueueMove} (acts : Acts m e threads c [f] rest mv)
    (inner : f.outside = false) : c = .go := by
  cases acts with
  | answer answered =>
    cases f with
    | inside n canceled => cases inner
    | calling t => cases inner
    | _ => simp [QueueMemory.answer] at answered
  | go _ => rfl

/-- A routine is looked for by an activation on top of its thread. -/
theorem looks_old {old rest : List QueueFrame} {mv : QueueMove}
    (hstack : s.threads[i]? = some (old ++ rest))
    (acts : Acts (s.memory.tick e) e s.threads c old rest mv) {k : ℕ}
    (looked : 1 ≤ Stacks.weight (QueueFrame.announces k) old) :
    c = .go ∧ ∃ n canceled, s.top i = some (.announcing n canceled) ∧ n.job = .announce k ∧
      mv = (s.memory.tick e).announce n canceled k := by
  obtain ⟨f, rfl⟩ : ∃ f, old = [f] := by
    cases acts with
    | call _ _ => simp at looked
    | answer _ => exact ⟨_, rfl⟩
    | go _ => exact ⟨_, rfl⟩
  cases f with
  | announcing n canceled =>
    have hjob : n.job = .announce k := by
      by_contra hjob
      simp [QueueFrame.announces, Ticket.announces, hjob] at looked
    obtain rfl := goes_of_acts acts rfl
    refine ⟨rfl, n, canceled, top_of_stack hstack, hjob, ?_⟩
    cases acts with
    | go goes =>
      simp only [QueueMemory.go, hjob] at goes
      exact (Option.some.inj goes).symm
  | _ => simp [QueueFrame.announces] at looked

/-- The callback of a termination is handed over by an activation on top of its thread. -/
theorem ends_old {old rest : List QueueFrame} {mv : QueueMove}
    (hstack : s.threads[i]? = some (old ++ rest))
    (acts : Acts (s.memory.tick e) e s.threads c old rest mv) {t : ℕ}
    (ends : 1 ≤ Stacks.weight (QueueFrame.ends t) old) :
    c = .go ∧ ∃ q w p wait, s.top i = some (.submitLast t q w p wait) ∧
      mv = (s.memory.tick e).send e p 0 (.last t) [.terminatePort q w p wait] id
        [.calling t, .terminatePort q w p wait] [.last t] := by
  obtain ⟨f, rfl⟩ : ∃ f, old = [f] := by
    cases acts with
    | call _ _ => simp at ends
    | answer _ => exact ⟨_, rfl⟩
    | go _ => exact ⟨_, rfl⟩
  cases f with
  | submitLast x q w p wait =>
    obtain rfl : x = t := by
      by_contra hx
      simp [QueueFrame.ends, hx] at ends
    obtain rfl := goes_of_acts acts rfl
    refine ⟨rfl, q, w, p, wait, top_of_stack hstack, ?_⟩
    cases acts with
    | go goes => exact (Option.some.inj goes).symm
  | _ => simp [QueueFrame.ends] at ends

theorem looks_le_announces (k : ℕ) (p : PortId) (f : QueueFrame) : f.looks k p ≤ f.announces k := by
  cases f with
  | announcing n canceled =>
    simp only [QueueFrame.looks, QueueFrame.announces, Ticket.announces]
    split_ifs with hboth hjob
    · exact le_refl _
    · exact absurd hboth.1 hjob
    · exact Nat.zero_le _
    · exact le_refl _
  | _ => exact Nat.zero_le _

/-- An operation stays where its routine is going to be dispatched, if the routine is still there when
it is looked for. -/
theorem Routed.step {p : PortId} {ns : List Ticket} {k : ℕ} (routed : s.Routed p ns k)
    (course : Course k tr s) (h : step s (i, e, c) = some (s', ev))
    (heeded : ∀ n canceled, s.top i = some (.announcing n canceled) → c = .go →
      n.job = .announce k → (s.memory.operations k).heeded = true) : s'.Routed p ns k := by
  obtain ⟨old, rest, mv, hstack, acts, rfl, rfl⟩ := step_cases h
  have moved := moved_of_acts acts
  by_cases looked : 1 ≤ Stacks.weight (QueueFrame.announces k) old
  · obtain ⟨hgo, n, canceled, htop, hjob, rfl⟩ := looks_old hstack acts looked
    have hheeded : ((s.memory.tick e).operations k).heeded = true := heeded n canceled htop hgo hjob
    refine .inr (.inl ?_)
    simp [QueueMemory.announce, hheeded, QueueMemory.setStage]
  · have hlooks := total_acts (w := QueueFrame.looks k p) hstack moved fun _ => rfl
    have hless := Stacks.weight_mono (looks_le_announces k p) old
    cases moved.concern.turn k with
    | stays stage _ _ _ =>
      rcases stage with stage | ⟨hk, -, -⟩
      · have hsame : (mv.memory.operations k).stage = (s.memory.operations k).stage := stage
        rcases routed with hsilent | hheard | ⟨hwaiting, hwhere⟩
        · exact .inl (hsame.trans hsilent)
        · exact .inr (.inl (hsame.trans hheard))
        · refine .inr (.inr ⟨hsame.trans hwaiting, hwhere.imp_right fun hpos => ?_⟩)
          dsimp only
          omega
      · obtain ⟨hrunning, -⟩ := course.unborn (le_of_eq hk.symm)
        rcases routed with hstage | hstage | ⟨hstage, -⟩ <;> rw [hrunning] at hstage <;> cases hstage
    | finished was _ _ _ _ _ _ =>
      change (s.memory.operations k).stage = .running at was
      rcases routed with hstage | hstage | ⟨hstage, -⟩ <;> rw [was] at hstage <;> cases hstage
    | handed published _ _ _ =>
      have hpublished := weight_old_le (QueueFrame.publishes k) hstack
      have hpublishing := course.publishing
      rcases routed with hstage | hstage | ⟨hstage, -⟩ <;>
        (rw [hstage] at hpublishing; simp at hpublishing; omega)
    | announced announces _ _ _ _ => exact absurd announces looked

/-- A ticket that no port holds is nowhere in the pool. -/
theorem weigh_same_eq_zero {n : Ticket} (lost : s.memory.pool.lost = [])
    (nowhere : ∀ p, n ∉ (s.memory.pool.owned p).callbacks) : s.memory.pool.weigh n.same = 0 := by
  have hnone : ∀ p, Stacks.weight n.same (s.memory.pool.owned p).callbacks = 0 := by
    intro p
    rw [Stacks.weight_eq_zero_iff]
    intro x hx
    refine if_neg ?_
    rintro rfl
    exact nowhere p hx
  simp [QueuePool.weigh, lost, hnone]

theorem Ahead.step {T : Termination} {ahead behind : List (Item Ticket)}
    (held : s.Ahead T ahead behind) (settled : Settled tr s) (placed : Placed s)
    (hT : T ∈ s.memory.terminations) (h : step s (i, e, c) = some (s', ev))
    (serves : s.Serves (i, e, c)) : s'.Ahead T ahead behind := by
  have hrouted : ∀ k ∈ T.owes, s'.Routed T.completion (ahead.map Item.callback) k := by
    intro k hk
    refine (held.owed k hk).step (settled.course k) h ?_
    rintro n canceled htop rfl hjob
    exact serves.going _ htop T hT k hk hjob
  obtain ⟨old, rest, mv, hstack, acts, rfl, rfl⟩ := step_cases h
  have moved := moved_of_acts acts
  have hbefore : T.before ≤ s.memory.tickets := placed.before T hT
  refine ⟨held.behind, ?_, ?_, hrouted⟩
  · intro hne n hn
    rcases moved.tickets.waiting T.work n hn with hold | ⟨hnumber, -, -⟩
    · exact held.work hne n hold
    · rw [hnumber]
      exact hbefore
  · intro hne n hport hnumber
    have hidle := held.idle hne n hport hnumber
    have hnone : (s.memory.tick e).pool.weigh n.same = 0 := by
      refine weigh_same_eq_zero (s := s) placed.lost fun p hn => ?_
      obtain rfl : p = T.work := (placed.home p n hn).symm.trans hport
      exact absurd (held.work hne n hn) (Nat.not_le.mpr hnumber)
    have hmove := (moved.balance n).accepted
    have haccepts := (moved.concern.accepts n).2
    have htotal := total_acts (w := QueueFrame.runs n) hstack moved fun _ => rfl
    have hlate : n.number ≠ (s.memory.tick e).tickets := by
      change n.number ≠ s.memory.tickets
      omega
    rw [if_neg fun h => hlate h.1] at haccepts
    rw [running] at hidle ⊢
    dsimp only
    omega

end QueueThreads

namespace QueueMemory

variable {m : QueueMemory} {c : QueueChoice} {old : List QueueFrame} {mv : QueueMove}

/-- What a move does to what a port holds. -/
inductive Rings (m : QueueMemory) (c : QueueChoice) (old : List QueueFrame) (mv : QueueMove)
    (p : PortId) : Prop
  | stays (same : (mv.memory.pool.owned p).ring.contents = (m.pool.owned p).ring.contents)
  | opened (none : (mv.memory.pool.owned p).ring.contents = [])
  | joined (x : Item Ticket) (more : (mv.memory.pool.owned p).ring.contents =
        (m.pool.owned p).ring.contents ++ [x])
      (number : x.callback.number = m.tickets)
      (ends : ∀ t, x.callback.job = .last t → Stacks.weight (QueueFrame.ends t) old = 1)
  | left (t : TaskPort.Taken Ticket) (loop : Dispatches m p c old)
      (took : (m.pool.owned p).take m.clock = some t)
      (rest : (mv.memory.pool.owned p).ring.contents = t.port.ring.contents)
      (looks : ∀ k, t.item.callback.job = .announce k → t.item.callback.port = p →
        1 ≤ Stacks.weight (QueueFrame.looks k p) mv.new)

/-- A submission is to one port. -/
theorem sent_apart {m' : QueueMemory} {e : QueueEnv} {p q : PortId} {delay : ℕ} {j : Job}
    {rest instead : List QueueFrame} {undo : QueueMemory → QueueMemory} {ev : List QueueEvent}
    (sends : Sends m old m' j rest undo instead ev)
    (sent : Sent m' e p delay j rest undo instead ev mv) (apart : q ≠ p) :
    mv.memory.pool.owned q = m.pool.owned q := by
  have base := sends.base
  cases sent with
  | unallocated _ => rw [(sends.undone m').pool, base.pool]
  | refused _ _ => rw [(sends.undone _).pool, ← base.pool]
  | accepted _ _ => simp [QueuePool.setPort_owned, apart, base.pool]
  | immediate _ _ ran => rw [ran.pool, ← base.pool]

theorem sent_rings {m' : QueueMemory} {e : QueueEnv} {p q : PortId} {delay : ℕ} {j : Job}
    {rest instead : List QueueFrame} {undo : QueueMemory → QueueMemory} {ev : List QueueEvent}
    (sends : Sends m old m' j rest undo instead ev)
    (sent : Sent m' e p delay j rest undo instead ev mv) : Rings m c old mv q := by
  have base := sends.base
  by_cases hq : q = p
  · subst hq
    cases sent with
    | unallocated _ => exact .stays (by rw [(sends.undone m').pool, base.pool])
    | refused _ _ => exact .stays (by rw [(sends.undone _).pool, ← base.pool])
    | @accepted t _ taken =>
      refine .joined ⟨⟨m'.tickets, q, j⟩, m'.clock + delay⟩ ?_ base.tickets ?_
      · rw [← base.pool]
        simpa using TaskPort.submit_contents taken
      · intro t hjob
        rw [(sends.lasts t).1, if_pos hjob]
    | immediate _ _ ran => exact .stays (by rw [ran.pool, ← base.pool])
  · exact .stays (by rw [sent_apart sends sent hq])

theorem dispatched_rings {p q : PortId} (loop : Dispatches m p c old)
    (dispatched : Dispatched m p old mv) : Rings m c old mv q := by
  cases dispatched with
  | idle _ => exact .stays rfl
  | @took t mv took ran =>
    have hpool : mv.memory.pool = m.pool.setPort p t.port := ran.pool
    by_cases hq : q = p
    · subst hq
      refine .left t loop took ?_ ?_
      · rw [hpool, QueuePool.setPort_owned, Function.update_self]
      · intro k hjob hport
        rcases ran.new with ⟨hother, -⟩ | ⟨hother, -⟩ | ⟨x, hwork, -⟩ | ⟨x, -, hnew⟩
        · exact absurd hjob (hother k)
        · exact absurd hjob (hother k)
        · rw [hjob] at hwork
          cases hwork
        · simp [hnew, QueueFrame.looks, hjob, hport]
    · refine .stays ?_
      rw [hpool, QueuePool.setPort_owned, Function.update_of_ne hq]

theorem Concern.rings (concern : Concern m c old mv) (p : PortId) : Rings m c old mv p := by
  cases concern with
  | elsewhere elsewhere => exact (elsewhere.rings p).elim .stays .opened
  | sends sends sent => exact sent_rings sends sent
  | dispatches loop _ dispatched => exact dispatched_rings loop dispatched
  | @finish k =>
    refine .stays ?_
    unfold QueueMemory.finish
    split_ifs <;> rfl
  | @announces n canceled k _ =>
    refine .stays ?_
    unfold QueueMemory.announce
    split_ifs <;> rfl
  | terminates _ rings _ _ _ _ _ _ _ _ => exact .stays (by rw [rings])

/-- Only the first call of `queue_terminate` makes a termination. -/
theorem Concern.terminations (concern : Concern m c old mv) :
    mv.memory.terminations = m.terminations ∧
        (∀ t, Stacks.weight (QueueFrame.ends t) mv.new = 0) ∨
      ∃ q T wait, (∀ p, (mv.memory.pool.owned p).ring = (m.pool.owned p).ring) ∧
        T.before = m.tickets ∧ mv.memory.terminations = m.terminations ++ [T] ∧
        mv.new = [.submitLast m.terminations.length q T.work T.completion wait] := by
  cases concern with
  | elsewhere elsewhere =>
    exact .inl ⟨elsewhere.terminations, fun t => (elsewhere.ends t).1⟩
  | @sends _ m' _ _ _ _ _ undo _ _ _ sends sent =>
    refine .inl ⟨(sent_lasts sends sent 0).1, fun t => ?_⟩
    obtain ⟨-, hrest, hinstead, -⟩ := sends.lasts t
    cases sent with
    | unallocated _ => exact hinstead
    | refused _ _ => exact hinstead
    | accepted _ _ => exact hrest
    | immediate _ _ ran => rw [Stacks.weight_append, (ran.lasts t).2, hrest]
  | dispatches _ still dispatched =>
    cases dispatched with
    | idle _ => exact .inl ⟨rfl, fun _ => rfl⟩
    | took _ ran =>
      refine .inl ⟨ran.terminations, fun t => ?_⟩
      rw [Stacks.weight_append, (ran.lasts t).2, (weights_of_still still t).2.2.2]
  | @finish k =>
    refine .inl ?_
    unfold QueueMemory.finish
    split_ifs
    · refine ⟨rfl, fun t => ?_⟩
      cases (m.operations k).queue <;> rfl
    · exact ⟨rfl, fun _ => rfl⟩
    · exact ⟨rfl, fun _ => rfl⟩
  | announces _ =>
    refine .inl ?_
    unfold QueueMemory.announce
    split_ifs <;> exact ⟨rfl, fun _ => rfl⟩
  | @terminates q T wait _ _ rings _ _ _ _ before terminations new _ =>
    exact .inr ⟨q, T, wait, rings, before, terminations, new⟩

/-- The callback of a termination is called where it is handed over, or where it is taken. -/
theorem Concern.last (concern : Concern m c old mv) {t : ℕ} (h : .last t ∈ mv.events) :
    1 ≤ Stacks.weight (QueueFrame.ends t) old ∨
      ∃ p taken, Dispatches m p c old ∧ (m.pool.owned p).take m.clock = some taken ∧
        taken.item.callback.job = .last t := by
  have quiet : (∀ x ∈ mv.events, x.aside = true) → False := fun events => by
    cases events _ h
  cases concern with
  | elsewhere elsewhere => exact (quiet elsewhere.events).elim
  | @sends _ m' _ p _ j _ _ _ _ _ sends sent =>
    refine .inl ?_
    obtain ⟨hold, -, -, hev⟩ := sends.lasts t
    have hjob : j = .last t := by
      by_contra hj
      rw [if_neg hj, List.count_eq_zero] at hev
      cases sent with
      | unallocated _ => exact hev (by simpa using h)
      | refused _ _ => exact hev (by simpa using h)
      | accepted _ _ => simp at h
      | immediate _ _ ran =>
        have hcount := (ran.lasts t).1
        rw [Ticket.ends, if_neg hj, List.count_eq_zero] at hcount
        exact hcount (by simpa using h)
    rw [hold, if_pos hjob]
  | dispatches loop _ dispatched =>
    cases dispatched with
    | idle _ => cases h
    | @took taken mv took ran =>
      refine .inr ⟨_, taken, loop, took, ?_⟩
      by_contra hj
      have hcount := (ran.lasts t).1
      rw [Ticket.ends, if_neg hj, List.count_eq_zero] at hcount
      exact hcount h
  | @finish k =>
    unfold QueueMemory.finish at h
    split_ifs at h <;> simp at h
  | announces _ =>
    unfold QueueMemory.announce at h
    split_ifs at h <;> simp at h
  | terminates _ _ _ _ _ _ _ _ _ events => exact (quiet events).elim

/-- A callback that the port takes is not called at once. -/
theorem not_last_of_accepts {e : QueueEnv} {p : PortId} {delay : ℕ} {j : Job}
    {rest instead : List QueueFrame} {undo : QueueMemory → QueueMemory} {ev : List QueueEvent}
    (h : m.accepts e p delay j = true) (t : ℕ) :
    .last t ∉ (m.send e p delay j rest undo instead ev).events := by
  unfold accepts at h
  unfold send
  cases hoffer : m.offer e p delay j with
  | accepted n m' => simp
  | _ => simp [hoffer] at h

end QueueMemory

namespace QueueThreads

variable {tr : List QueueEvent} {s s' : QueueThreads} {i : ℕ} {e : QueueEnv} {c : QueueChoice}
  {ev : List QueueEvent}

theorem mem_of_top {f : QueueFrame} (h : s.top i = some f) : ∃ stack ∈ s.threads, f ∈ stack := by
  obtain ⟨stack, hstack, hhead⟩ := Option.bind_eq_some_iff.mp h
  exact ⟨stack, List.mem_of_getElem? hstack, List.mem_of_mem_head? hhead⟩

/-- A port that holds the callback of a termination gives out its head. -/
theorem takes_head {p : PortId} {taken : TaskPort.Taken Ticket}
    (took : (s.memory.pool.owned p).take (s.memory.tick e).clock = some taken)
    (may : s.MayTake e p taken.item.callback) {n : Ticket} {t : ℕ}
    (hn : n ∈ (s.memory.pool.owned p).callbacks) (hjob : n.job = .last t) :
    (s.memory.pool.owned p).ring.contents = taken.item :: taken.port.ring.contents := by
  have hturn := may.turn ⟨n, hn, by rw [hjob]; rfl⟩
  cases hcontents : (s.memory.pool.owned p).ring.contents with
  | nil => simp [TaskPort.callbacks, hcontents] at hn
  | cons x rest =>
    rw [hcontents] at hturn
    have hdue : (s.memory.pool.owned p).terminated = true ∨ x.due ≤ (s.memory.tick e).clock :=
      hturn.imp_right fun h => h x rfl
    obtain ⟨hitem, hrest⟩ := TaskPort.take_head took hcontents hdue
    rw [hitem, hrest]

/-- When the callback of a termination is handed over, all that it has to come after is in the
completion port, or done. -/
theorem handed_ahead (placed : Placed s) (serves : s.Serves (i, e, .go)) {t : ℕ}
    {T : Termination} (hT : s.memory.terminations[t]? = some T) {q : QueueId} {w p : PortId}
    {wait : Bool} (htop : s.top i = some (.submitLast t q w p wait)) :
    p = T.completion ∧ s.Ahead T (s.memory.pool.owned p).ring.contents [] := by
  obtain ⟨stack, hstack, hmem⟩ := mem_of_top htop
  obtain ⟨T', hT', hcompletion⟩ := placed.handing stack hstack _ hmem t q w p wait rfl
  obtain rfl : T' = T := Option.some.inj (hT'.symm.trans hT)
  obtain ⟨ready, -⟩ := serves.going _ htop T' hT
  refine ⟨hcompletion.symm, by simp, ?_, ?_, ?_⟩
  · intro hapart n hn
    rw [ready.work hapart] at hn
    cases hn
  · exact fun hapart n hport _ => (ready.idle hapart).running hport
  · intro k hk
    rw [← hcompletion]
    exact ready.owed k hk

/-- A callback that was already waiting still has ahead of it what it has to come after, and so has
one that has just been handed over. -/
theorem Placed.behind (placed : Placed s) (settled : Settled tr s)
    (h : step s (i, e, c) = some (s', ev)) (serves : s.Serves (i, e, c)) {t : ℕ}
    {T : Termination} {p : PortId} {ahead behind : List (Item Ticket)} {x : Item Ticket}
    (hT : s.memory.terminations[t]? = some T)
    (hcontents : (s'.memory.pool.owned p).ring.contents = ahead ++ x :: behind)
    (hjob : x.callback.job = .last t) : p = T.completion ∧ s'.Ahead T ahead (x :: behind) := by
  have hmem := List.mem_of_getElem? hT
  have hbefore : T.before ≤ s.memory.tickets := placed.before T hmem
  have keeps : ∀ {a b}, s.Ahead T a b → s'.Ahead T a b := fun held =>
    held.step settled placed hmem h serves
  obtain ⟨old, rest, mv, hstack, acts, rfl, rfl⟩ := step_cases h
  have moved := moved_of_acts acts
  cases moved.concern.rings p with
  | stays same =>
    obtain ⟨hp, held⟩ := placed.placed t T p ahead x behind hT (same.symm.trans hcontents) hjob
    exact ⟨hp, keeps held⟩
  | opened none =>
    rw [none] at hcontents
    simp at hcontents
  | joined y more number ends =>
    have hlate : T.before ≤ y.callback.number := by
      rw [number]
      exact hbefore
    have hpool : (s.memory.tick e).pool = s.memory.pool := rfl
    rw [more, hpool] at hcontents
    rcases List.eq_nil_or_concat behind with rfl | ⟨front, z, rfl⟩
    · -- the callback of the termination has just been handed over
      obtain ⟨hahead, hy⟩ := List.append_inj' hcontents rfl
      obtain rfl := List.singleton_inj.mp hy
      obtain ⟨rfl, q, w, p', wait, htop, rfl⟩ := ends_old hstack acts (ends t hjob).ge
      obtain ⟨hp', held⟩ := handed_ahead placed serves hT htop
      obtain rfl : p = p' := by
        by_contra hne
        have sends : QueueMemory.Sends (s.memory.tick e) [.submitLast t q w p' wait]
            (s.memory.tick e) (.last t) [.terminatePort q w p' wait] id
            [.calling t, .terminatePort q w p' wait] [.last t] := .last
        have hsame := QueueMemory.sent_apart sends
          (QueueMemory.send_sent _ e p' 0 _ _ _ _ _) hne
        rw [hsame] at more
        simp at more
      rw [show (s.memory.pool.owned p).ring.contents = ahead from hahead] at held
      have held := keeps held
      exact ⟨hp', ⟨by simpa using hlate, held.work, held.idle, held.owed⟩⟩
    · rw [List.concat_eq_append] at hcontents ⊢
      have hsplit : (s.memory.pool.owned p).ring.contents ++ [y] =
          (ahead ++ x :: front) ++ [z] := by
        simpa using hcontents
      obtain ⟨hfront, hy⟩ := List.append_inj' hsplit rfl
      obtain rfl := List.singleton_inj.mp hy
      obtain ⟨hp, held⟩ := placed.placed t T p ahead x front hT hfront hjob
      have held := keeps held
      refine ⟨hp, ⟨?_, held.work, held.idle, held.owed⟩⟩
      intro z hz
      rcases List.mem_cons.mp hz with rfl | hz
      · exact held.behind _ List.mem_cons_self
      · rcases List.mem_append.mp hz with hz | hz
        · exact held.behind z (List.mem_cons_of_mem _ hz)
        · obtain rfl := List.mem_singleton.mp hz
          exact hlate
  | left taken loop took gone looks =>
    rw [gone] at hcontents
    have hperm := (TaskPort.take_spec took).1
    have hmem : x.callback ∈ (s.memory.pool.owned p).callbacks := by
      refine hperm.symm.subset (List.mem_cons_of_mem _ (TaskPort.mem_callbacks.mpr ⟨x, ?_, rfl⟩))
      simp [hcontents]
    have may := serves.taking _ (taken_of_loop hstack loop took)
    have hwhole := takes_head took may hmem hjob
    rw [hcontents] at hwhole
    obtain ⟨hp, held⟩ := placed.placed t T p (taken.item :: ahead) x behind hT hwhole hjob
    have held := keeps held
    refine ⟨hp, ⟨held.behind, held.work, held.idle, fun k hk => ?_⟩⟩
    rcases held.owed k hk with hsilent | hheard | ⟨hwaiting, ⟨n, hn, hannounces⟩ | hlooks⟩
    · exact .inl hsilent
    · exact .inr (.inl hheard)
    · rcases List.mem_cons.mp hn with rfl | hn
      · -- its routine is the callback that was taken
        have hport := placed.home p _ (hperm.symm.subset List.mem_cons_self)
        have hnew := looks k hannounces hport
        have htotal := total_acts (w := QueueFrame.looks k p) hstack moved fun _ => rfl
        have hold := weight_old_le (QueueFrame.looks k p) hstack
        refine .inr (.inr ⟨hwaiting, .inr ?_⟩)
        rw [← hp]
        dsimp only
        omega
      · exact .inr (.inr ⟨hwaiting, .inl ⟨n, hn, hannounces⟩⟩)
    · exact .inr (.inr ⟨hwaiting, .inr hlooks⟩)

theorem placed_start (threads : ℕ) : Placed (start threads) where
  lost := rfl
  home := fun p n hn => by cases hn
  before := fun T hT => by cases hT
  handing := by
    intro stack hstack f hf
    rw [(List.mem_replicate.mp hstack).2] at hf
    cases hf
  placed := fun t T p ahead x behind hT => by cases hT

/-- What is known of a termination stays known. -/
theorem termination_kept (h : step s (i, e, c) = some (s', ev)) {t : ℕ} {T : Termination}
    (hT : s.memory.terminations[t]? = some T) : s'.memory.terminations[t]? = some T := by
  obtain ⟨old, rest, mv, -, acts, -, rfl⟩ := step_cases h
  rcases (moved_of_acts acts).concern.terminations with ⟨same, -⟩ | ⟨q, T', wait, -, -, more, -⟩
  · exact (congrArg (·[t]?) same).trans hT
  · dsimp only
    rw [more]
    exact (List.getElem?_append_left (List.getElem?_eq_some_iff.mp hT).1).trans hT

/-- A termination whose callback is in a port was known before the step. -/
theorem termination_known (settled : Settled tr s) (h : step s (i, e, c) = some (s', ev)) {t : ℕ}
    {T : Termination} (hT : s'.memory.terminations[t]? = some T) {p : PortId} {x : Item Ticket}
    (hx : x ∈ (s'.memory.pool.owned p).ring.contents) (hjob : x.callback.job = .last t) :
    s.memory.terminations[t]? = some T := by
  obtain ⟨old, rest, mv, -, acts, -, rfl⟩ := step_cases h
  rcases (moved_of_acts acts).concern.terminations with
    ⟨same, -⟩ | ⟨q, T', wait, rings, -, more, -⟩
  · exact (congrArg (·[t]?) same).symm.trans hT
  · rcases Nat.lt_or_ge t s.memory.terminations.length with hlt | hge
    · refine Eq.trans ?_ hT
      dsimp only
      rw [more]
      exact (List.getElem?_append_left hlt).symm
    · -- nothing of a new termination is in a port
      exfalso
      have hlasts := settled.lasts t
      rw [if_neg (Nat.not_lt.mpr hge)] at hlasts
      have hmem : x.callback ∈ (s.memory.pool.owned p).callbacks := by
        refine TaskPort.mem_callbacks.mpr ⟨x, ?_, rfl⟩
        change x ∈ ((s.memory.tick e).pool.owned p).ring.contents
        rw [← rings p]
        exact hx
      have hends := QueuePool.le_weigh (Ticket.ends t) hmem
      rw [Ticket.ends, if_pos hjob] at hends
      omega

theorem Placed.step (placed : Placed s) (settled : Settled tr s)
    (h : step s (i, e, c) = some (s', ev)) (serves : s.Serves (i, e, c)) : Placed s' := by
  have behind := @Placed.behind tr s s' i e c ev placed settled h serves
  have kept := @termination_kept s s' i e c ev h
  have known := @termination_known tr s s' i e c ev settled h
  obtain ⟨old, rest, mv, hstack, acts, rfl, rfl⟩ := step_cases h
  have moved := moved_of_acts acts
  have htickets := moved.tickets
  have hcount : s.memory.tickets ≤ mv.memory.tickets := htickets.count
  have hpool : (s.memory.tick e).pool = s.memory.pool := rfl
  constructor
  case lost =>
    rcases moved.lost with same | ⟨-, wi, ci, work, completion, more⟩
    · exact same.trans placed.lost
    · rw [more, hpool, placed.lost, serves.free wi work, serves.free ci completion]
      rfl
  case home =>
    intro p n hn
    rcases htickets.waiting p n hn with hold | ⟨-, hport, -⟩
    · exact placed.home p n hold
    · exact hport
  case before =>
    intro T hT
    rcases moved.concern.terminations with ⟨same, -⟩ | ⟨q, T', wait, -, before, more, -⟩
    · rw [same] at hT
      exact (placed.before T hT).trans hcount
    · rw [more] at hT
      rcases List.mem_append.mp hT with hT | hT
      · exact (placed.before T hT).trans hcount
      · obtain rfl := List.mem_singleton.mp hT
        exact before.le.trans hcount
  case handing =>
    refine Stacks.forall_set (P := fun f => ∀ t q w p wait, f = .submitLast t q w p wait →
      ∃ T, mv.memory.terminations[t]? = some T ∧ T.completion = p) ?_ hstack mv.new mv.spawned ?_ ?_
    · intro stack hmem f hf t q w p wait hframe
      obtain ⟨T, hT, hcompletion⟩ := placed.handing stack hmem f hf t q w p wait hframe
      exact ⟨T, kept hT, hcompletion⟩
    · rintro f hf t q w p wait rfl
      rcases moved.concern.terminations with ⟨-, none⟩ | ⟨q', T, wait', -, -, more, new⟩
      · have hnone := (Stacks.weight_eq_zero_iff _ _).mp (none t) _ hf
        simp [QueueFrame.ends] at hnone
      · rw [new, List.mem_singleton] at hf
        cases hf
        exact ⟨T, by rw [more, List.getElem?_concat_length], rfl⟩
    · intro stack hmem f hf t q w p wait hframe
      obtain ⟨p', rfl⟩ := moved.spawned stack hmem
      obtain rfl := List.mem_singleton.mp hf
      cases hframe
  case placed =>
    intro t T p ahead x behind' hT hcontents hjob
    have hx : x ∈ (mv.memory.pool.owned p).ring.contents := by
      rw [hcontents]
      simp
    exact behind (known hT hx hjob) hcontents hjob

/-- Where nothing lies ahead of the callback, and nobody is in a callback of the completion port,
nothing is left that the termination has to wait for. -/
theorem Ahead.clear {T : Termination} {behind : List (Item Ticket)} (held : s.Ahead T [] behind)
    (placed : Placed s) (idle : s.Idle T.completion)
    (contents : (s.memory.pool.owned T.completion).ring.contents = behind) : s.Clear T := by
  constructor
  · intro n hnumber hport
    have hnowhere : ∀ p, n ∉ (s.memory.pool.owned p).callbacks := by
      intro p hn
      have hhome := placed.home p n hn
      by_cases hcompletion : p = T.completion
      · subst hcompletion
        obtain ⟨x, hx, rfl⟩ := TaskPort.mem_callbacks.mp hn
        rw [contents] at hx
        exact absurd (held.behind x hx) (Nat.not_le.mpr hnumber)
      · have hwork : p = T.work := by
          rw [hhome] at hport
          exact hport.resolve_right hcompletion
        subst hwork
        exact absurd (held.work hcompletion n hn) (Nat.not_le.mpr hnumber)
    have hweigh := weigh_same_eq_zero placed.lost hnowhere
    have hrunning : s.running n = 0 := by
      rcases hport with hport | hport
      · by_cases hsame : T.work = T.completion
        · exact idle.running (hport.trans hsame)
        · exact held.idle hsame n hport hnumber
      · exact idle.running hport
    rw [QueuePool.weigh] at hweigh
    refine ⟨?_, by rw [placed.lost]; exact List.not_mem_nil⟩
    rw [queued, hrunning]
    omega
  · intro k hk
    rcases held.owed k hk with hsilent | hheard | ⟨-, ⟨n, hn, -⟩ | hlooks⟩
    · exact .inr hsilent
    · exact .inl hheard
    · cases hn
    · rw [looks_eq_zero idle] at hlooks
      cases hlooks

/-- The callback of a termination is called in a state that is clear for it. -/
theorem Placed.clear (placed : Placed s) (h : QueueThreads.step s (i, e, c) = some (s', ev))
    (serves : s.Serves (i, e, c)) {t : ℕ} {T : Termination} (last : .last t ∈ ev)
    (hT : s.memory.terminations[t]? = some T) : s.Clear T := by
  obtain ⟨old, rest, mv, hstack, acts, rfl, rfl⟩ := step_cases h
  have concern := (moved_of_acts acts).concern
  have hpool : (s.memory.tick e).pool = s.memory.pool := rfl
  rcases concern.last last with ends | ⟨p, taken, loop, took, hjob⟩
  · -- `queue_terminate` calls it itself
    obtain ⟨rfl, q, w, p, wait, htop, rfl⟩ := ends_old hstack acts ends
    obtain ⟨rfl, held⟩ := handed_ahead placed serves hT htop
    obtain ⟨-, accepts | ⟨hempty, idle⟩⟩ := serves.going _ htop T hT
    · exact absurd last (QueueMemory.not_last_of_accepts accepts t)
    · have hnone := List.map_eq_nil_iff.mp hempty
      rw [hnone] at held
      exact held.clear placed idle hnone
  · -- it is taken from the completion port
    have may := serves.taking _ (taken_of_loop hstack loop took)
    have hmem : taken.item.callback ∈ (s.memory.pool.owned p).callbacks :=
      (TaskPort.take_spec took).1.symm.subset List.mem_cons_self
    have hcontents := takes_head took may hmem hjob
    obtain ⟨rfl, held⟩ := placed.placed t T p [] _ _ hT hcontents hjob
    exact held.clear placed (may.alone (by rw [hjob]; rfl)) hcontents

/-! ## Whole runs -/

theorem reaches_placed {threads : ℕ} {s : Noted QueueThreads (List QueueEvent)}
    (run : Reaches (noting QueueThreads.step keeping) EndsServed ⟨start threads, []⟩ tr s) :
    Settled tr s.state ∧ Placed s.state := by
  refine run.invariant (P := fun tr s => Settled tr s.state ∧ Placed s.state)
    ⟨settled_start threads, placed_start threads⟩ ?_
  rintro tr s ⟨i, e, c⟩ t ev ⟨settled, placed⟩ served hstep
  have hplain := (noting_eq_some_iff.mp hstep).1
  exact ⟨settled.step hplain, placed.step settled hplain served⟩

/-- Where nothing was lost, the callback of a termination was called once, or there is one place that
it will be called from. -/
theorem Settled.once_or_waits (settled : Settled tr s) (placed : Placed s) (t : ℕ) :
    tr.count (.last t) + s.waits t = if t < s.memory.terminations.length then 1 else 0 := by
  have hlasts := settled.lasts t
  rw [QueuePool.weigh, placed.lost, Stacks.weight_nil] at hlasts
  rw [waits]
  omega

/-- In every run whose steps find things as they should be, the callbacks of the terminations are
called when their promises are kept, and none is dropped: each is called once, or there is one place
that it will be called from. -/
theorem ends_in_order_along {threads : ℕ} (calls : List (ℕ × QueueEnv × QueueChoice))
    (served : Along (noting step keeping) EndsServed ⟨start threads, []⟩ calls) :
    Along (noting step keeping) EndsInOrder ⟨start threads, []⟩ calls ∧ ∀ s tr,
      execute (noting step keeping) ⟨start threads, []⟩ calls = some (s, tr) →
        ∀ t < s.state.memory.terminations.length, tr.count (.last t) + s.state.waits t = 1 := by
  constructor
  · refine served.imp_reached fun tr s input hreach served => ?_
    obtain ⟨i, e, c⟩ := input
    obtain ⟨settled, placed⟩ := reaches_placed hreach
    intro s' ev hstep
    refine ⟨fun t T hlast hT => ?_, fun t => ?_⟩
    · rw [hreach.kept]
      exact (honoured_iff settled T).mpr (placed.clear hstep served hlast hT)
    · have hbefore := settled.once_or_waits placed t
      have hafter := (settled.step hstep).once_or_waits (placed.step settled hstep served) t
      have hlonger : s.state.memory.terminations.length ≤ s'.memory.terminations.length := by
        obtain ⟨old, rest, mv, -, acts, -, rfl⟩ := step_cases hstep
        exact ((moved_of_acts acts).concern.lasts t).1
      rw [List.count_append] at hafter
      split_ifs at hbefore hafter <;> omega
  · intro s tr hrun t ht
    obtain ⟨settled, placed⟩ := reaches_placed (reaches_of_execute calls hrun served)
    rw [settled.once_or_waits placed t, if_pos ht]

/-- Another thread terminates and drains the queue while an operation is at work, and goes on when the
operation has completed. -/
def terminateAtWork : List (ℕ × QueueEnv × QueueChoice) :=
  [first (.call (.create .manual .manual)), first (.call (.begin (some 0) true)), first .go,
    first (.call (.dispatch 0 .work)), (1, {}, .call (.terminate 0 true true)),
    first (.answer true), first .go, first .go, first .go,
    (1, {}, .go), (1, {}, .go), (1, {}, .go), (1, {}, .go), (1, {}, .answer true), (1, {}, .go),
    (1, {}, .go)]

/-- The routine of the operation comes first, and the callback is called. -/
theorem ends_in_order_at_work :
    Along (noting step keeping) EndsInOrder ⟨start 2, []⟩ terminateAtWork ∧
      (execute (noting step keeping) ⟨start 2, []⟩ terminateAtWork).map (fun last =>
        (last.1.state.memory.terminations.map Termination.owes, last.2.count (.last 0))) =
        some ([[0]], 1) :=
  ⟨(ends_in_order_along terminateAtWork (by decide +kernel)).1, by decide +kernel⟩

/-- A callback waits on the work port of a queue that is terminated and drained. -/
def terminateBusy : List (ℕ × QueueEnv × QueueChoice) :=
  [first (.call (.create .manual .manual)), first (.call (.submit 0 .work 0 7)),
    first (.call (.terminate 0 true true)), first .go, first .go]

/-- The callback was accepted and has not run, and the next step of `queue_terminate` calls its
own. -/
theorem terminateBusy_end :
    (execute (noting step keeping) ⟨start 1, []⟩ terminateBusy).map (fun last =>
      (decide (.accepted ⟨0, 0, .callback 7⟩ ∈ last.1.notes),
        decide (.returned ⟨0, 0, .callback 7⟩ ∈ last.1.notes),
        last.1.state.memory.terminations.map fun T => (T.work, T.before),
        (step last.1.state (first .go)).map fun next => decide (.last 0 ∈ next.2))) =
      some (true, false, [(0, 1)], some true) := by
  decide +kernel

/-- The callback of a termination is called although the work port holds a callback that it had
accepted before. -/
theorem termination_overtakes : ¬ ∀ calls : List (ℕ × QueueEnv × QueueChoice),
    Along (noting step keeping) EndsInOrder ⟨start 1, []⟩ calls := by
  intro claim
  obtain ⟨⟨s, tr⟩, hrun, hend⟩ := Option.map_eq_some_iff.mp terminateBusy_end
  have inOrder := (claim (terminateBusy ++ [first .go])).last hrun
  simp only [Prod.mk.injEq, decide_eq_true_eq, decide_eq_false_iff_not] at hend
  obtain ⟨haccepted, hunreturned, hterminations, hlast⟩ := hend
  obtain ⟨⟨s', ev⟩, hstep, hcalled⟩ := Option.map_eq_some_iff.mp hlast
  obtain ⟨T, hT, hfields⟩ := List.map_eq_singleton_iff.mp hterminations
  obtain ⟨hwork, hbefore⟩ := Prod.mk.inj hfields
  have honoured := (inOrder s' ev hstep).1 0 T (by simpa using hcalled) (by rw [hT]; rfl)
  refine hunreturned (honoured.ran ⟨0, 0, .callback 7⟩ ?_ (.inl hwork.symm) haccepted)
  rw [hbefore]
  exact Nat.zero_lt_one

end QueueThreads

end IW4x.Gdk
