import IW4x.Gdk.QueueTickets

/-!
# Submissions to a port that was terminated

`terminate` and `stop` mark a port, and the mark stays until the port is opened for another queue.
A submission to a marked port is refused and its callback never called, unless the port is
immediate: there `submit` runs the callback before it looks at the mark.
-/

namespace IW4x.Gdk

open Runs
open Stacks (none_of_any none_of_any_each)

/-- `terminate` or `stop` has marked the port, and it was not opened again. -/
def Closed (tr : List QueueEvent) (p : PortId) : Prop :=
  Since (.closed p) (fun x => ∃ mode, x = .opened p mode) tr

def Immediate (tr : List QueueEvent) (p : PortId) : Prop :=
  Since (.opened p .immediate) (fun x => ∃ mode, x = .opened p mode) tr

def QueueEvent.unmarking : QueueEvent → Bool
  | .opened _ _ => false
  | .closed _ => false
  | _ => true

/-- A thread is in `queue_terminate` for the queue, before it has marked the completion port. -/
def QueueFrame.halfway (q : QueueId) : QueueFrame → Bool
  | .submitLast _ x _ _ _ => x = q
  | .terminatePort x _ _ _ => x = q
  | _ => false

/-- A thread is in `queue_terminate` for the queue. -/
def QueueFrame.terminating (q : QueueId) : QueueFrame → Bool
  | .terminated x _ _ => x = q
  | f => QueueFrame.halfway q f

/-- The activation is one of `queue_terminate`. -/
def QueueFrame.ending : QueueFrame → Bool
  | .submitLast _ _ _ _ _ => true
  | .terminatePort _ _ _ _ => true
  | .terminated _ _ _ => true
  | _ => false

namespace QueueMemory

/-- The ports keep their modes, and those that the events name are marked. -/
structure FlagsKept (m n : QueueMemory) (ev : List QueueEvent) : Prop where
  mode : ∀ p, (n.pool.owned p).mode = (m.pool.owned p).mode
  flag : ∀ p, (n.pool.owned p).terminated = true ↔
    (m.pool.owned p).terminated = true ∨ .closed p ∈ ev
  unopened : ∀ p mode, .opened p mode ∉ ev

theorem flagsKept_of_owned {m n : QueueMemory} {ev : List QueueEvent}
    (owned : n.pool.owned = m.pool.owned) (mild : ∀ x ∈ ev, x.unmarking = true) :
    FlagsKept m n ev := by
  refine ⟨fun p => by rw [owned], ?_, ?_⟩
  · intro p
    rw [owned, or_iff_left]
    intro h
    cases mild _ h
  · intro p mode h
    cases mild _ h

theorem flagsKept_of_setPort {m n : QueueMemory} {ev : List QueueEvent} {p : PortId}
    {t : TaskPort Ticket} (owned : n.pool.owned = Function.update m.pool.owned p t)
    (mode : t.mode = (m.pool.owned p).mode)
    (flag : t.terminated = (m.pool.owned p).terminated) (mild : ∀ x ∈ ev, x.unmarking = true) :
    FlagsKept m n ev := by
  refine ⟨?_, ?_, ?_⟩
  · intro x
    by_cases hx : x = p
    · subst hx; simpa [owned] using mode
    · simp [owned, hx]
  · intro x
    rw [or_iff_left fun h => by cases mild _ h]
    by_cases hx : x = p
    · subst hx; simp [owned, flag]
    · simp [owned, hx]
  · intro x mode h
    cases mild _ h

theorem flagsKept_of_closed {m n : QueueMemory} (more : List QueueEvent) (p : PortId)
    {t : TaskPort Ticket} (owned : n.pool.owned = Function.update m.pool.owned p t)
    (mode : t.mode = (m.pool.owned p).mode) (flag : t.terminated = true)
    (mild : ∀ x ∈ more, x.unmarking = true) : FlagsKept m n (more ++ [.closed p]) := by
  refine ⟨?_, ?_, ?_⟩
  · intro x
    by_cases hx : x = p
    · subst hx; simpa [owned] using mode
    · simp [owned, hx]
  · intro x
    have hmore : .closed x ∉ more := fun h => by cases mild _ h
    by_cases hx : x = p
    · subst hx; simp [owned, flag]
    · simp [owned, hx, hmore]
  · intro x mode h
    rcases List.mem_append.mp h with h | h
    · cases mild _ h
    · simp at h

theorem unmarking_of_ofTask {ev : List QueueEvent} (h : ∀ x ∈ ev, x.ofTask = true) :
    ∀ x ∈ ev, x.unmarking = true := by
  intro x hx
  have htask := h x hx
  cases x <;> first | rfl | cases htask

theorem sent_flags {m m' : QueueMemory} {e : QueueEnv} {p : PortId} {delay : ℕ} {j : Job}
    {old rest instead : List QueueFrame} {undo : QueueMemory → QueueMemory}
    {ev : List QueueEvent} {mv : QueueMove} (sends : Sends m old m' j rest undo instead ev)
    (sent : Sent m' e p delay j rest undo instead ev mv) : FlagsKept m mv.memory mv.events := by
  have mild := unmarking_of_ofTask (sent_ofTask sends sent)
  have base := sends.base
  cases sent with
  | unallocated _ =>
    refine flagsKept_of_owned ?_ mild
    rw [(sends.undone m').pool, base.pool]
  | refused _ _ =>
    refine flagsKept_of_owned ?_ mild
    rw [(sends.undone _).pool, base.pool]
  | @accepted t _ taken =>
    obtain ⟨-, hmode, hflag, -⟩ := TaskPort.submit_accepted taken
    rw [base.pool] at hmode hflag
    exact flagsKept_of_setPort (by simp [base.pool]) hmode hflag mild
  | immediate _ _ ran =>
    refine flagsKept_of_owned ?_ mild
    rw [ran.pool, base.pool]

theorem dispatched_flags {m : QueueMemory} {p : PortId} {rest : List QueueFrame} {mv : QueueMove}
    (dispatched : Dispatched m p rest mv) : FlagsKept m mv.memory mv.events := by
  have mild := unmarking_of_ofTask dispatched.ofTask
  cases dispatched with
  | idle _ => exact flagsKept_of_owned rfl mild
  | took took ran =>
    obtain ⟨-, -, hmode, hflag, -⟩ := TaskPort.take_spec took
    exact flagsKept_of_setPort (by rw [ran.pool]; rfl) hmode hflag mild

/-- A step opens two ports, or leaves the modes alone and marks the ports that it names. -/
theorem Moved.flags {m : QueueMemory} {e : QueueEnv} {threads : List (List QueueFrame)}
    {ch : QueueChoice} {old : List QueueFrame} {mv : QueueMove}
    (moved : Moved m e threads ch old mv) :
    FlagsKept m mv.memory mv.events ∨ ∃ q w c wi ci, Opens m e threads q w c wi ci mv := by
  cases moved with
  | plain plain =>
    refine .inl (flagsKept_of_owned plain.owned ?_)
    intro x hx
    have hdull := plain.events x hx
    cases x <;> simp_all [QueueEvent.dull, QueueEvent.unmarking]
  | opens opens _ => exact .inr ⟨_, _, _, _, _, opens⟩
  | composes composes =>
    refine .inl (flagsKept_of_owned composes.owned ?_)
    simp [composes.events, QueueEvent.unmarking]
  | sends sends => exact .inl (sent_flags sends (send_sent _ _ _ _ _ _ _ _ _))
  | dispatches _ => exact .inl (dispatched_flags (dispatch_dispatched _ _ _))
  | @finish k =>
    refine .inl (flagsKept_of_owned ?_ ?_)
    · unfold QueueMemory.finish
      split_ifs <;> rfl
    · unfold QueueMemory.finish
      split_ifs <;> simp [QueueEvent.unmarking]
  | again _ _ _ => exact .inl (flagsKept_of_owned rfl (by simp [QueueEvent.unmarking]))
  | @quits q w c wait _ _ _ =>
    exact .inl (flagsKept_of_closed [] w rfl rfl rfl (by simp))
  | @terminates q w c wait _ _ _ =>
    exact .inl (flagsKept_of_closed [.terminating _ w c] w rfl rfl rfl
      (by simp [QueueEvent.unmarking]))
  | @terminatePort q w c wait =>
    exact .inl (flagsKept_of_closed [] c rfl rfl rfl (by simp))
  | terminated => exact .inl (flagsKept_of_owned rfl (by simp [QueueEvent.unmarking]))
  | stops => exact .inl (flagsKept_of_owned rfl (by simp))
  | @stopPort p => exact .inl (flagsKept_of_closed [] p rfl rfl rfl (by simp))
  | join _ _ => exact .inl (flagsKept_of_owned rfl (by simp))
  | joined => exact .inl (flagsKept_of_owned rfl (by simp))
  | @release q =>
    refine .inl (flagsKept_of_owned (m.pool.releaseQueue_alike q).owned ?_)
    simp only [QueueMemory.release]
    split_ifs <;> simp [QueueEvent.unmarking]
  | @givePorts q was done _ =>
    refine .inl (flagsKept_of_owned (m.pool.givePorts_alike done).owned ?_)
    intro x hx
    simp only [List.mem_append, List.mem_map] at hx
    rcases hx with ⟨p, -, rfl⟩ | ⟨p, -, rfl⟩ <;> rfl
  | inside _ => exact .inl (flagsKept_of_owned rfl (by simp))
  | announces _ =>
    unfold QueueMemory.announce
    split_ifs <;> exact .inl (flagsKept_of_owned rfl (by simp [QueueEvent.unmarking]))
  | @returning n =>
    refine .inl (flagsKept_of_owned rfl ?_)
    split_ifs <;> simp [QueueEvent.unmarking]
  | waits => exact .inl (flagsKept_of_owned rfl (by simp))
  | ends _ => exact .inl (flagsKept_of_owned rfl (by simp))

/-- What a submission to a port comes to: on an immediate port the callback is called at once, on any
other it is refused, if the port is marked. -/
structure Submitted (m : QueueMemory) (n : Ticket) (mv : QueueMove) : Prop where
  number : n.number = m.tickets
  more : m.tickets < mv.memory.tickets
  called : (m.pool.owned n.port).mode = .immediate → .called n ∈ mv.events
  refused : (m.pool.owned n.port).mode ≠ .immediate → (m.pool.owned n.port).terminated = true →
    .refused n.port n.job n.job.refusal ∈ mv.events ∧ .called n ∉ mv.events ∧
      mv.memory.pool = m.pool

theorem sent_submitted {m m' : QueueMemory} {e : QueueEnv} {p : PortId} {delay : ℕ} {j : Job}
    {old rest instead : List QueueFrame} {undo : QueueMemory → QueueMemory}
    {ev : List QueueEvent} {mv : QueueMove} {n : Ticket}
    (sends : Sends m old m' j rest undo instead ev)
    (sent : Sent m' e p delay j rest undo instead ev mv) (h : .allocated n ∈ mv.events) :
    Submitted m n mv := by
  have base := sends.base
  have quiet : .allocated n ∉ ev ∧ .called n ∉ ev := by
    cases sends <;> simp
  cases sent with
  | unallocated _ => exact absurd h (by simp [quiet.1])
  | refused _ refused =>
    have hn : n = ⟨m'.tickets, p, j⟩ := by simpa [quiet.1] using h
    subst hn
    rw [base.pool] at refused
    refine ⟨base.tickets, ?_, ?_, ?_⟩
    · rw [(sends.undone _).tickets, base.tickets]
      exact Nat.lt_succ_self _
    · intro hmode
      simp [TaskPort.submit, hmode] at refused
    · intro _ _
      refine ⟨by simp, by simpa using quiet.2, ?_⟩
      rw [(sends.undone _).pool, base.pool]
  | @accepted t _ taken =>
    have hn : n = ⟨m'.tickets, p, j⟩ := by simpa using h
    subst hn
    rw [base.pool] at taken
    obtain ⟨-, -, -, -, -, hmode, hflag⟩ := TaskPort.submit_accepted taken
    refine ⟨base.tickets, ?_, fun h => absurd h hmode, ?_⟩
    · rw [base.tickets]
      exact Nat.lt_succ_self _
    · intro _ hmarked
      rw [hflag] at hmarked
      cases hmarked
  | @immediate mv _ immediate ran =>
    have hn : n = ⟨m'.tickets, p, j⟩ := by
      rw [ran.events] at h
      cases j <;> simpa [told] using h
    subst hn
    rw [base.pool] at immediate
    refine ⟨base.tickets, ?_, ?_, fun h => absurd immediate h⟩
    · rw [ran.tickets, base.tickets]
      exact Nat.lt_succ_self _
    · intro _
      simp [ran.events]

theorem dispatched_unallocated {m : QueueMemory} {p : PortId} {rest : List QueueFrame}
    {mv : QueueMove} (dispatched : Dispatched m p rest mv) (n : Ticket) :
    .allocated n ∉ mv.events := by
  cases dispatched with
  | idle _ => simp
  | @took t mv _ ran =>
    rw [ran.events]
    cases t.item.callback.job <;> simp [told]

theorem Moved.submitted {m : QueueMemory} {e : QueueEnv} {threads : List (List QueueFrame)}
    {ch : QueueChoice} {old : List QueueFrame} {mv : QueueMove} {n : Ticket}
    (moved : Moved m e threads ch old mv) (h : .allocated n ∈ mv.events) : Submitted m n mv := by
  cases moved with
  | plain plain => cases plain.events _ h
  | opens opens _ => simp [opens.events] at h
  | composes composes => simp [composes.events] at h
  | sends sends => exact sent_submitted sends (send_sent _ _ _ _ _ _ _ _ _) h
  | dispatches _ => exact absurd h (dispatched_unallocated (dispatch_dispatched _ _ _) n)
  | @finish k =>
    unfold QueueMemory.finish at h
    split_ifs at h <;> simp at h
  | announces _ =>
    unfold QueueMemory.announce at h
    split_ifs at h <;> simp at h
  | @release q =>
    simp only [QueueMemory.release] at h
    split_ifs at h <;> simp at h
  | @returning x =>
    dsimp only at h
    split_ifs at h <;> simp at h
  | _ => simp at h

/-- What a step has to do with the terminations of the queues. -/
inductive Ending (m : QueueMemory) : QueueChoice → List QueueFrame → QueueMove → Prop
  | calm {ch old mv} (new : ∀ f ∈ mv.new, f.ending = false)
      (before : ∀ f ∈ old, ∀ q, f.halfway q = false)
      (flags : ∀ q, mv.memory.pool.madeUsed q = true → (mv.memory.pool.made q).terminated = true →
        m.pool.madeUsed q = true ∧ (m.pool.made q).terminated = true) : Ending m ch old mv
  | marks {q w c wait f g mv} (work : (m.pool.made q).work = some w)
      (completion : (m.pool.made q).completion = some c)
      (pool : mv.memory.pool = (m.pool.markTerminated q).setPort w
        ((m.pool.markTerminated q).owned w).terminate) (new : mv.new = [g])
      (half : g = .terminatePort q w c wait ∨ ∃ t, g = .submitLast t q w c wait) :
      Ending m (.call (.terminate q wait f)) [] mv
  | asks {ch t q w c wait mv}
      (new : ∀ f ∈ mv.new, f.ending = false ∨ f = .terminatePort q w c wait)
      (goesOn : .terminatePort q w c wait ∈ mv.new) (objects : mv.memory.pool.made = m.pool.made)
      (used : mv.memory.pool.madeUsed = m.pool.madeUsed) :
      Ending m ch [.submitLast t q w c wait] mv
  | closes {q w c wait mv} (new : ∀ f ∈ mv.new, f.ending = false ∨ f = .terminated q w c)
      (pool : mv.memory.pool = m.pool.setPort c (m.pool.owned c).terminate) :
      Ending m .go [.terminatePort q w c wait] mv

theorem ending_of_light {f : QueueFrame} (light : f.light = true) : f.ending = false := by
  cases f <;> first | rfl | cases light

theorem halfway_of_light {f : QueueFrame} (light : f.light = true) (q : QueueId) :
    f.halfway q = false := by
  cases f <;> first | rfl | cases light

theorem Ran.calm {m : QueueMemory} {n : Ticket} {canceled : Bool} {mv : QueueMove}
    (ran : Ran m n canceled mv) : ∀ f ∈ mv.new, f.ending = false := by
  rcases ran.new with ⟨-, h⟩ | ⟨-, h⟩ | ⟨k, -, h⟩ | ⟨k, -, h⟩ <;> simp [h, QueueFrame.ending]

theorem sent_objects {m m' : QueueMemory} {e : QueueEnv} {p : PortId} {delay : ℕ} {j : Job}
    {old rest instead : List QueueFrame} {undo : QueueMemory → QueueMemory}
    {ev : List QueueEvent} {mv : QueueMove} (sends : Sends m old m' j rest undo instead ev)
    (sent : Sent m' e p delay j rest undo instead ev mv) :
    mv.memory.pool.made = m.pool.made ∧ mv.memory.pool.madeUsed = m.pool.madeUsed := by
  have base := sends.base.pool
  cases sent with
  | unallocated _ => rw [(sends.undone _).pool, base]; exact ⟨rfl, rfl⟩
  | refused _ _ => rw [(sends.undone _).pool, base]; exact ⟨rfl, rfl⟩
  | accepted _ _ => rw [base]; exact ⟨rfl, rfl⟩
  | immediate _ _ ran => rw [ran.pool, base]; exact ⟨rfl, rfl⟩

theorem sent_new {m : QueueMemory} {e : QueueEnv} {p : PortId} {delay : ℕ} {j : Job}
    {rest instead : List QueueFrame} {undo : QueueMemory → QueueMemory}
    {ev : List QueueEvent} {mv : QueueMove} (sent : Sent m e p delay j rest undo instead ev mv) :
    ∀ f ∈ mv.new, f.ending = false ∨ f ∈ rest ∨ f ∈ instead := by
  cases sent with
  | unallocated _ => exact fun f hf => .inr (.inr hf)
  | refused _ _ => exact fun f hf => .inr (.inr hf)
  | accepted _ _ => exact fun f hf => .inr (.inl hf)
  | immediate _ _ ran =>
    intro f hf
    rcases List.mem_append.mp hf with hf | hf
    · exact .inl (ran.calm f hf)
    · exact .inr (.inl hf)

theorem sent_ending {m m' : QueueMemory} {e : QueueEnv} {p : PortId} {delay : ℕ} {j : Job}
    {old rest instead : List QueueFrame} {undo : QueueMemory → QueueMemory}
    {ev : List QueueEvent} {mv : QueueMove} {ch : QueueChoice}
    (sends : Sends m old m' j rest undo instead ev)
    (sent : Sent m' e p delay j rest undo instead ev mv) : Ending m ch old mv := by
  obtain ⟨hmade, hused⟩ := sent_objects sends sent
  have hnew := sent_new sent
  have calm : rest = [] → instead = [] → (∀ f ∈ old, ∀ q, f.halfway q = false) →
      Ending m ch old mv := by
    rintro rfl rfl before
    refine .calm (fun f hf => by simpa using hnew f hf) before ?_
    rw [hmade, hused]
    exact fun q hq hq' => ⟨hq, hq'⟩
  cases sends with
  | @last t q w c wait =>
    refine .asks ?_ ?_ hmade hused
    · intro f hf
      rcases hnew f hf with h | h | h
      · exact .inl h
      · exact .inr (List.mem_singleton.mp h)
      · rcases List.mem_cons.mp h with rfl | h
        · exact .inl rfl
        · exact .inr (List.mem_singleton.mp h)
    · cases sent <;> simp
  | _ => exact calm rfl rfl (none_of_any_each fun _ => rfl)

theorem Moved.ending {m : QueueMemory} {e : QueueEnv} {threads : List (List QueueFrame)}
    {ch : QueueChoice} {old : List QueueFrame} {mv : QueueMove}
    (moved : Moved m e threads ch old mv) : Ending m ch old mv := by
  -- the queue objects stay as they are
  have calm : (∀ f ∈ mv.new, f.ending = false) → (∀ f ∈ old, ∀ q, f.halfway q = false) →
      mv.memory.pool.made = m.pool.made → mv.memory.pool.madeUsed = m.pool.madeUsed →
      Ending m ch old mv := by
    intro new before hmade hused
    refine .calm new before ?_
    rw [hmade, hused]
    exact fun q hq hq' => ⟨hq, hq'⟩
  -- a queue object is handed out, and its flag is clear
  have hands : ∀ {x : QueueId} {w c : Option PortId}, (∀ f ∈ mv.new, f.ending = false) →
      (∀ f ∈ old, ∀ q, f.halfway q = false) →
      mv.memory.pool.made = Function.update m.pool.made x (.openWith w c) →
      mv.memory.pool.madeUsed = Function.update m.pool.madeUsed x true → Ending m ch old mv := by
    intro x w c new before hmade hused
    refine .calm new before ?_
    intro q hq hq'
    rw [hmade] at hq'
    rw [hused] at hq
    by_cases hqx : q = x
    · subst hqx
      simp [TaskQueue.openWith] at hq'
    · rw [Function.update_of_ne hqx] at hq hq'
      exact ⟨hq, hq'⟩
  cases moved with
  | plain plain =>
    refine .calm (fun f hf => ending_of_light (plain.frames f hf))
      (fun f hf => halfway_of_light (plain.before f hf)) ?_
    intro q hq hq'
    rw [plain.holders.used] at hq
    rw [plain.terminated] at hq'
    exact ⟨hq, hq'⟩
  | opens opens frames =>
    rcases frames with ⟨rfl, hnew⟩ | ⟨u, rfl, hnew⟩
    · exact hands (by simp [hnew]) (by simp) opens.owns.made opens.owns.used
    · exact hands (by simp [hnew, QueueFrame.ending]) (by simp [QueueFrame.halfway])
        opens.owns.made opens.owns.used
  | composes composes =>
    exact hands (by simp [composes.new]) (by simp) composes.borrows.made composes.borrows.used
  | sends sends => exact sent_ending sends (send_sent _ _ _ _ _ _ _ _ _)
  | @dispatches _ p _ loop =>
    have hold : ∀ f ∈ old, f.ending = false := by
      cases loop <;> simp [QueueFrame.ending]
    have hhalf : ∀ f ∈ old, ∀ q, f.halfway q = false := by
      cases loop <;> simp [QueueFrame.halfway]
    generalize hmv : m.dispatch p old [] = mv at calm ⊢
    have dispatched := dispatch_dispatched m p old
    rw [hmv] at dispatched
    cases dispatched with
    | idle _ => exact calm (by simp) hhalf rfl rfl
    | took _ ran =>
      refine calm ?_ hhalf (by rw [ran.pool]; rfl) (by rw [ran.pool]; rfl)
      intro f hf
      rcases List.mem_append.mp hf with hf | hf
      · exact ran.calm f hf
      · exact hold f hf
  | @finish k =>
    refine calm ?_ (none_of_any_each fun _ => rfl) ?_ ?_
    · unfold QueueMemory.finish
      split_ifs
      · exact fun f hf => ending_of_light (resolve_light _ _ f hf)
      · simp
      · simp
    all_goals unfold QueueMemory.finish; split_ifs <;> rfl
  | again _ _ _ => exact calm (none_of_any rfl) (none_of_any_each fun _ => rfl) rfl rfl
  | quits work completion _ => exact .marks work completion rfl rfl (.inl rfl)
  | terminates work completion _ => exact .marks work completion rfl rfl (.inr ⟨_, rfl⟩)
  | @terminatePort q w c wait =>
    refine .closes ?_ rfl
    cases wait <;> simp [QueueFrame.ending]
  | terminated => exact calm (none_of_any rfl) (none_of_any_each fun _ => rfl) rfl rfl
  | stops => exact calm (by simp [QueueFrame.ending]) (none_of_any_each fun _ => rfl) rfl rfl
  | stopPort => exact calm (none_of_any rfl) (none_of_any_each fun _ => rfl) rfl rfl
  | join _ _ => exact calm (none_of_any rfl) (none_of_any_each fun _ => rfl) rfl rfl
  | joined => exact calm (none_of_any rfl) (none_of_any_each fun _ => rfl) rfl rfl
  | @release x =>
    refine .calm ?_ (none_of_any_each fun _ => rfl) ?_
    · intro f hf
      simp only [QueueMemory.release, List.mem_append, List.mem_map] at hf
      rcases hf with (⟨p, -, rfl⟩ | ⟨p, -, rfl⟩) | hf
      · rfl
      · rfl
      · split_ifs at hf
        · obtain rfl := List.mem_singleton.mp hf
          rfl
        · cases hf
    · intro q hq hq'
      change (m.pool.releaseQueue x).2.madeUsed q = true at hq
      change ((m.pool.releaseQueue x).2.made q).terminated = true at hq'
      rw [(m.pool.releaseQueue_alike x).made] at hq'
      rw [(m.pool.releaseQueue_used x).1] at hq
      by_cases hqx : q = x
      · subst hqx
        simp at hq
      · rw [Function.update_of_ne hqx] at hq
        exact ⟨hq, hq'⟩
  | @givePorts x was done _ =>
    exact calm (none_of_any rfl) (none_of_any_each fun _ => rfl)
      (m.pool.givePorts_alike done).made (m.pool.givePorts_objects done).used
  | inside leaves =>
    refine calm ?_ (none_of_any_each fun _ => rfl) rfl rfl
    rcases leaves with h | ⟨k, -, h⟩ <;> simp [h, QueueFrame.ending]
  | announces _ =>
    refine calm ?_ (none_of_any_each fun _ => rfl) ?_ ?_
    all_goals unfold QueueMemory.announce; split_ifs <;> simp [setStage, QueueFrame.ending]
  | returning => exact calm (none_of_any rfl) (none_of_any_each fun _ => rfl) rfl rfl
  | waits => exact calm (none_of_any rfl) (none_of_any_each fun _ => rfl) rfl rfl
  | ends _ => exact calm (none_of_any rfl) (none_of_any_each fun _ => rfl) rfl rfl

/-- `queue_terminate` returns on a queue that was terminated before, or from its own first call. -/
theorem Moved.returns {m : QueueMemory} {e : QueueEnv} {threads : List (List QueueFrame)}
    {ch : QueueChoice} {old : List QueueFrame} {mv : QueueMove} {w c : PortId}
    (moved : Moved m e threads ch old mv) (h : .terminated w c ∈ mv.events) :
    (∃ q wait f, ch = .call (.terminate q wait f) ∧ (m.pool.made q).work = some w ∧
      (m.pool.made q).completion = some c ∧ (m.pool.made q).terminated = true) ∨
    ∃ q, old = [.terminated q w c] := by
  cases moved with
  | plain plain => cases plain.events _ h
  | opens opens _ => simp [opens.events] at h
  | composes composes => simp [composes.events] at h
  | sends sends => cases sent_ofTask sends (send_sent _ _ _ _ _ _ _ _ _) _ h
  | dispatches _ => cases (dispatch_dispatched _ _ _).ofTask _ h
  | @finish k =>
    unfold QueueMemory.finish at h
    split_ifs at h <;> simp at h
  | @again q wait f w' c' work completion marked =>
    obtain ⟨rfl, rfl⟩ : w = w' ∧ c = c' := by simpa using h
    exact .inl ⟨q, wait, f, rfl, work, completion, marked⟩
  | @terminated q w' c' =>
    obtain ⟨rfl, rfl⟩ : w = w' ∧ c = c' := by simpa using h
    exact .inr ⟨q, rfl⟩
  | announces _ =>
    unfold QueueMemory.announce at h
    split_ifs at h <;> simp at h
  | @release q =>
    simp only [QueueMemory.release] at h
    split_ifs at h <;> simp at h
  | @returning x =>
    dsimp only at h
    split_ifs at h <;> simp at h
  | _ => simp at h

end QueueMemory

namespace QueueThreads

variable {tr : List QueueEvent} {s t : QueueThreads} {i : ℕ} {e : QueueEnv} {c : QueueChoice}
  {ev : List QueueEvent}

/-- The marks and the modes of the ports are what the trace says. -/
structure Marked (tr : List QueueEvent) (s : QueueThreads) : Prop where
  flag : ∀ p, (s.memory.pool.owned p).terminated = true ↔ Closed tr p
  mode : ∀ p, (s.memory.pool.owned p).mode = .immediate ↔ Immediate tr p

theorem marked_start (threads : ℕ) : Marked [] (start threads) := by
  constructor
  · intro p
    have hfresh : ((start threads).memory.pool.owned p).terminated = false := rfl
    simp [hfresh, Closed, not_since_nil]
  · intro p
    have hfresh : ((start threads).memory.pool.owned p).mode = .manual := rfl
    simp [hfresh, Immediate, not_since_nil]

theorem Marked.step (marked : Marked tr s) (h : step s (i, e, c) = some (t, ev)) :
    Marked (tr ++ ev) t := by
  obtain ⟨old, rest, mv, hstack, acts, rfl, rfl⟩ := step_cases h
  rcases (moved_of_acts acts).flags with kept | ⟨q, w, c, wi, ci, opens⟩
  · have unopened : ∀ p, ∀ y ∈ mv.events, ¬ ∃ mode, y = .opened p mode := by
      rintro p y hy ⟨mode, rfl⟩
      exact kept.unopened p mode hy
    constructor
    · intro p
      have hclosed : Closed mv.events p ↔ .closed p ∈ mv.events := by
        constructor
        · exact Since.mem
        · intro hp
          obtain ⟨a, b, hab⟩ := List.append_of_mem hp
          exact ⟨a, b, hab, fun y hy => unopened p y (by rw [hab]; simp [hy])⟩
      rw [kept.flag, Closed, since_append, or_comm]
      refine or_congr hclosed.symm ?_
      rw [and_iff_left (unopened p)]
      exact marked.flag p
    · intro p
      rw [kept.mode, Immediate, since_append_of_quiet (kept.unopened p _) (unopened p)]
      exact marked.mode p
  · have howned := opens.pool.owned
    have hapart := opens.pool.apart
    rw [opens.events]
    constructor
    · intro p
      rw [howned]
      by_cases hpc : p = ci
      · subst hpc
        simp [Closed, since_append, since_cons, not_since_nil, TaskPort.openPort]
      · by_cases hpw : p = wi
        · subst hpw
          simp [Closed, since_append, since_cons, not_since_nil, TaskPort.openPort, hapart]
        · have hp := marked.flag p
          simp [Closed, since_append, since_cons, not_since_nil, hpc, hpw, Ne.symm hpc,
            Ne.symm hpw] at hp ⊢
          exact hp
    · intro p
      rw [howned]
      by_cases hpc : p = ci
      · subst hpc
        simp [Immediate, since_append, since_cons, not_since_nil, TaskPort.openPort]
      · by_cases hpw : p = wi
        · subst hpw
          simp [Immediate, since_append, since_cons, not_since_nil, TaskPort.openPort, hapart,
            Ne.symm hpc]
        · have hp := marked.mode p
          simp [Immediate, since_append, since_cons, not_since_nil, hpc, hpw, Ne.symm hpc,
            Ne.symm hpw] at hp ⊢
          exact hp

theorem reaches_marked {ok : QueueThreads → ℕ × QueueEnv × QueueChoice → Prop} {threads : ℕ}
    (run : Reaches QueueThreads.step ok (start threads) tr s) : Marked tr s := by
  refine run.invariant (P := Marked) (marked_start threads) ?_
  rintro tr s ⟨i, e, c⟩ t ev marked - hstep
  exact marked.step hstep

/-- What callers keep to: a queue is terminated while it is in use, and not a second time before the
first call has marked both ports; nobody closes the last handle of a queue that is being
terminated; and a composite queue is created of ports that queues in use have. -/
def keepsMarks (s : QueueThreads) (input : ℕ × QueueEnv × QueueChoice) : Bool :=
  portsLive s input && match input.2.2 with
  | .call (.terminate q _ _) => s.memory.pool.madeUsed q &&
      !((s.memory.pool.made q).terminated &&
        s.threads.any fun stack => stack.any (QueueFrame.halfway q))
  | .go =>
    match s.threads[input.1]? with
    | some (.release q :: _) =>
      !(s.threads.any fun stack => stack.any (QueueFrame.terminating q))
    | _ => true
  | _ => true

/-- A call of `queue_terminate` has marked the work port of its queue, which is in use. -/
structure InCall (p : QueuePool Ticket) (q : QueueId) (w c : PortId) : Prop where
  used : p.madeUsed q = true
  work : (p.made q).port .work = some w
  completion : (p.made q).port .completion = some c
  marked : (p.owned w).terminated = true

/-- What the activations of `queue_terminate` say of the marks. -/
def QueueFrame.told (p : QueuePool Ticket) : QueueFrame → Prop
  | .submitLast _ q w c _ => InCall p q w c
  | .terminatePort q w c _ => InCall p q w c
  | .terminated q w c => InCall p q w c ∧ (p.owned c).terminated = true
  | _ => True

/-- A queue in use that is terminated has its ports marked, or a thread is about to mark the
completion port. -/
structure EndsMarked (s : QueueThreads) : Prop where
  pool : PoolKept s
  frames : ∀ stack ∈ s.threads, ∀ f ∈ stack, QueueFrame.told s.memory.pool f
  queues : ∀ q w c, s.memory.pool.madeUsed q = true → (s.memory.pool.made q).terminated = true →
    (s.memory.pool.made q).port .work = some w → (s.memory.pool.made q).port .completion = some c →
    (s.memory.pool.owned w).terminated = true ∧ ((s.memory.pool.owned c).terminated = true ∨
      ∃ stack ∈ s.threads, ∃ f ∈ stack, QueueFrame.halfway q f = true)

theorem endsMarked_start (threads : ℕ) : EndsMarked (start threads) := by
  refine ⟨poolKept_start threads, ?_, ?_⟩
  · intro stack hstack f hf
    obtain rfl := List.eq_of_mem_replicate hstack
    cases hf
  · intro q w c hused
    cases hused

theorem flag_stays {m : QueueMemory} {threads : List (List QueueFrame)} {ch : QueueChoice}
    {old : List QueueFrame} {mv : QueueMove} {pending : PortId → ℕ}
    (moved : QueueMemory.Moved m e threads ch old mv) (kept : m.pool.PortsKept pending)
    {q : QueueId} {r : Port} {p : PortId} (used : m.pool.madeUsed q = true)
    (port : (m.pool.made q).port r = some p) (marked : (m.pool.owned p).terminated = true) :
    (mv.memory.pool.owned p).terminated = true := by
  rcases moved.flags with flags | ⟨x, w, c, wi, ci, opens⟩
  · exact (flags.flag p).mpr (.inl marked)
  · have hused := kept.portUsed_of_holds (kept.holds_port.mpr ⟨used, r, port⟩)
    have hw : p ≠ wi := by
      rintro rfl
      simp [opens.owns.workFree] at hused
    have hc : p ≠ ci := by
      rintro rfl
      simp [opens.owns.completionFree] at hused
    rw [opens.pool.owned, Function.update_of_ne hc, Function.update_of_ne hw]
    exact marked

theorem inCall_stays {m : QueueMemory} {threads : List (List QueueFrame)} {ch : QueueChoice}
    {old : List QueueFrame} {mv : QueueMove} {pending : PortId → ℕ}
    (moved : QueueMemory.Moved m e threads ch old mv) (kept : m.pool.PortsKept pending)
    {q : QueueId} {w c : PortId} (call : InCall m.pool q w c) (unreleased : old ≠ [.release q]) :
    InCall mv.memory.pool q w c := by
  obtain ⟨hused, hports⟩ := moved.pool.stays call.used unreleased
  exact ⟨hused, by rw [hports, call.work], by rw [hports, call.completion],
    flag_stays moved kept call.used call.work call.marked⟩

theorem told_stays {m : QueueMemory} {threads : List (List QueueFrame)} {ch : QueueChoice}
    {old : List QueueFrame} {mv : QueueMove} {pending : PortId → ℕ}
    (moved : QueueMemory.Moved m e threads ch old mv) (kept : m.pool.PortsKept pending)
    {f : QueueFrame} (told : QueueFrame.told m.pool f)
    (unreleased : ∀ q, f.terminating q = true → old ≠ [.release q]) :
    QueueFrame.told mv.memory.pool f := by
  cases f with
  | submitLast t q w c wait =>
    exact inCall_stays moved kept told (unreleased q (by simp [QueueFrame.terminating,
      QueueFrame.halfway]))
  | terminatePort q w c wait =>
    exact inCall_stays moved kept told (unreleased q (by simp [QueueFrame.terminating,
      QueueFrame.halfway]))
  | terminated q w c =>
    exact ⟨inCall_stays moved kept told.1 (unreleased q (by simp [QueueFrame.terminating])),
      flag_stays moved kept told.1.used told.1.completion told.2⟩
  | _ => trivial

theorem told_of_calm {p : QueuePool Ticket} {f : QueueFrame} (h : f.ending = false) :
    QueueFrame.told p f := by
  cases f <;> trivial

theorem unreleased_of_keepsMarks {old rest : List QueueFrame} {m : QueueMemory}
    {mv : QueueMove} (keeps : keepsMarks s (i, e, c) = true)
    (hstack : s.threads[i]? = some (old ++ rest)) (acts : Acts m e s.threads c old rest mv)
    {stack : List QueueFrame} (hs : stack ∈ s.threads) {f : QueueFrame} (hf : f ∈ stack)
    {q : QueueId} (terminating : f.terminating q = true) : old ≠ [.release q] := by
  rintro rfl
  cases acts with
  | answer answered => simp [QueueMemory.answer] at answered
  | go goes =>
    simp only [keepsMarks, hstack, List.cons_append, List.nil_append, Bool.and_eq_true,
      Bool.not_eq_true', List.any_eq_false] at keeps
    exact keeps.2 stack hs (List.any_eq_true.mpr ⟨f, hf, terminating⟩)

theorem unreleased_of_used {m : QueueMemory} {threads : List (List QueueFrame)}
    {old rest : List QueueFrame} {mv : QueueMove} (acts : Acts m e threads c old rest mv)
    {q : QueueId} (used : mv.memory.pool.madeUsed q = true) : old ≠ [.release q] := by
  rintro rfl
  cases acts with
  | answer answered => simp [QueueMemory.answer] at answered
  | go goes =>
    cases goes
    change (m.pool.releaseQueue q).2.madeUsed q = true at used
    rw [(m.pool.releaseQueue_used q).1, Function.update_self] at used
    cases used

theorem EndsMarked.step (ends : EndsMarked s) (keeps : keepsMarks s (i, e, c) = true)
    (h : step s (i, e, c) = some (t, ev)) : EndsMarked t := by
  have live : portsLive s (i, e, c) = true := (Bool.and_eq_true_iff.mp keeps).1
  have pool := ends.pool.step live h
  obtain ⟨old, rest, mv, hstack, acts, rfl, rfl⟩ := step_cases h
  have moved := moved_of_acts acts
  have kept : (s.memory.tick e).pool.PortsKept _ := ends.pool
  have told : ∀ stack ∈ s.threads, ∀ f ∈ stack, QueueFrame.told mv.memory.pool f := by
    intro stack hs f hf
    exact told_stays moved kept (ends.frames stack hs f hf) fun q terminating =>
      unreleased_of_keepsMarks keeps hstack acts hs hf terminating
  have top : ∀ f ∈ old, QueueFrame.told mv.memory.pool f := fun f hf =>
    told _ (List.mem_of_getElem? hstack) f (List.mem_append_left rest hf)
  have workers : ∀ stack ∈ mv.spawned, ∀ f ∈ stack, QueueFrame.told mv.memory.pool f := by
    intro stack hs f hf
    obtain ⟨p, rfl⟩ := moved.spawned stack hs
    obtain rfl := List.mem_singleton.mp hf
    trivial
  -- what is known of a queue that was terminated before
  have queues : ∀ q w c, mv.memory.pool.madeUsed q = true → s.memory.pool.madeUsed q = true →
      (s.memory.pool.made q).terminated = true → (mv.memory.pool.made q).port .work = some w →
      (mv.memory.pool.made q).port .completion = some c →
      ((∃ f ∈ old, QueueFrame.halfway q f = true) → ∃ f ∈ mv.new, QueueFrame.halfway q f = true) →
      (mv.memory.pool.owned w).terminated = true ∧ ((mv.memory.pool.owned c).terminated = true ∨
        ∃ stack ∈ s.threads.set i (mv.new ++ rest) ++ mv.spawned,
          ∃ f ∈ stack, QueueFrame.halfway q f = true) := by
    intro q w c used' used marked work completion heirs
    have hports := (moved.pool.stays used (unreleased_of_used acts used')).2
    rw [hports] at work completion
    obtain ⟨hwork, hcompletion⟩ := ends.queues q w c used marked work completion
    refine ⟨flag_stays moved kept used work hwork, ?_⟩
    rcases hcompletion with hcompletion | hex
    · exact .inl (flag_stays moved kept used completion hcompletion)
    · exact .inr (Stacks.exists_set hex hstack mv.new mv.spawned heirs)
  have frames : (∀ f ∈ mv.new, QueueFrame.told mv.memory.pool f) →
      ∀ stack ∈ s.threads.set i (mv.new ++ rest) ++ mv.spawned,
        ∀ f ∈ stack, QueueFrame.told mv.memory.pool f :=
    fun new => Stacks.forall_set told hstack mv.new mv.spawned new workers
  have hi : i < s.threads.length := (List.getElem?_eq_some_iff.mp hstack).1
  have hset : mv.new ++ rest ∈ s.threads.set i (mv.new ++ rest) ++ mv.spawned :=
    List.mem_append_left _ (List.mem_set hi _)
  cases moved.ending with
  | calm new before flags =>
    refine ⟨pool, frames fun f hf => told_of_calm (new f hf), ?_⟩
    intro q w c used' marked' work completion
    obtain ⟨used, marked⟩ := flags q used' marked'
    refine queues q w c used' used marked work completion ?_
    rintro ⟨f, hf, half⟩
    rw [before f hf q] at half
    cases half
  | @marks q w c wait f g mv work completion hpool new half =>
    have hused : s.memory.pool.madeUsed q = true :=
      (Bool.and_eq_true_iff.mp (Bool.and_eq_true_iff.mp keeps).2).1
    have hports := moved.pool.stays hused (by simp)
    have call : InCall mv.memory.pool q w c := by
      refine ⟨hports.1, ?_, ?_, ?_⟩
      · rw [hports.2]; exact work
      · rw [hports.2]; exact completion
      · rw [hpool]
        simp [TaskPort.terminate]
    refine ⟨pool, frames ?_, ?_⟩
    · intro f hf
      rw [new, List.mem_singleton] at hf
      subst hf
      rcases half with rfl | ⟨t, rfl⟩
      · exact call
      · exact call
    · intro x w' c' used' marked' work' completion'
      by_cases hx : x = q
      · subst hx
        obtain rfl := Option.some.inj (call.work.symm.trans work')
        refine ⟨call.marked, .inr ⟨_, hset, g, by simp [new], ?_⟩⟩
        rcases half with rfl | ⟨t, rfl⟩ <;> simp [QueueFrame.halfway]
      · have hmade : mv.memory.pool.made x = s.memory.pool.made x := by
          rw [hpool]
          exact Function.update_of_ne hx _ _
        have hsame : mv.memory.pool.madeUsed x = s.memory.pool.madeUsed x := by rw [hpool]; rfl
        refine queues x w' c' used' (hsame ▸ used') (hmade ▸ marked') work' completion' ?_
        rintro ⟨f, hf, -⟩
        cases hf
  | @asks ch t q w c wait mv new goesOn hmade hused =>
    have call : InCall mv.memory.pool q w c := top _ (List.mem_singleton_self _)
    refine ⟨pool, frames ?_, ?_⟩
    · intro f hf
      rcases new f hf with h | rfl
      · exact told_of_calm h
      · exact call
    · intro x w' c' used' marked' work' completion'
      have hused' : s.memory.pool.madeUsed x = true := by
        rw [hused] at used'
        exact used'
      have hmarked : (s.memory.pool.made x).terminated = true := by
        rw [hmade] at marked'
        exact marked'
      refine queues x w' c' used' hused' hmarked work' completion' ?_
      rintro ⟨f, hf, half⟩
      obtain rfl := List.mem_singleton.mp hf
      exact ⟨_, goesOn, half⟩
  | @closes q w c wait mv new hpool =>
    have call : InCall mv.memory.pool q w c := top _ (List.mem_singleton_self _)
    have hmarked : (mv.memory.pool.owned c).terminated = true := by
      rw [hpool]
      simp [TaskPort.terminate]
    refine ⟨pool, frames ?_, ?_⟩
    · intro f hf
      rcases new f hf with h | rfl
      · exact told_of_calm h
      · exact ⟨call, hmarked⟩
    · intro x w' c' used' marked' work' completion'
      by_cases hx : x = q
      · subst hx
        obtain rfl := Option.some.inj (call.work.symm.trans work')
        obtain rfl := Option.some.inj (call.completion.symm.trans completion')
        exact ⟨call.marked, .inl hmarked⟩
      · rw [hpool] at used' marked'
        refine queues x w' c' (by rw [hpool]; exact used') used' marked' work' completion' ?_
        rintro ⟨f, hf, half⟩
        obtain rfl := List.mem_singleton.mp hf
        exact absurd (by simpa [QueueFrame.halfway] using half) (Ne.symm hx)

theorem reaches_endsMarked {threads : ℕ} (run : Reaches QueueThreads.step
    (fun s input => keepsMarks s input = true) (start threads) tr s) : EndsMarked s := by
  refine run.state_invariant (P := EndsMarked) (endsMarked_start threads) ?_
  rintro s ⟨i, e, c⟩ t ev ends keeps hstep
  exact ends.step keeps hstep

/-- A submission to a port that was terminated or stopped, and not opened since, is refused and its
callback never called, unless the port was opened as an immediate one; there the callback is called.
When `queue_terminate` returns, both ports of its queue are marked, in every run in which no queue
is terminated a second time before the first call has marked both ports. -/
theorem closed_ports_refuse {threads : ℕ}
    (run : Reaches QueueThreads.step always (start threads) tr s)
    (hstep : QueueThreads.step s (i, e, c) = some (t, ev)) :
    (∀ n, .allocated n ∈ ev → Closed tr n.port →
      ((.refused n.port n.job n.job.refusal ∈ ev ∧
        ∀ tr' u, Reaches QueueThreads.step always t tr' u → .called n ∉ ev ++ tr') ↔
        ¬ Immediate tr n.port)) ∧
    (Reaches QueueThreads.step (fun s input => keepsMarks s input = true) (start threads) tr s →
      keepsMarks s (i, e, c) = true →
      ∀ w c, .terminated w c ∈ ev → Closed tr w ∧ Closed tr c) := by
  have marked := reaches_marked run
  have numbered := reaches_numbered run
  have next := hstep
  obtain ⟨old, rest, mv, hstack, acts, rfl, rfl⟩ := step_cases hstep
  have moved := moved_of_acts acts
  constructor
  · intro n hn closed
    have submitted := moved.submitted hn
    have hflag := (marked.flag n.port).mpr closed
    rw [← marked.mode n.port]
    constructor
    · rintro ⟨-, uncalled⟩ himmediate
      exact uncalled [] _ .start (by simpa using submitted.called himmediate)
    · intro hmode
      obtain ⟨hrefused, huncalled, hpool⟩ := submitted.refused hmode hflag
      refine ⟨hrefused, ?_⟩
      intro tr' u later
      have hnumber : n.number = s.memory.tickets := submitted.number
      have gone : Gone n ⟨mv.memory, s.threads.set i (mv.new ++ rest) ++ mv.spawned⟩ := by
        refine ⟨hnumber.symm ▸ submitted.more, ?_⟩
        intro p hp
        have hp : n ∈ (s.memory.pool.owned p).callbacks := by
          rw [hpool] at hp
          exact hp
        have hlt := numbered p n hp
        omega
      rw [List.mem_append, not_or]
      exact ⟨huncalled, gone.run later⟩
  · intro keepRun keeps w c' hreturn
    have ends := reaches_endsMarked keepRun
    rw [← marked.flag, ← marked.flag]
    rcases moved.returns hreturn with ⟨q, wait, f, rfl, work, completion, hmarked⟩ | ⟨q, rfl⟩
    · have hkeeps := (Bool.and_eq_true_iff.mp keeps).2
      simp only [Bool.and_eq_true, Bool.not_eq_true', Bool.and_eq_false_iff] at hkeeps
      obtain ⟨hwork, hcompletion | ⟨stack, hs, f, hf, half⟩⟩ :=
        ends.queues q w c' hkeeps.1 hmarked work completion
      · exact ⟨hwork, hcompletion⟩
      · rcases hkeeps.2 with h | h
        · change (s.memory.pool.made q).terminated = true at hmarked
          rw [hmarked] at h
          cases h
        · rw [List.any_eq_false] at h
          exact absurd (List.any_eq_true.mpr ⟨f, hf, half⟩) (h stack hs)
    · have told := ends.frames _ (List.mem_of_getElem? hstack) (.terminated q w c') (by simp)
      exact ⟨told.1.marked, told.2⟩

def terminateQueue (mode : DispatchMode) : List (ℕ × QueueEnv × QueueChoice) :=
  [first (.call (.create mode .manual)), first (.call (.terminate 0 false false)), first .go,
    first .go]

/-- A callback for the work port. -/
def submitLate : ℕ × QueueEnv × QueueChoice := first (.call (.submit 0 .work 0 7))

theorem terminateQueue_trace (mode : DispatchMode) (h : mode = .manual ∨ mode = .immediate) :
    (execute step (start 1) (terminateQueue mode)).map Prod.snd =
      some [.created 0, .opened 0 mode, .opened 1 .manual, .closed 0, .closed 1,
        .terminated 0 1] := by
  rcases h with rfl | rfl <;> decide +kernel

theorem submitLate_refused :
    (execute step (start 1) (terminateQueue .manual ++ [submitLate])).map Prod.snd =
      some ([.created 0, .opened 0 .manual, .opened 1 .manual, .closed 0, .closed 1,
        .terminated 0 1] ++ [.allocated ⟨0, 0, .callback 7⟩, .freed ⟨0, 0, .callback 7⟩,
        .refused 0 (.callback 7) (some E_ABORT)]) := by
  decide +kernel

theorem submitLate_called :
    (execute step (start 1) (terminateQueue .immediate ++ [submitLate])).map Prod.snd =
      some ([.created 0, .opened 0 .immediate, .opened 1 .manual, .closed 0, .closed 1,
        .terminated 0 1] ++ [.allocated ⟨0, 0, .callback 7⟩, .accepted ⟨0, 0, .callback 7⟩,
        .called ⟨0, 0, .callback 7⟩]) := by
  decide +kernel

theorem last_step {is : List (ℕ × QueueEnv × QueueChoice)} {input : ℕ × QueueEnv × QueueChoice}
    {tr ev : List QueueEvent} (h₁ : (execute step (start 1) is).map Prod.snd = some tr)
    (h₂ : (execute step (start 1) (is ++ [input])).map Prod.snd = some (tr ++ ev)) :
    ∃ s t, execute step (start 1) is = some (s, tr) ∧ step s input = some (t, ev) := by
  obtain ⟨⟨t, tr'⟩, hrun, htrace⟩ := Option.map_eq_some_iff.mp h₂
  obtain ⟨s, tr₁, ev', hfirst, hstep, heq⟩ := execute_concat hrun
  rw [hfirst] at h₁
  obtain rfl : tr₁ = tr := Option.some.inj h₁
  obtain rfl : ev' = ev := List.append_cancel_left (heq.symm.trans htrace)
  exact ⟨s, t, hfirst, hstep⟩

theorem closed_ports_refuse_manual : ∃ (tr : List QueueEvent) (s t : QueueThreads)
    (ev : List QueueEvent), Reaches QueueThreads.step always (start 1) tr s ∧
    QueueThreads.step s submitLate = some (t, ev) ∧ Closed tr 0 ∧
    .refused 0 (.callback 7) (some E_ABORT) ∈ ev ∧
    ∀ tr' u, Reaches QueueThreads.step always t tr' u →
      .called ⟨0, 0, .callback 7⟩ ∉ ev ++ tr' := by
  obtain ⟨s, t, hrun, hstep⟩ := last_step (terminateQueue_trace .manual (.inl rfl))
    submitLate_refused
  have run := reaches_of_run hrun
  have closed : Closed [.created 0, .opened 0 .manual, .opened 1 .manual, .closed 0, .closed 1,
      .terminated 0 1] 0 :=
    ⟨[.created 0, .opened 0 .manual, .opened 1 .manual], [.closed 1, .terminated 0 1], rfl, by simp⟩
  have refuses := (closed_ports_refuse run hstep).1 ⟨0, 0, .callback 7⟩ (by simp) closed
  obtain ⟨hrefused, huncalled⟩ := refuses.mpr fun h => by
    have hmem := h.mem
    simp at hmem
  exact ⟨_, s, t, _, run, hstep, closed, hrefused, huncalled⟩

/-- An immediate port that was terminated still runs what is submitted to it. -/
theorem immediate_port_runs : ∃ (tr : List QueueEvent) (s t : QueueThreads)
    (ev : List QueueEvent), Reaches QueueThreads.step always (start 1) tr s ∧
    QueueThreads.step s submitLate = some (t, ev) ∧ Closed tr 0 ∧
    .allocated ⟨0, 0, .callback 7⟩ ∈ ev ∧ .called ⟨0, 0, .callback 7⟩ ∈ ev := by
  obtain ⟨s, t, hrun, hstep⟩ := last_step (terminateQueue_trace .immediate (.inr rfl))
    submitLate_called
  refine ⟨_, s, t, _, reaches_of_run hrun, hstep, ?_, by simp, by simp⟩
  exact ⟨[.created 0, .opened 0 .immediate, .opened 1 .manual], [.closed 1, .terminated 0 1], rfl,
    by simp⟩

end QueueThreads

end IW4x.Gdk
