import IW4x.Gdk.SelfJoin

/-!
# The contexts of the callbacks

Every submission allocates a context: an `adapted`, a `completion`, a `posted` or a `held_task`,
which here is its ticket. A ledger of the allocations and the frees is held against the tickets that
the ports hold and those that the threads are running. `run_held` frees nothing, so what a
`held_task` costs is never given back; and a port that is opened anew forgets what it held.
-/

namespace IW4x.Gdk

open Runs

def Ticket.same (n x : Ticket) : ℕ := if x = n then 1 else 0

def QueueFrame.runs (n : Ticket) (f : QueueFrame) : ℕ := if f.ticket = some n then 1 else 0

/-- The event is one of the ledger, or ends the run of a ticket. -/
def QueueEvent.accounts : QueueEvent → Bool
  | .allocated _ => true
  | .freed _ => true
  | .accepted _ => true
  | .returned _ => true
  | _ => false

/-- No port that would be opened for a new queue holds a callback. -/
def QueuePool.opensIdle (p : QueuePool Ticket) (w c : DispatchMode) : Bool :=
  decide ((p.createQueue w c).2.lost = p.lost)

namespace QueueThreads

/-- How often the ports hold a ticket. -/
def queued (n : Ticket) (s : QueueThreads) : ℕ :=
  ∑ p, Stacks.weight n.same (s.memory.pool.owned p).callbacks

/-- How often a ticket is being run. -/
def running (n : Ticket) (s : QueueThreads) : ℕ := Stacks.total (QueueFrame.runs n) s.threads

structure Ledger (tr : List QueueEvent) (s : QueueThreads) : Prop where
  /-- A context is allocated once. -/
  once : ∀ n, tr.count (.allocated n) ≤ 1
  /-- What is allocated and not freed is queued or running. -/
  live : ∀ n, tr.count (.allocated n) = tr.count (.freed n) + (s.queued n + s.running n)
  /-- What is freed has run to its end, or was allocated and not accepted. -/
  freed : ∀ n, tr.count (.freed n) + tr.count (.accepted n) =
    tr.count (.allocated n) + tr.count (.returned n)

/-- The step neither ends the run of a `held_task` nor opens a port that holds a callback. -/
def keepsContexts (s : QueueThreads) (input : ℕ × QueueEnv × QueueChoice) : Bool :=
  match input.2.2, s.threads[input.1]? with
  | .go, some (.returning n :: _) => !n.job.held
  | .go, some (.fallback _ :: _) =>
    s.memory.pool.fallback.isSome || s.memory.pool.opensIdle .threadPool .threadPool
  | .call (.create w c), _ => s.memory.pool.opensIdle w c
  | _, _ => true

end QueueThreads

namespace QueueMemory

structure Balance (m : QueueMemory) (old : List QueueFrame) (n : Ticket) (mv : QueueMove) :
    Prop where
  accepted : mv.events.count (.accepted n) + m.pool.weigh n.same +
      Stacks.weight (QueueFrame.runs n) old =
    mv.memory.pool.weigh n.same + Stacks.weight (QueueFrame.runs n) mv.new +
      mv.events.count (.returned n)
  freed : mv.events.count (.freed n) + mv.events.count (.accepted n) +
      (if n.job.held then mv.events.count (.returned n) else 0) =
    mv.events.count (.allocated n) + mv.events.count (.returned n)
  allocated : mv.events.count (.allocated n) ≤
    if n.number = m.tickets ∧ m.tickets < mv.memory.tickets then 1 else 0
  tickets : m.tickets ≤ mv.memory.tickets

theorem count_silent {ev : List QueueEvent} (silent : ∀ x ∈ ev, x.accounts = false)
    {x : QueueEvent} (accounts : x.accounts = true) : ev.count x = 0 := by
  refine List.count_eq_zero_of_not_mem fun hmem => ?_
  rw [silent x hmem] at accounts
  cases accounts

theorem Balance.of_silent {m : QueueMemory} {old : List QueueFrame} {n : Ticket} {mv : QueueMove}
    (weigh : mv.memory.pool.weigh n.same = m.pool.weigh n.same)
    (runs : Stacks.weight (QueueFrame.runs n) mv.new = Stacks.weight (QueueFrame.runs n) old)
    (tickets : m.tickets ≤ mv.memory.tickets) (silent : ∀ x ∈ mv.events, x.accounts = false) :
    Balance m old n mv := by
  have hallocated := count_silent silent (x := .allocated n) rfl
  have hfreed := count_silent silent (x := .freed n) rfl
  have haccepted := count_silent silent (x := .accepted n) rfl
  have hreturned := count_silent silent (x := .returned n) rfl
  refine ⟨by omega, ?_, by omega, tickets⟩
  rw [hallocated, hfreed, haccepted, hreturned]
  split_ifs <;> rfl

theorem runs_none {n : Ticket} {fs : List QueueFrame} (h : ∀ f ∈ fs, f.ticket = none) :
    Stacks.weight (QueueFrame.runs n) fs = 0 := by
  rw [Stacks.weight_eq_zero_iff]
  intro f hf
  simp [QueueFrame.runs, h f hf]

theorem ticket_light {f : QueueFrame} (h : f.light = true) : f.ticket = none := by
  cases f <;> simp [QueueFrame.light, QueueFrame.ticket] at h ⊢

theorem Ran.balance {m : QueueMemory} {x : Ticket} {canceled : Bool} {mv : QueueMove}
    (ran : Ran m x canceled mv) (n : Ticket) :
    Stacks.weight (QueueFrame.runs n) mv.new = n.same x ∧
      ∀ y ∈ mv.events, y.accounts = false := by
  constructor
  · rcases ran.new with ⟨-, h⟩ | ⟨-, h⟩ | ⟨k, -, h⟩ | ⟨k, -, h⟩ <;>
      simp [h, QueueFrame.runs, QueueFrame.ticket, Ticket.same]
  · rw [ran.events]
    cases x.job <;> simp [told, QueueEvent.accounts]

theorem Sends.frames {m m' : QueueMemory} {old rest instead : List QueueFrame} {j : Job}
    {undo : QueueMemory → QueueMemory} {ev : List QueueEvent}
    (sends : Sends m old m' j rest undo instead ev) (n : Ticket) :
    Stacks.weight (QueueFrame.runs n) old = 0 ∧ Stacks.weight (QueueFrame.runs n) rest = 0 ∧
      Stacks.weight (QueueFrame.runs n) instead = 0 ∧ ∀ x ∈ ev, x.accounts = false := by
  cases sends <;> simp [QueueFrame.runs, QueueFrame.ticket, QueueEvent.accounts]

/-- A submission of a new ticket. -/
theorem sent_balance {m m' : QueueMemory} {e : QueueEnv} {p : PortId} {delay : ℕ} {j : Job}
    {old rest instead : List QueueFrame} {undo : QueueMemory → QueueMemory}
    {ev : List QueueEvent} {mv : QueueMove} (sends : Sends m old m' j rest undo instead ev)
    (sent : Sent m' e p delay j rest undo instead ev mv) (n : Ticket) : Balance m old n mv := by
  have base := sends.base
  obtain ⟨hold, hrest, hinstead, hev⟩ := sends.frames n
  -- the ticket is a new one, so it is the only one that is allocated
  have new : ∀ {x : Ticket}, x.number = m'.tickets →
      n.same x ≤ if n.number = m.tickets ∧ m.tickets < m'.tickets + 1 then 1 else 0 := by
    intro x hx
    rw [base.tickets] at hx ⊢
    by_cases hxn : x = n
    · subst hxn
      simp [Ticket.same, hx]
    · simp [Ticket.same, hxn]
  cases sent with
  | unallocated _ =>
    have undone := sends.undone m'
    refine .of_silent ?_ (hinstead.trans hold.symm) ?_ ?_
    · rw [undone.pool, base.pool]
    · rw [undone.tickets, base.tickets]
    · simpa [QueueEvent.accounts] using hev
  | refused _ _ =>
    have undone := sends.undone { m' with tickets := m'.tickets + 1 }
    have hallocated := count_silent hev (x := .allocated n) rfl
    have hfreed := count_silent hev (x := .freed n) rfl
    have haccepted := count_silent hev (x := .accepted n) rfl
    have hreturned := count_silent hev (x := .returned n) rfl
    refine ⟨?_, ?_, ?_, ?_⟩
    · rw [undone.pool, base.pool, hold, hinstead]
      simp [haccepted, hreturned]
    · simp [hallocated, hfreed, haccepted, hreturned, List.count_cons]
    · simpa [hallocated, undone.tickets, List.count_cons, Ticket.same] using new rfl
    · rw [undone.tickets, base.tickets]
      exact Nat.le_succ _
  | @accepted t _ taken =>
    have hweigh := QueuePool.weigh_accepted n.same taken
    refine ⟨?_, ?_, ?_, ?_⟩
    · rw [← base.pool, hold, hrest]
      change _ = (m'.pool.setPort p t).weigh n.same + 0 + _
      rw [hweigh]
      simp [List.count_cons, Ticket.same, Nat.add_comm]
    · simp [List.count_cons]
    · simpa [List.count_cons, Ticket.same] using new rfl
    · rw [base.tickets]
      exact Nat.le_succ _
  | @immediate mv _ _ ran =>
    obtain ⟨hruns, hsilent⟩ := ran.balance n
    have hallocated := count_silent hsilent (x := .allocated n) rfl
    have hfreed := count_silent hsilent (x := .freed n) rfl
    have haccepted := count_silent hsilent (x := .accepted n) rfl
    have hreturned := count_silent hsilent (x := .returned n) rfl
    refine ⟨?_, ?_, ?_, ?_⟩
    · simp only [ran.pool, base.pool, hold, Stacks.weight_append, hruns, hrest]
      simp [haccepted, hreturned, List.count_cons, Ticket.same]
      omega
    · simp [hallocated, hfreed, haccepted, hreturned, List.count_cons]
    · rw [ran.tickets]
      simpa [hallocated, List.count_cons, Ticket.same] using new rfl
    · rw [ran.tickets, base.tickets]
      exact Nat.le_succ _

/-- A dispatcher takes a ticket from the port and runs it. -/
theorem dispatched_balance {m : QueueMemory} {p : PortId} {rest : List QueueFrame}
    {mv : QueueMove} (dispatched : Dispatched m p rest mv) {old : List QueueFrame} {n : Ticket}
    (hold : Stacks.weight (QueueFrame.runs n) old = 0)
    (hrest : Stacks.weight (QueueFrame.runs n) rest = 0) : Balance m old n mv := by
  cases dispatched with
  | idle _ => exact .of_silent rfl hold.symm (le_refl _) (by simp)
  | @took t mv took ran =>
    obtain ⟨hruns, hsilent⟩ := ran.balance n
    have hweigh := QueuePool.weigh_taken n.same took
    have hallocated := count_silent hsilent (x := .allocated n) rfl
    have hfreed := count_silent hsilent (x := .freed n) rfl
    have haccepted := count_silent hsilent (x := .accepted n) rfl
    have hreturned := count_silent hsilent (x := .returned n) rfl
    refine ⟨?_, ?_, ?_, ?_⟩
    · have hpool : mv.memory.pool = m.pool.setPort p t.port := ran.pool
      simp only [haccepted, hreturned, hpool, Stacks.weight_append, hruns, hrest, hold]
      omega
    · simp [hallocated, hfreed, haccepted, hreturned]
    · rw [hallocated]
      exact Nat.zero_le _
    · rw [ran.tickets]
      exact le_refl _

theorem weigh_same {p : QueuePool Ticket} {i : PortId} {t : TaskPort Ticket}
    (h : t.callbacks = (p.owned i).callbacks) (w : Ticket → ℕ) :
    (p.setPort i t).weigh w = p.weigh w := by
  have hset := p.weigh_setPort w i t
  rw [h] at hset
  omega

theorem marked_weigh (m : QueueMemory) (q : QueueId) (w : PortId) (v : Ticket → ℕ) :
    ((m.pool.markTerminated q).setPort w ((m.pool.markTerminated q).owned w).terminate).weigh v =
      m.pool.weigh v := by
  rw [weigh_same (TaskPort.callbacks_terminate _)]
  exact QueuePool.weigh_congr rfl rfl

/-- One case for each move: what runs a ticket was handed it by a port or by a submission, and
returns with it. -/
theorem Moved.balance {m : QueueMemory} {e : QueueEnv} {threads : List (List QueueFrame)}
    {ch : QueueChoice} {old : List QueueFrame} {mv : QueueMove}
    (moved : Moved m e threads ch old mv) (n : Ticket) : Balance m old n mv := by
  cases moved with
  | plain plain =>
    refine .of_silent (QueuePool.weigh_congr plain.owned plain.lost) ?_ (le_of_eq plain.tickets.symm)
      ?_
    · rw [runs_none fun f hf => ticket_light (plain.frames f hf),
        runs_none fun f hf => ticket_light (plain.before f hf)]
    · intro x hx
      have dull := plain.events x hx
      cases x <;> simp [QueueEvent.dull, QueueEvent.accounts] at dull ⊢
  | opens opens frames =>
    refine .of_silent (opens.pool.weigh _) ?_ (le_of_eq opens.tickets.symm) ?_
    · rcases frames with ⟨rfl, h⟩ | ⟨u, rfl, h⟩ <;> simp [h, QueueFrame.runs, QueueFrame.ticket]
    · simp [opens.events, QueueEvent.accounts]
  | composes composes =>
    refine .of_silent (QueuePool.weigh_congr composes.owned composes.lost) ?_
      (le_of_eq composes.tickets.symm) ?_
    · rw [composes.new]
    · simp [composes.events, QueueEvent.accounts]
  | sends sends => exact sent_balance sends (send_sent _ _ _ _ _ _ _ _ _) n
  | @dispatches ch p rest loop =>
    have hrest : Stacks.weight (QueueFrame.runs n) old = 0 := by
      cases loop <;> rfl
    exact dispatched_balance (dispatch_dispatched _ _ _) hrest hrest
  | @finish k =>
    have hlight : ∀ f ∈ (m.finish k).new, f.light = true := by
      unfold QueueMemory.finish
      split_ifs
      · exact resolve_light _ _
      · simp
      · simp
    refine .of_silent ?_ ?_ ?_ ?_
    · unfold QueueMemory.finish
      split_ifs <;> rfl
    · rw [runs_none fun f hf => ticket_light (hlight f hf)]
      rfl
    · unfold QueueMemory.finish
      split_ifs <;> exact le_refl _
    · unfold QueueMemory.finish
      split_ifs <;> simp [QueueEvent.accounts]
  | again _ _ _ => exact .of_silent rfl rfl (le_refl _) (by simp [QueueEvent.accounts])
  | @quits q w c wait _ _ _ =>
    exact .of_silent (m.marked_weigh q w _) rfl (le_refl _) (by simp [QueueEvent.accounts])
  | @terminates q w c wait _ _ _ =>
    exact .of_silent (m.marked_weigh q w _) rfl (le_refl _) (by simp [QueueEvent.accounts])
  | @terminatePort q w c wait =>
    refine .of_silent (weigh_same (TaskPort.callbacks_terminate _) _) ?_ (le_refl _)
      (by simp [QueueEvent.accounts])
    cases wait <;> rfl
  | terminated => exact .of_silent rfl rfl (le_refl _) (by simp [QueueEvent.accounts])
  | stops =>
    refine .of_silent rfl ?_ (le_refl _) (by simp)
    refine runs_none fun f hf => ?_
    obtain ⟨p, -, rfl⟩ := List.mem_map.mp hf
    rfl
  | @stopPort p =>
    exact .of_silent (weigh_same (TaskPort.callbacks_stop _) _) rfl (le_refl _)
      (by simp [QueueEvent.accounts])
  | join _ _ => exact .of_silent rfl rfl (le_refl _) (by simp)
  | joined => exact .of_silent rfl rfl (le_refl _) (by simp)
  | @release q =>
    refine .of_silent ?_ ?_ (le_refl _) ?_
    · exact QueuePool.weigh_congr (m.pool.releaseQueue_alike q).owned
        (m.pool.releaseQueue_alike q).lost
    · refine runs_none fun f hf => ?_
      simp only [QueueMemory.release, List.mem_append, List.mem_map] at hf
      rcases hf with (⟨p, -, rfl⟩ | ⟨p, -, rfl⟩) | hf
      · rfl
      · rfl
      · split_ifs at hf <;> simp at hf
        rw [hf]
        rfl
    · simp only [QueueMemory.release]
      split_ifs <;> simp [QueueEvent.accounts]
  | @givePorts q was done _ =>
    refine .of_silent ?_ rfl (le_refl _) ?_
    · exact QueuePool.weigh_congr (m.pool.givePorts_alike done).owned
        (m.pool.givePorts_alike done).lost
    · intro x hx
      rcases List.mem_append.mp hx with hx | hx <;>
        (obtain ⟨p, -, rfl⟩ := List.mem_map.mp hx; rfl)
  | inside leaves =>
    refine .of_silent rfl ?_ (le_refl _) (by simp)
    rcases leaves with rfl | ⟨k, -, rfl⟩ <;> simp [QueueFrame.runs, QueueFrame.ticket]
  | announces _ =>
    unfold QueueMemory.announce
    split_ifs <;> refine .of_silent rfl ?_ (le_refl _) (by simp [QueueEvent.accounts])
    all_goals simp [QueueFrame.runs, QueueFrame.ticket]
  | @returning x =>
    by_cases held : x.job.held
    · refine ⟨?_, ?_, ?_, le_refl _⟩
      · simp [held, QueueFrame.runs, QueueFrame.ticket, List.count_cons]
      · by_cases hx : x = n
        · subst hx; simp [held]
        · simp [held, hx]
      · simp [held]
    · refine ⟨?_, ?_, ?_, le_refl _⟩
      · simp [held, QueueFrame.runs, QueueFrame.ticket, List.count_cons]
      · by_cases hx : x = n
        · subst hx; simp [held]
        · simp [held, hx]
      · simp [held]
  | waits => exact .of_silent rfl rfl (le_refl _) (by simp)
  | ends _ => exact .of_silent rfl rfl (le_refl _) (by simp)

/-- Only the opening of ports loses callbacks. They were free, and lose what they held. -/
theorem Moved.lost {m : QueueMemory} {e : QueueEnv} {threads : List (List QueueFrame)}
    {ch : QueueChoice} {old : List QueueFrame} {mv : QueueMove}
    (moved : Moved m e threads ch old mv) : mv.memory.pool.lost = m.pool.lost ∨
      ((∃ u, old = [.fallback u]) ∨ old = [] ∧ ∃ w c, ch = .call (.create w c)) ∧
        ∃ wi ci, m.pool.portUsed wi = false ∧ m.pool.portUsed ci = false ∧
          mv.memory.pool.lost =
            m.pool.lost ++ (m.pool.owned wi).callbacks ++ (m.pool.owned ci).callbacks := by
  cases moved with
  | plain plain => exact .inl plain.lost
  | opens opens frames chosen =>
    refine .inr ⟨?_, _, _, opens.pool.workFree, opens.pool.completionFree, opens.pool.lost⟩
    rcases frames with ⟨rfl, -⟩ | ⟨u, rfl, -⟩
    · exact .inr ⟨rfl, chosen rfl⟩
    · exact .inl ⟨u, rfl⟩
  | composes composes => exact .inl composes.lost
  | @sends ch old m' p delay j rest undo instead ev sends =>
    have base := sends.base
    refine .inl ?_
    have sent := send_sent m' e p delay j rest undo instead ev
    generalize m'.send e p delay j rest undo instead ev = mv at sent ⊢
    cases sent with
    | unallocated _ => rw [(sends.undone m').pool, base.pool]
    | refused _ _ => rw [(sends.undone _).pool, base.pool]
    | accepted _ _ => rw [← base.pool]; rfl
    | immediate _ _ ran => rw [ran.pool, base.pool]
  | @dispatches _ p _ _ =>
    refine .inl ?_
    have dispatched := dispatch_dispatched m p old
    generalize m.dispatch p old [] = mv at dispatched ⊢
    cases dispatched with
    | idle _ => rfl
    | took _ called => rw [called.pool]; rfl
  | finish =>
    unfold QueueMemory.finish
    split_ifs <;> exact .inl rfl
  | announces _ =>
    unfold QueueMemory.announce
    split_ifs <;> exact .inl rfl
  | release => exact .inl (m.pool.releaseQueue_alike _).lost
  | givePorts _ => exact .inl (m.pool.givePorts_alike _).lost
  | _ => exact .inl rfl

/-- The run of a ticket ends where its task returns. -/
theorem Moved.returned {m : QueueMemory} {e : QueueEnv} {threads : List (List QueueFrame)}
    {ch : QueueChoice} {old : List QueueFrame} {mv : QueueMove}
    (moved : Moved m e threads ch old mv) {n : Ticket} (h : .returned n ∈ mv.events) :
    ch = .go ∧ old = [.returning n] := by
  cases moved with
  | plain plain => cases plain.events _ h
  | opens opens _ => simp [opens.events] at h
  | composes composes => simp [composes.events] at h
  | sends sends => cases sent_ofTask sends (send_sent _ _ _ _ _ _ _ _ _) _ h
  | dispatches _ => cases (dispatch_dispatched _ _ _).ofTask _ h
  | finish =>
    unfold QueueMemory.finish at h
    split_ifs at h <;> simp at h
  | release =>
    simp only [QueueMemory.release] at h
    split_ifs at h <;> simp at h
  | announces _ =>
    unfold QueueMemory.announce at h
    split_ifs at h <;> simp at h
  | givePorts _ => simp at h
  | @returning x =>
    have hx : n = x := by
      by_cases held : x.job.held <;> simpa [held] using h
    rw [hx]
    exact ⟨rfl, rfl⟩
  | _ => simp at h

theorem created_lost {m : QueueMemory} {e : QueueEnv} {threads : List (List QueueFrame)}
    {w c : DispatchMode} {q : QueueId} {mv : QueueMove}
    (h : m.created e threads w c = some (some (q, mv))) (idle : m.pool.opensIdle w c = true) :
    mv.memory.pool.lost = m.pool.lost := by
  have hlost : (m.pool.createQueue w c).2.lost = m.pool.lost := by
    simpa [QueuePool.opensIdle] using idle
  unfold created at h
  rcases hcreate : m.pool.createQueue w c with ⟨i, p⟩
  rw [hcreate] at h hlost
  cases i with
  | none => cases h
  | some i =>
    dsimp only at h
    split at h
    · split_ifs at h
      cases h
      exact hlost
    · cases h

end QueueMemory

namespace QueueThreads

variable {tr : List QueueEvent} {s t : QueueThreads} {i : ℕ} {e : QueueEnv} {c : QueueChoice}
  {ev : List QueueEvent}

/-- No callback is lost in a step that keeps the contexts. -/
theorem lost_step (keeps : keepsContexts s (i, e, c) = true)
    (h : step s (i, e, c) = some (t, ev)) : t.memory.pool.lost = s.memory.pool.lost := by
  obtain ⟨old, rest, mv, hstack, acts, -, rfl⟩ := step_cases h
  change mv.memory.pool.lost = (s.memory.tick e).pool.lost
  rcases (moved_of_acts acts).lost with h | ⟨⟨u, rfl⟩ | ⟨rfl, w, c, rfl⟩, -⟩
  · exact h
  · cases acts with
    | answer answered => simp [QueueMemory.answer] at answered
    | go goes =>
      simp only [keepsContexts, hstack, List.cons_append, List.nil_append, Bool.or_eq_true] at keeps
      simp only [QueueMemory.go] at goes
      split at goes
      · cases goes; rfl
      · rename_i hnone
        split at goes
        · rename_i q mv' hcreated
          have hnone : s.memory.pool.fallback = none := hnone
          have hlost := QueueMemory.created_lost hcreated (keeps.resolve_left (by simp [hnone]))
          cases goes
          exact hlost
        · cases goes
  · cases acts with
    | call _ called =>
      have idle : s.memory.pool.opensIdle w c = true := by simpa [keepsContexts, hstack] using keeps
      simp only [QueueMemory.call] at called
      split at called
      · cases called
      · cases called; rfl
      · rename_i q mv' hcreated
        have hlost := QueueMemory.created_lost hcreated idle
        cases called
        exact hlost

/-- What is known of one ticket of a run that keeps the contexts. -/
structure Entered (n : Ticket) (tr : List QueueEvent) (s : QueueThreads) : Prop where
  accepted : tr.count (.accepted n) = s.memory.pool.weigh n.same +
    Stacks.total (QueueFrame.runs n) s.threads + tr.count (.returned n)
  freed : tr.count (.freed n) + tr.count (.accepted n) =
    tr.count (.allocated n) + tr.count (.returned n)
  once : tr.count (.allocated n) ≤ if n.number < s.memory.tickets then 1 else 0
  lost : s.memory.pool.lost = []

theorem entered_start (n : Ticket) (threads : ℕ) : Entered n [] (start threads) where
  accepted := by
    change 0 = (QueuePool.empty : QueuePool Ticket).weigh n.same +
      Stacks.total (QueueFrame.runs n) (List.replicate threads []) + 0
    rw [QueuePool.weigh_empty, Stacks.total_replicate_nil]
  freed := rfl
  once := Nat.zero_le _
  lost := rfl

theorem Entered.step {n : Ticket} (entered : Entered n tr s)
    (keeps : keepsContexts s (i, e, c) = true) (h : step s (i, e, c) = some (t, ev)) :
    Entered n (tr ++ ev) t := by
  have hlost := (lost_step keeps h).trans entered.lost
  obtain ⟨old, rest, mv, hstack, acts, rfl, rfl⟩ := step_cases h
  have moved := moved_of_acts acts
  have balance := moved.balance n
  have htotal := total_acts (w := QueueFrame.runs n) hstack moved fun _ => rfl
  -- a step ends the run of the ticket only if its context is no `held_task`
  have hheld : (if n.job.held then mv.events.count (.returned n) else 0) = 0 := by
    split_ifs with held
    · refine List.count_eq_zero_of_not_mem fun hmem => ?_
      obtain ⟨rfl, rfl⟩ := moved.returned hmem
      simp [keepsContexts, hstack, held] at keeps
    · rfl
  refine ⟨?_, ?_, ?_, hlost⟩
  · have hbefore := entered.accepted
    have hmove := balance.accepted
    change _ + s.memory.pool.weigh n.same + _ = _ at hmove
    simp only [List.count_append]
    omega
  · have hbefore := entered.freed
    have hmove := balance.freed
    rw [hheld] at hmove
    simp only [List.count_append]
    omega
  · have hbefore := entered.once
    have hmove := balance.allocated
    have htickets := balance.tickets
    change s.memory.tickets ≤ _ at htickets
    change _ ≤ if n.number = s.memory.tickets ∧ s.memory.tickets < mv.memory.tickets then 1 else 0
      at hmove
    simp only [List.count_append]
    split_ifs at hbefore hmove ⊢ <;> omega

/-- In every run in which no `held_task` runs to its end and no port that holds a callback is
opened, the contexts that are allocated and not freed are those that are queued or running. -/
theorem contexts_accounted {threads : ℕ} (run : Reaches QueueThreads.step
    (fun s input => keepsContexts s input = true) (start threads) tr s) : Ledger tr s := by
  have entered : ∀ n, Entered n tr s := by
    intro n
    refine run.invariant (P := Entered n) (entered_start n threads) ?_
    rintro tr s ⟨i, e, c⟩ t ev entered keeps hstep
    exact entered.step keeps hstep
  constructor
  · intro n
    have once := (entered n).once
    split_ifs at once <;> omega
  · intro n
    have freed := (entered n).freed
    have accepted := (entered n).accepted
    rw [QueuePool.weigh, (entered n).lost, Stacks.weight_nil] at accepted
    simp only [queued, running]
    omega
  · exact fun n => (entered n).freed

/-- An operation is begun, its work runs and returns, and nothing is left of it but its context. -/
def runWork : List (ℕ × QueueEnv × QueueChoice) :=
  [first (.call (.create .manual .manual)), first (.call (.begin (some 0) false)), first .go,
    first (.call (.dispatch 0 .work)), first (.answer true), first .go, first .go]

/-- A callback of the caller runs and its context is freed. -/
def runCallback : List (ℕ × QueueEnv × QueueChoice) :=
  [first (.call (.create .manual .manual)), first (.call (.submit 0 .work 0 7)),
    first (.call (.dispatch 0 .work)), first (.answer true), first .go]

theorem runCallback_ends : (execute step (start 1) runCallback).map (fun r =>
      (r.2.count (.returned ⟨0, 0, .callback 7⟩), r.2.count (.freed ⟨0, 0, .callback 7⟩))) =
    some (1, 1) := by
  decide +kernel

theorem contexts_accounted_callback : ∃ (tr : List QueueEvent) (s : QueueThreads),
    Reaches QueueThreads.step (fun s input => keepsContexts s input = true) (start 1) tr s ∧
    tr.count (.freed ⟨0, 0, .callback 7⟩) = 1 ∧ Ledger tr s := by
  obtain ⟨⟨s, tr⟩, hrun, hcounts⟩ := Option.map_eq_some_iff.mp runCallback_ends
  have run : Reaches QueueThreads.step (fun s input => keepsContexts s input = true) (start 1)
      tr s :=
    reaches_of_execute _ hrun (by decide +kernel)
  exact ⟨tr, s, run, (Prod.mk.inj hcounts).2, contexts_accounted run⟩

theorem runWork_ends : (execute step (start 1) runWork).map (fun r =>
      (r.2.count (.allocated ⟨0, 0, .work 0⟩), r.2.count (.freed ⟨0, 0, .work 0⟩),
        r.1.queued ⟨0, 0, .work 0⟩ + r.1.running ⟨0, 0, .work 0⟩)) = some (1, 0, 0) := by
  decide +kernel

/-- The work of every operation leaves a context behind that nothing frees. -/
theorem held_task_kept : ∃ (tr : List QueueEvent) (s : QueueThreads),
    Reaches QueueThreads.step always (start 1) tr s ∧ ¬ Ledger tr s := by
  obtain ⟨⟨s, tr⟩, hrun, hcounts⟩ := Option.map_eq_some_iff.mp runWork_ends
  refine ⟨tr, s, reaches_of_run hrun, fun ledger => ?_⟩
  have live := ledger.live ⟨0, 0, .work 0⟩
  obtain ⟨hallocated, hcounts⟩ := Prod.mk.inj hcounts
  obtain ⟨hfreed, hbusy⟩ := Prod.mk.inj hcounts
  change _ = _ + (s.queued _ + s.running _) at live
  dsimp only at hallocated hfreed hbusy
  omega

end QueueThreads

end IW4x.Gdk
