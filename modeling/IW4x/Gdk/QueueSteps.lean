import IW4x.Gdk.PoolPorts

/-!
# What a step of the task queues can do

`Moved` lists what the step of a thread can do to the ports, the tickets and its own activations.
The invariants of the ports are proved over these cases.
-/

namespace IW4x.Gdk

/-- The activation is on the way to submit the completion routine of the operation. -/
def Use.publishes (k : ℕ) : Use → ℕ
  | .announce x => if x = k then 1 else 0
  | _ => 0

def QueueFrame.publishes (k : ℕ) : QueueFrame → ℕ
  | .load u => u.publishes k
  | .fallback u => u.publishes k
  | .install u => u.publishes k
  | .reload u => u.publishes k
  | .use u _ => u.publishes k
  | _ => 0

/-- The activation has no ticket, stops and gives back no port, terminates nothing and is no
worker's. -/
def QueueFrame.light : QueueFrame → Bool
  | .calling _ => true
  | .finish _ => true
  | .retire _ => true
  | .load _ => true
  | .fallback _ => true
  | .install _ => true
  | .reload _ => true
  | .use _ _ => true
  | .crashed => true
  | .release _ => true
  | _ => false

def QueueEvent.dull : QueueEvent → Bool
  | .installed _ => true
  | .process _ => true
  | _ => false

def QueueEvent.ofTask : QueueEvent → Bool
  | .allocated _ => true
  | .freed _ => true
  | .accepted _ => true
  | .refused _ _ _ => true
  | .called _ => true
  | .routine _ => true
  | .last _ => true
  | _ => false

namespace QueueMemory

/-- What a step changes that has nothing to do with ports, tickets and terminations. -/
structure Plain (m : QueueMemory) (old : List QueueFrame) (mv : QueueMove) : Prop where
  owned : mv.memory.pool.owned = m.pool.owned
  lost : mv.memory.pool.lost = m.pool.lost
  holders : QueuePool.SameHolders m.pool mv.memory.pool
  generation : mv.memory.pool.generation = m.pool.generation
  terminated : ∀ q, (mv.memory.pool.made q).terminated = (m.pool.made q).terminated
  tickets : mv.memory.tickets = m.tickets
  terminations : mv.memory.terminations = m.terminations
  workers : mv.memory.workers = m.workers
  clock : mv.memory.clock = m.clock
  begun : m.begun ≤ mv.memory.begun
  stage : ∀ k, (mv.memory.operations k).stage = (m.operations k).stage ∨
    (k = m.begun ∧ m.begun < mv.memory.begun ∧ (mv.memory.operations k).stage = .running)
  frames : ∀ f ∈ mv.new, f.light = true
  finishes : ∀ k, QueueFrame.finish k ∈ mv.new → k < mv.memory.begun
  before : ∀ f ∈ old, f.light = true
  publishes : ∀ k, Stacks.weight (QueueFrame.publishes k) mv.new ≤
    Stacks.weight (QueueFrame.publishes k) old
  events : ∀ x ∈ mv.events, x.dull = true
  spawned : mv.spawned = []

theorem plain_frames (m : QueueMemory) {old new : List QueueFrame}
    (frames : ∀ f ∈ new, f.light = true) (finishes : ∀ k, QueueFrame.finish k ∈ new → k < m.begun)
    (before : ∀ f ∈ old, f.light = true)
    (publishes : ∀ k, Stacks.weight (QueueFrame.publishes k) new ≤
      Stacks.weight (QueueFrame.publishes k) old) : Plain m old ⟨m, new, [], []⟩ :=
  ⟨rfl, rfl, .refl _, rfl, fun _ => rfl, rfl, rfl, rfl, rfl, le_refl _,
    fun _ => .inl rfl, frames, finishes, before, publishes, by simp, rfl⟩

/-- A submission: the activations that are removed, the memory the port is asked with, the task, and
what is done when it is accepted or refused. -/
inductive Sends (m : QueueMemory) : List QueueFrame → QueueMemory → Job → List QueueFrame →
    (QueueMemory → QueueMemory) → List QueueFrame → List QueueEvent → Prop
  | callback {x} : Sends m [] m (.callback x) [] id [] []
  | posted {x q} : Sends m [.use (.post x) q] m (.posted x) [] id [] []
  | schedule {k} (begun : k < m.begun) : Sends m [] m (.work k) [] id [] []
  | begin {queue routine q} : Sends m [.use (.begin queue routine) q]
      (m.addOperation false queue routine q) (.work m.begun) []
      (fun n => (n.setStage m.begun .refused).retire m.begun) [] []
  | announce {k q} : Sends m [.use (.announce k) q] (m.setStage k .waiting) (.announce k) []
      (·.setStage k .refused) [] []
  | last {t q w c wait} : Sends m [.submitLast t q w c wait] m (.last t)
      [.terminatePort q w c wait] id [.calling t, .terminatePort q w c wait] [.last t]

/-- Nothing changed but the operations. -/
structure SameBut (m n : QueueMemory) : Prop where
  pool : n.pool = m.pool
  tickets : n.tickets = m.tickets
  terminations : n.terminations = m.terminations
  workers : n.workers = m.workers
  clock : n.clock = m.clock

theorem SameBut.refl (m : QueueMemory) : SameBut m m := ⟨rfl, rfl, rfl, rfl, rfl⟩

theorem Sends.base {m m' : QueueMemory} {old rest instead : List QueueFrame} {j : Job}
    {undo : QueueMemory → QueueMemory} {ev : List QueueEvent}
    (sends : Sends m old m' j rest undo instead ev) : SameBut m m' := by
  cases sends <;> exact ⟨rfl, rfl, rfl, rfl, rfl⟩

theorem Sends.undone {m m' : QueueMemory} {old rest instead : List QueueFrame} {j : Job}
    {undo : QueueMemory → QueueMemory} {ev : List QueueEvent}
    (sends : Sends m old m' j rest undo instead ev) (n : QueueMemory) : SameBut n (undo n) := by
  cases sends <;> exact ⟨rfl, rfl, rfl, rfl, rfl⟩

/-- What is known besides when the task of a ticket is called. -/
def told : Job → List QueueEvent
  | .last t => [.last t]
  | _ => []

/-- The task of a ticket is called. -/
structure Ran (m : QueueMemory) (n : Ticket) (canceled : Bool) (mv : QueueMove) : Prop where
  pool : mv.memory.pool = m.pool
  tickets : mv.memory.tickets = m.tickets
  terminations : mv.memory.terminations = m.terminations
  workers : mv.memory.workers = m.workers
  clock : mv.memory.clock = m.clock
  begun : mv.memory.begun = m.begun
  operations : mv.memory.operations = m.operations
  new : (∀ k, n.job ≠ .announce k) ∧ mv.new = [.inside n canceled] ∨
    (∀ k, n.job ≠ .announce k) ∧ mv.new = [.returning n] ∨
    (∃ k, n.job = .work k ∧ mv.new = [.finish k, .returning n]) ∨
    ∃ k, n.job = .announce k ∧ mv.new = [.announcing n canceled]
  events : mv.events = .called n :: told n.job
  spawned : mv.spawned = []

theorem run_ran (m : QueueMemory) (n : Ticket) (canceled : Bool) :
    Ran m n canceled (m.run n canceled) := by
  unfold run
  split
  · rename_i x hjob
    exact ⟨rfl, rfl, rfl, rfl, rfl, rfl, rfl, .inl ⟨by simp [hjob], rfl⟩, by simp [told, hjob], rfl⟩
  · rename_i x hjob
    refine ⟨rfl, rfl, rfl, rfl, rfl, rfl, rfl, ?_, by simp [told, hjob], rfl⟩
    cases canceled
    · exact .inl ⟨by simp [hjob], rfl⟩
    · exact .inr (.inl ⟨by simp [hjob], rfl⟩)
  · rename_i t hjob
    exact ⟨rfl, rfl, rfl, rfl, rfl, rfl, rfl, .inl ⟨by simp [hjob], rfl⟩, by simp [told, hjob], rfl⟩
  · rename_i k hjob
    split_ifs
    · exact ⟨rfl, rfl, rfl, rfl, rfl, rfl, rfl, .inr (.inr (.inl ⟨k, hjob, rfl⟩)),
        by simp [told, hjob], rfl⟩
    · exact ⟨rfl, rfl, rfl, rfl, rfl, rfl, rfl, .inl ⟨by simp [hjob], rfl⟩,
        by simp [told, hjob], rfl⟩
  · rename_i k hjob
    exact ⟨rfl, rfl, rfl, rfl, rfl, rfl, rfl, .inr (.inr (.inr ⟨k, hjob, rfl⟩)),
      by simp [told, hjob], rfl⟩

/-- What becomes of a submission. -/
inductive Sent (m : QueueMemory) (e : QueueEnv) (p : PortId) (delay : ℕ) (j : Job)
    (rest : List QueueFrame) (undo : QueueMemory → QueueMemory) (instead : List QueueFrame)
    (ev : List QueueEvent) : QueueMove → Prop
  | unallocated (alloc : e.alloc = false) :
      Sent m e p delay j rest undo instead ev ⟨undo m, instead, .refused p j j.refusal :: ev, []⟩
  | refused (alloc : e.alloc = true)
      (refused : (m.pool.owned p).submit m.clock delay ⟨m.tickets, p, j⟩ = .refused) :
      Sent m e p delay j rest undo instead ev ⟨undo { m with tickets := m.tickets + 1 }, instead,
        [.allocated ⟨m.tickets, p, j⟩, .freed ⟨m.tickets, p, j⟩, .refused p j j.refusal] ++ ev, []⟩
  | accepted {t} (alloc : e.alloc = true)
      (taken : (m.pool.owned p).submit m.clock delay ⟨m.tickets, p, j⟩ = .accepted t) :
      Sent m e p delay j rest undo instead ev
        ⟨{ m with tickets := m.tickets + 1, pool := m.pool.setPort p t }, rest,
          [.allocated ⟨m.tickets, p, j⟩, .accepted ⟨m.tickets, p, j⟩], []⟩
  | immediate {mv} (alloc : e.alloc = true) (immediate : (m.pool.owned p).mode = .immediate)
      (ran : Ran { m with tickets := m.tickets + 1 } ⟨m.tickets, p, j⟩ false mv) :
      Sent m e p delay j rest undo instead ev ⟨mv.memory, mv.new ++ rest,
        [.allocated ⟨m.tickets, p, j⟩, .accepted ⟨m.tickets, p, j⟩] ++ mv.events, []⟩

theorem send_sent (m : QueueMemory) (e : QueueEnv) (p : PortId) (delay : ℕ) (j : Job)
    (rest : List QueueFrame) (undo : QueueMemory → QueueMemory) (instead : List QueueFrame)
    (ev : List QueueEvent) :
    Sent m e p delay j rest undo instead ev (m.send e p delay j rest undo instead ev) := by
  unfold send offer
  by_cases halloc : e.alloc = false
  · simp only [halloc]
    exact .unallocated halloc
  · have halloc : e.alloc = true := by simpa using halloc
    simp only [halloc]
    cases hsubmit : (m.pool.owned p).submit m.clock delay ⟨m.tickets, p, j⟩ with
    | immediate =>
      have hmode : (m.pool.owned p).mode = .immediate := by
        unfold TaskPort.submit at hsubmit
        split_ifs at hsubmit with h
        exact h
      exact .immediate halloc hmode (run_ran _ _ _)
    | accepted t => exact .accepted halloc hsubmit
    | refused => exact .refused halloc hsubmit

/-- What becomes of a step of `dispatch`. -/
inductive Dispatched (m : QueueMemory) (p : PortId) (ran : List QueueFrame) : QueueMove → Prop
  | idle (empty : (m.pool.owned p).take m.clock = none) : Dispatched m p ran ⟨m, [], [], []⟩
  | took {t mv} (took : (m.pool.owned p).take m.clock = some t)
      (called : Ran (m.withPool (m.pool.setPort p t.port)) t.item.callback t.canceled mv) :
      Dispatched m p ran ⟨mv.memory, mv.new ++ ran, mv.events, []⟩

theorem dispatch_dispatched (m : QueueMemory) (p : PortId) (ran : List QueueFrame) :
    Dispatched m p ran (m.dispatch p ran []) := by
  unfold dispatch
  cases htake : (m.pool.owned p).take m.clock with
  | none => exact .idle htake
  | some t => exact .took htake (run_ran _ _ _)

structure Opens (m : QueueMemory) (e : QueueEnv) (threads : List (List QueueFrame))
    (q : QueueId) (w c : DispatchMode) (wi ci : PortId) (mv : QueueMove) : Prop where
  pool : QueuePool.Created m.pool mv.memory.pool w c q wi ci
  owns : QueuePool.OwnsPorts m.pool mv.memory.pool q wi ci
  tickets : mv.memory.tickets = m.tickets
  terminations : mv.memory.terminations = m.terminations
  operations : mv.memory.operations = m.operations
  begun : mv.memory.begun = m.begun
  clock : mv.memory.clock = m.clock
  idle : m.workers wi = [] ∧ m.workers ci = []
  workers : mv.memory.workers = Function.update (Function.update m.workers wi
    (List.range' threads.length (min (workerCount w) e.workThreads))) ci
    (List.range' (threads.length + min (workerCount w) e.workThreads)
      (min (workerCount c) e.completionThreads))
  events : mv.events = [.created q, .opened wi w, .opened ci c]
  spawned : mv.spawned = List.replicate (min (workerCount w) e.workThreads) [.worker wi] ++
    List.replicate (min (workerCount c) e.completionThreads) [.worker ci]

structure Composes (m : QueueMemory) (q : QueueId) (w c : PortId) (mv : QueueMove) : Prop where
  borrows : QueuePool.BorrowsPorts m.pool mv.memory.pool q (some w) (some c)
  owned : mv.memory.pool.owned = m.pool.owned
  lost : mv.memory.pool.lost = m.pool.lost
  generation : mv.memory.pool.generation =
    Function.update m.pool.generation q (m.pool.generation q + 1)
  tickets : mv.memory.tickets = m.tickets
  terminations : mv.memory.terminations = m.terminations
  operations : mv.memory.operations = m.operations
  begun : mv.memory.begun = m.begun
  clock : mv.memory.clock = m.clock
  workers : mv.memory.workers = m.workers
  new : mv.new = []
  events : mv.events = [.created q]
  spawned : mv.spawned = []

/-- The task of a ticket that a thread was inside has its last part to run. -/
def leaves (n : Ticket) (new : List QueueFrame) : Prop :=
  new = [.returning n] ∨ ∃ k, n.job = .work k ∧ new = [.finish k, .returning n]

/-- Who dispatches a port: a call, the loop that empties it, or a worker that finds something. -/
inductive Dispatches (m : QueueMemory) (p : PortId) : QueueChoice → List QueueFrame → Prop
  | call {q which} (port : (m.pool.made q).port which = some p) :
      Dispatches m p (.call (.dispatch q which)) []
  | drain : Dispatches m p .go [.drain p]
  | worker (found : ((m.pool.owned p).take m.clock).isSome) : Dispatches m p .go [.worker p]

/-- What a step does, apart from the activations below those that it removes. -/
inductive Moved (m : QueueMemory) (e : QueueEnv) (threads : List (List QueueFrame)) :
    QueueChoice → List QueueFrame → QueueMove → Prop
  | plain {ch old mv} (plain : Plain m old mv) : Moved m e threads ch old mv
  | opens {ch old q w c wi ci mv} (opens : Opens m e threads q w c wi ci mv)
      (frames : old = [] ∧ mv.new = [] ∨ ∃ u, old = [.fallback u] ∧ mv.new = [.install u])
      (chosen : old = [] → ∃ w c, ch = .call (.create w c)) :
      Moved m e threads ch old mv
  | composes {q w c mv} (composes : Composes m q w c mv) :
      Moved m e threads (.call (.createComposite w c)) [] mv
  | sends {ch old m' p delay j rest undo instead ev}
      (sends : Sends m old m' j rest undo instead ev) :
      Moved m e threads ch old (m'.send e p delay j rest undo instead ev)
  | dispatches {ch p rest} (loop : Dispatches m p ch rest) :
      Moved m e threads ch rest (m.dispatch p rest [])
  | finish {k} : Moved m e threads .go [.finish k] (m.finish k)
  | again {q wait f w c} (work : (m.pool.made q).work = some w)
      (completion : (m.pool.made q).completion = some c)
      (marked : (m.pool.made q).terminated = true) :
      Moved m e threads (.call (.terminate q wait f)) [] ⟨m, [], [.terminated w c], []⟩
  | quits {q w c wait} (work : (m.pool.made q).work = some w)
      (completion : (m.pool.made q).completion = some c)
      (unmarked : (m.pool.made q).terminated = false) :
      Moved m e threads (.call (.terminate q wait false)) []
        ⟨m.withPool ((m.pool.markTerminated q).setPort w
          ((m.pool.markTerminated q).owned w).terminate),
          [.terminatePort q w c wait], [.closed w], []⟩
  | terminates {q w c wait} (work : (m.pool.made q).work = some w)
      (completion : (m.pool.made q).completion = some c)
      (unmarked : (m.pool.made q).terminated = false) :
      Moved m e threads (.call (.terminate q wait true)) []
        ⟨{ m.withPool ((m.pool.markTerminated q).setPort w
            ((m.pool.markTerminated q).owned w).terminate) with
            terminations := m.terminations ++ [{
              work := w, completion := c, before := m.tickets
              owes := m.outstanding threads w c }] },
          [.submitLast m.terminations.length q w c wait],
          [.terminating m.terminations.length w c, .closed w], []⟩
  | terminatePort {q w c wait} : Moved m e threads .go [.terminatePort q w c wait]
      ⟨m.withPool (m.pool.setPort c (m.pool.owned c).terminate),
        if wait then [.drain c, .terminated q w c] else [.terminated q w c], [.closed c], []⟩
  | terminated {q w c} : Moved m e threads .go [.terminated q w c] ⟨m, [], [.terminated w c], []⟩
  | stops : Moved m e threads (.call .stop) []
      ⟨m, ((List.finRange 32).filter m.pool.portUsed).map .stopPort, [], []⟩
  | stopPort {p} : Moved m e threads .go [.stopPort p]
      ⟨m.withPool (m.pool.setPort p (m.pool.owned p).stop), [.join p 0], [.closed p], []⟩
  | join {p joined i} (worker : (m.workers p)[joined]? = some i)
      (ended : threads[i]? = some [.ended]) :
      Moved m e threads .go [.join p joined] ⟨m, [.join p (joined + 1)], [], []⟩
  | joined {p} : Moved m e threads .go [.join p (m.workers p).length]
      ⟨{ m with workers := Function.update m.workers p [] }, [.drain p], [], []⟩
  | release {q} : Moved m e threads .go [.release q] (m.release q)
  | givePorts {q was done} (used : done.1.all m.pool.portUsed ∧ done.2.all m.pool.portUsed) :
      Moved m e threads .go [.givePorts q was done]
        ⟨m.withPool (m.pool.givePorts done), [],
          done.1.toList.map .given ++ done.2.toList.map .given, []⟩
  | inside {finishes n canceled new} (leaves : leaves n new) :
      Moved m e threads (.answer finishes) [.inside n canceled] ⟨m, new, [], []⟩
  | announces {n canceled k} (job : n.job = .announce k) :
      Moved m e threads .go [.announcing n canceled] (m.announce n canceled k)
  | returning {n} : Moved m e threads .go [.returning n]
      ⟨m, [], if n.job.held then [.returned n] else [.returned n, .freed n], []⟩
  | waits {p} : Moved m e threads .go [.worker p] ⟨m, [.worker p], [], []⟩
  | ends {p} (marked : (m.pool.owned p).terminated = true) :
      Moved m e threads .go [.worker p] ⟨m, [.ended], [], []⟩

/-- What `Opens` does not speak of may change. -/
theorem Opens.same {m : QueueMemory} {e : QueueEnv} {threads : List (List QueueFrame)}
    {q : QueueId} {w c : DispatchMode} {wi ci : PortId} {mv mv' : QueueMove}
    (opens : Opens m e threads q w c wi ci mv)
    (pool : mv'.memory.pool = { mv.memory.pool with fallback := mv'.memory.pool.fallback })
    (tickets : mv'.memory.tickets = mv.memory.tickets)
    (terminations : mv'.memory.terminations = mv.memory.terminations)
    (operations : mv'.memory.operations = mv.memory.operations)
    (begun : mv'.memory.begun = mv.memory.begun) (clock : mv'.memory.clock = mv.memory.clock)
    (workers : mv'.memory.workers = mv.memory.workers) (events : mv'.events = mv.events)
    (spawned : mv'.spawned = mv.spawned) : Opens m e threads q w c wi ci mv' := by
  have hpool := opens.pool
  constructor
  · rw [pool]
    exact ⟨hpool.apart, hpool.workFree, hpool.completionFree, hpool.workUsed,
      hpool.completionUsed, hpool.owned, hpool.made, hpool.generation, hpool.lost⟩
  · have howns := opens.owns
    rw [pool]
    exact ⟨howns.apart, howns.free, howns.workFree, howns.completionFree, howns.used, howns.owns,
      howns.held, howns.made, howns.portOwned, howns.borrows, howns.portUsed, howns.ports,
      howns.queues, howns.first⟩
  · rw [tickets, opens.tickets]
  · rw [terminations, opens.terminations]
  · rw [operations, opens.operations]
  · rw [begun, opens.begun]
  · rw [clock, opens.clock]
  · exact opens.idle
  · rw [workers, opens.workers]
  · rw [events, opens.events]
  · rw [spawned, opens.spawned]

theorem resolve_light (u : Use) (q : Option QueueId) : ∀ f ∈ resolve u q, f.light = true := by
  cases q <;> simp [resolve, QueueFrame.light]

theorem resolve_finishes (u : Use) (q : Option QueueId) (k : ℕ) :
    QueueFrame.finish k ∉ resolve u q := by
  cases q <;> simp [resolve]

theorem resolve_publishes (u : Use) (q : Option QueueId) (k : ℕ) :
    Stacks.weight (QueueFrame.publishes k) (resolve u q) = u.publishes k := by
  cases q <;> simp [resolve, QueueFrame.publishes]

theorem created_opens {m : QueueMemory} {e : QueueEnv} {threads : List (List QueueFrame)}
    {w c : DispatchMode} {q : QueueId} {mv : QueueMove}
    (h : m.created e threads w c = some (some (q, mv))) :
    mv.new = [] ∧ ∃ wi ci, Opens m e threads q w c wi ci mv := by
  unfold created at h
  rcases hcreate : m.pool.createQueue w c with ⟨i, p⟩
  have hcases := (m.pool.createQueue_cases w c).2
  have howns := m.pool.createQueue_owns w c
  rw [hcreate] at h hcases howns
  rcases hcases with ⟨rfl, -⟩ | ⟨i, wi, ci, rfl, hmade⟩
  · cases h
  · obtain ⟨h', -⟩ | ⟨x, wi', ci', p', heq, owns⟩ := howns
    · cases h'
    cases heq
    have hports : TaskQueue.openWith (some wi) (some ci) =
        TaskQueue.openWith (some wi') (some ci') := by
      have hmade := congrFun (hmade.made.symm.trans owns.made) i
      simpa only [Function.update_self] using hmade
    obtain ⟨rfl, rfl⟩ : wi = wi' ∧ ci = ci' := by simpa [TaskQueue.openWith] using hports
    have hq : p.made i = .openWith (some wi) (some ci) := by
      rw [show p.made = _ from hmade.made, Function.update_self]
    have hwork : (p.made i).work = some wi := by rw [hq]; rfl
    have hcompletion : (p.made i).completion = some ci := by rw [hq]; rfl
    simp only [hwork, hcompletion] at h
    split_ifs at h with hidle
    cases h
    refine ⟨rfl, wi, ci, ?_⟩
    exact {
      pool := ⟨hmade.apart, hmade.workFree, hmade.completionFree, hmade.workUsed,
        hmade.completionUsed, hmade.owned, hmade.made, hmade.generation, hmade.lost⟩
      owns := ⟨owns.apart, owns.free, owns.workFree, owns.completionFree, owns.used, owns.owns,
        owns.held, owns.made, owns.portOwned, owns.borrows, owns.portUsed, owns.ports, owns.queues,
        owns.first⟩
      tickets := rfl
      terminations := rfl
      operations := rfl
      begun := rfl
      clock := rfl
      idle := hidle
      workers := by simp [hire, withPool]
      events := rfl
      spawned := by simp [hire] }

theorem composite_composes {m : QueueMemory} {w c : PortId} {q : QueueId}
    {p : QueuePool Ticket} (h : m.pool.createCompositeQueue (some w) (some c) = (some q, p)) :
    Composes m q w c ⟨(m.withPool p).give q (m.given q + 1), [], [.created q], []⟩ := by
  obtain ⟨h', -⟩ | ⟨x, p', heq, borrows⟩ := m.pool.createCompositeQueue_borrows (some w) (some c)
  · rw [h'] at h; cases h
  rw [heq] at h
  cases h
  have hkept := heq
  unfold QueuePool.createCompositeQueue at hkept
  rcases htake : m.pool.takeQueue with ⟨i, p₁⟩
  rw [htake] at hkept
  cases i with
  | none => cases hkept
  | some i =>
    obtain ⟨howned, -, hlost, -, hgeneration⟩ := QueuePool.takeQueue_some htake
    cases hkept
    refine ⟨?_, howned, hlost, hgeneration, rfl, rfl, rfl, rfl, rfl, rfl, rfl, rfl, rfl⟩
    exact ⟨borrows.free, borrows.used, borrows.owns, borrows.held, borrows.made, borrows.portOwned,
      borrows.borrows, borrows.portUsed, borrows.ports, borrows.queues, borrows.first⟩

theorem moved_nothing (m : QueueMemory) (e : QueueEnv) (threads : List (List QueueFrame))
    (ch : QueueChoice) : Moved m e threads ch [] ⟨m, [], [], []⟩ :=
  .plain (plain_frames m (by simp) (by simp) (by simp) (by simp))

theorem terminate_moved {m : QueueMemory} {e : QueueEnv} {threads : List (List QueueFrame)}
    {q : QueueId} {wait f : Bool} {mv : QueueMove} (h : m.terminate threads q wait f = some mv) :
    Moved m e threads (.call (.terminate q wait f)) [] mv := by
  unfold terminate at h
  split at h
  · rename_i w c hwork hcompletion
    split_ifs at h with hmarked hf
    · cases h
      exact .again hwork hcompletion hmarked
    · cases h
      subst hf
      exact .terminates hwork hcompletion (by simpa using hmarked)
    · cases h
      obtain rfl : f = false := by simpa using hf
      exact .quits hwork hcompletion (by simpa using hmarked)
  · cases h

theorem close_new (m : QueueMemory) (q : QueueId) :
    (m.close q).new = [] ∨ (m.close q).new = [.release q] := by
  unfold close
  dsimp only
  split_ifs
  · exact .inr rfl
  · exact .inl rfl

theorem close_terminated (m : QueueMemory) (q x : QueueId) :
    ((m.close q).memory.pool.made x).terminated = (m.pool.made x).terminated := by
  change ((m.pool.close q).made x).terminated = _
  unfold QueuePool.close
  by_cases hx : x = q
  · subst hx
    simp only [Function.update_self]
  · simp only [Function.update_of_ne hx]

theorem close_plain (m : QueueMemory) (q : QueueId) : Plain m [] (m.close q) := by
  have hpool : (m.close q).memory.pool = m.pool.close q := rfl
  constructor
  case holders =>
    rw [hpool]
    exact m.pool.close_holders q
  case terminated => exact m.close_terminated q
  case stage => exact fun _ => .inl rfl
  case frames => rcases m.close_new q with h | h <;> simp [h, QueueFrame.light]
  case finishes => rcases m.close_new q with h | h <;> simp [h]
  case before => simp
  case publishes =>
    intro k
    rcases m.close_new q with h | h <;> simp [h, QueueFrame.publishes]
  case events => simp [close]
  case begun => exact le_refl _
  all_goals rfl

theorem duplicate_plain (m : QueueMemory) (q : QueueId) (old : List QueueFrame)
    (before : ∀ f ∈ old, f.light = true) :
    Plain m old ⟨(m.withPool (m.pool.duplicate q)).give q (m.given q + 1), [], [], []⟩ := by
  refine ⟨rfl, rfl, m.pool.duplicate_holders q, rfl, ?_, rfl, rfl, rfl, rfl, le_refl _,
    fun _ => .inl rfl, by simp, by simp, before, by simp, by simp, rfl⟩
  intro x
  by_cases hx : x = q
  · subst hx; simp [withPool, give, QueuePool.duplicate]
  · simp [withPool, give, QueuePool.duplicate, hx]

theorem call_moved {m : QueueMemory} {e : QueueEnv} {threads : List (List QueueFrame)}
    {c : QueueCall} {mv : QueueMove} (h : m.call e threads c = some mv) :
    Moved m e threads (.call c) [] mv := by
  have looksUp : ∀ u q, (∀ k, u.publishes k = 0) →
      Moved m e threads (.call c) [] ⟨m, resolve u q, [], []⟩ := by
    intro u q hu
    refine .plain (plain_frames m (resolve_light u q)
      (fun k hk => absurd hk (resolve_finishes u q k)) (by simp) ?_)
    intro k
    simp [resolve_publishes, hu]
  cases c with
  | create w c =>
    simp only [call] at h
    split at h
    · cases h
    · cases h; exact moved_nothing m e threads _
    · rename_i q mv' hcreated
      obtain ⟨hnew, wi, ci, opens⟩ := created_opens hcreated
      cases h
      exact .opens (opens.same rfl rfl rfl rfl rfl rfl rfl rfl rfl) (.inl ⟨rfl, hnew⟩)
        fun _ => ⟨w, c, rfl⟩
  | createComposite w c =>
    simp only [call] at h
    split at h
    · cases h; exact moved_nothing m e threads _
    · rename_i q p hcreate
      cases h
      exact .composes (composite_composes hcreate)
  | duplicate q => cases h; exact .plain (m.duplicate_plain q [] (by simp))
  | close q => cases h; exact .plain (m.close_plain q)
  | setCurrent q =>
    cases h
    exact .plain ⟨rfl, rfl, m.pool.current_holders q, rfl, fun _ => rfl, rfl, rfl, rfl, rfl,
      le_refl _, fun _ => .inl rfl, by simp, by simp, by simp, by simp,
      by simp [QueueEvent.dull], rfl⟩
  | getCurrent => cases h; exact looksUp .current none fun _ => rfl
  | getPort q => cases h; exact looksUp _ _ fun _ => rfl
  | submit q p delay x =>
    simp only [call] at h
    split at h
    · cases h
    · cases h; exact .sends .callback
  | dispatch q p =>
    simp only [call] at h
    split at h
    · cases h
    · rename_i hport
      cases h
      exact .dispatches (.call hport)
  | terminate q wait f => exact terminate_moved h
  | stop => cases h; exact .stops
  | begin queue routine => cases h; exact looksUp _ _ fun _ => rfl
  | provide queue routine => cases h; exact looksUp _ _ fun _ => rfl
  | schedule k delay =>
    simp only [call] at h
    split_ifs at h with hk
    · split at h
      · cases h
      · cases h; exact .sends (.schedule hk.1)
    · cases h; exact moved_nothing m e threads _
  | post q x => cases h; exact looksUp _ _ fun _ => rfl
  | finish k =>
    cases h
    split_ifs with hk
    · exact .plain (plain_frames m (by simp [QueueFrame.light]) (by simpa using hk.1) (by simp)
        (by simp [QueueFrame.publishes]))
    · exact moved_nothing m e threads _
  | cancel k =>
    cases h
    split_ifs with hk
    · exact .plain (plain_frames m (by simp [QueueFrame.light]) (by simpa using hk.1) (by simp)
        (by simp [QueueFrame.publishes]))
    · exact moved_nothing m e threads _
  | takeResult k =>
    cases h
    split_ifs with hk
    · exact .plain (plain_frames m (by simp [QueueFrame.light]) (by simp) (by simp)
        (by simp [QueueFrame.publishes]))
    · exact moved_nothing m e threads _
  | rewrite k queue routine =>
    cases h
    refine .plain ⟨rfl, rfl, .refl _, rfl, fun _ => rfl, rfl, rfl, rfl, rfl,
      le_refl _, ?_, by simp, by simp, by simp, by simp, by simp, rfl⟩
    intro x
    by_cases hx : x = k
    · subst hx; simp
    · simp [hx]

theorem useStep_moved {m : QueueMemory} {e : QueueEnv} {threads : List (List QueueFrame)}
    {q : QueueId} {u : Use} {mv : QueueMove} (h : m.useStep e q u = some mv) :
    Moved m e threads .go [.use u q] mv := by
  cases u with
  | current => cases h; exact .plain (m.duplicate_plain q _ (by simp [QueueFrame.light]))
  | port =>
    cases h
    exact .plain (plain_frames m (by simp) (by simp) (by simp [QueueFrame.light]) (by simp))
  | begin queue routine =>
    simp only [useStep] at h
    split at h
    · cases h
    · cases h; exact .sends .begin
  | provide queue routine =>
    cases h
    refine .plain ⟨rfl, rfl, .refl _, rfl, fun _ => rfl, rfl, rfl, rfl, rfl,
      Nat.le_succ _, ?_, by simp, by simp, by simp [QueueFrame.light], by simp, by simp, rfl⟩
    intro k
    by_cases hk : k = m.begun
    · subst hk
      exact .inr ⟨rfl, Nat.lt_succ_self _, by simp [addOperation]⟩
    · simp [addOperation, hk]
  | post x =>
    simp only [useStep] at h
    split at h
    · cases h
    · cases h; exact .sends .posted
  | announce k =>
    simp only [useStep] at h
    split at h
    · cases h
    · cases h; exact .sends .announce

theorem go_moved {m : QueueMemory} {e : QueueEnv} {threads : List (List QueueFrame)}
    {f : QueueFrame} {mv : QueueMove} (h : m.go e threads f = some mv) :
    Moved m e threads .go [f] mv := by
  -- a step of `process_queue` that changes none of the pool's ports
  have looks : ∀ (u : Use) (f g : QueueFrame), f.light = true → g.light = true →
      (∀ k, g ≠ .finish k) →
      (∀ k, f.publishes k = u.publishes k) → (∀ k, g.publishes k ≤ u.publishes k) →
      ∀ ev : List QueueEvent, (∀ x ∈ ev, x.dull = true) → ∀ p : QueuePool Ticket,
      p.owned = m.pool.owned → p = { m.pool with current := p.current } →
      Moved m e threads .go [f] ⟨m.withPool p, [g], ev, []⟩ := by
    intro u f g hf hg hfinish hfu hgu ev dull p _ hp
    rw [hp]
    refine .plain ⟨rfl, rfl, m.pool.current_holders _, rfl, fun _ => rfl, rfl, rfl, rfl, rfl,
      le_refl _, fun _ => .inl rfl, by simpa using hg, ?_, by simpa using hf, ?_, dull, rfl⟩
    · exact fun k hk => absurd (List.mem_singleton.mp hk).symm (hfinish k)
    intro k
    simpa [hfu k] using hgu k
  cases f with
  | inside n canceled => simp [go] at h
  | returning n => cases h; exact .returning
  | calling t => simp [go] at h
  | announcing n canceled =>
    simp only [go] at h
    split at h
    · rename_i k hjob
      cases h
      exact .announces hjob
    · cases h
  | finish k => cases h; exact .finish
  | retire k =>
    cases h
    refine .plain ⟨rfl, rfl, .refl _, rfl, fun _ => rfl, rfl, rfl, rfl, rfl,
      le_refl _, ?_, by simp, by simp, by simp [QueueFrame.light], by simp, by simp, rfl⟩
    intro x
    by_cases hx : x = k
    · subst hx; simp [QueueMemory.retire]
    · simp [QueueMemory.retire, hx]
  | load u =>
    simp only [go] at h
    split at h
    · cases h
      exact looks u _ _ rfl rfl (by simp) (fun _ => rfl) (fun _ => le_refl _) _
        (by simp [QueueEvent.dull]) m.pool rfl rfl
    · cases h
      exact looks u _ _ rfl rfl (by simp) (fun _ => rfl) (fun _ => le_refl _) _ (by simp)
        m.pool rfl rfl
  | fallback u =>
    simp only [go] at h
    split at h
    · cases h
      exact looks u _ _ rfl rfl (by simp) (fun _ => rfl) (fun _ => le_refl _) _ (by simp)
        m.pool rfl rfl
    · split at h
      · rename_i q mv' hcreated
        obtain ⟨-, wi, ci, opens⟩ := created_opens hcreated
        cases h
        exact .opens (opens.same rfl rfl rfl rfl rfl rfl rfl rfl rfl) (.inr ⟨u, rfl, rfl⟩)
          (by simp)
      · cases h
  | install u =>
    simp only [go] at h
    split at h
    · cases h
      exact looks u _ _ rfl rfl (by simp) (fun _ => rfl) (fun _ => le_refl _) _ (by simp)
        m.pool rfl rfl
    · cases h
      exact looks u _ _ rfl rfl (by simp) (fun _ => rfl) (fun _ => le_refl _) _
        (by simp [QueueEvent.dull]) _ rfl rfl
  | reload u =>
    simp only [go] at h
    split at h
    · cases h
      exact looks u _ _ rfl rfl (by simp) (fun _ => rfl) (fun _ => le_refl _) _
        (by simp [QueueEvent.dull]) m.pool rfl rfl
    · cases h
      exact looks u _ _ rfl rfl (by simp) (fun _ => rfl) (fun _ => Nat.zero_le _) _
        (by simp [QueueEvent.dull]) m.pool rfl rfl
  | use u q => exact useStep_moved h
  | crashed => simp [go] at h
  | release q => cases h; exact .release
  | submitLast t q w c wait => cases h; exact .sends .last
  | terminatePort q w c wait => cases h; exact .terminatePort
  | terminated q w c => cases h; exact .terminated
  | stopPort p => cases h; exact .stopPort
  | join p joined =>
    simp only [go] at h
    split_ifs at h with hall
    · cases h
      subst hall
      exact .joined
    · split at h
      · cases h
      · rename_i i hworker
        split_ifs at h with hended
        cases h
        exact .join hworker hended
  | drain p => cases h; exact .dispatches .drain
  | givePorts q was done =>
    simp only [go] at h
    split_ifs at h with hused
    cases h
    exact .givePorts hused
  | worker p =>
    simp only [go] at h
    split at h
    · cases h
      by_cases hmarked : (m.pool.owned p).terminated = true
      · simp only [hmarked, if_true]
        exact .ends hmarked
      · simp only [hmarked]
        exact .waits
    · rename_i t htake
      cases h
      exact .dispatches (.worker (by rw [htake]; rfl))
  | ended => simp [go] at h

theorem answer_moved {m : QueueMemory} {e : QueueEnv} {threads : List (List QueueFrame)}
    {finishes : Bool} {f : QueueFrame} {mv : QueueMove} (h : m.answer finishes f = some mv) :
    Moved m e threads (.answer finishes) [f] mv := by
  cases f with
  | inside n canceled =>
    simp only [answer] at h
    split at h
    · rename_i k hjob
      split_ifs at h
      · cases h; exact .inside (.inr ⟨k, hjob, rfl⟩)
      · cases h; exact .inside (.inl rfl)
    · cases h; exact .inside (.inl rfl)
  | calling t =>
    cases h
    exact .plain (plain_frames m (by simp) (by simp) (by simp [QueueFrame.light]) (by simp))
  | _ => simp [answer] at h

theorem Ran.ofTask {m : QueueMemory} {n : Ticket} {canceled : Bool} {mv : QueueMove}
    (ran : Ran m n canceled mv) : ∀ x ∈ mv.events, x.ofTask = true := by
  rw [ran.events]
  cases n.job <;> simp [told, QueueEvent.ofTask]

theorem sent_ofTask {m m' : QueueMemory} {e : QueueEnv} {p : PortId} {delay : ℕ} {j : Job}
    {old rest instead : List QueueFrame} {undo : QueueMemory → QueueMemory}
    {ev : List QueueEvent} {mv : QueueMove} (sends : Sends m old m' j rest undo instead ev)
    (sent : Sent m' e p delay j rest undo instead ev mv) : ∀ x ∈ mv.events, x.ofTask = true := by
  have hev : ∀ x ∈ ev, x.ofTask = true := by
    cases sends <;> simp [QueueEvent.ofTask]
  cases sent with
  | unallocated _ => simpa [QueueEvent.ofTask] using hev
  | refused _ _ => simpa [QueueEvent.ofTask] using hev
  | accepted _ _ => simp [QueueEvent.ofTask]
  | immediate _ _ ran => simpa [QueueEvent.ofTask] using ran.ofTask

theorem Dispatched.ofTask {m : QueueMemory} {p : PortId} {ran : List QueueFrame}
    {mv : QueueMove} (dispatched : Dispatched m p ran mv) : ∀ x ∈ mv.events, x.ofTask = true := by
  cases dispatched with
  | idle _ => simp
  | took _ called => exact called.ofTask

theorem Sent.unspawned {m : QueueMemory} {e : QueueEnv} {p : PortId} {delay : ℕ} {j : Job}
    {rest instead : List QueueFrame} {undo : QueueMemory → QueueMemory} {ev : List QueueEvent}
    {mv : QueueMove} (sent : Sent m e p delay j rest undo instead ev mv) : mv.spawned = [] := by
  cases sent <;> rfl

theorem Dispatched.unspawned {m : QueueMemory} {p : PortId} {ran : List QueueFrame}
    {mv : QueueMove} (dispatched : Dispatched m p ran mv) : mv.spawned = [] := by
  cases dispatched <;> rfl

/-- The threads that a step starts are workers. -/
theorem Moved.spawned {m : QueueMemory} {e : QueueEnv} {threads : List (List QueueFrame)}
    {ch : QueueChoice} {old : List QueueFrame} {mv : QueueMove}
    (moved : Moved m e threads ch old mv) :
    ∀ stack ∈ mv.spawned, ∃ p, stack = [.worker p] := by
  have none : mv.spawned = [] → ∀ stack ∈ mv.spawned, ∃ p, stack = [.worker p] := by
    intro h stack hstack
    rw [h] at hstack
    cases hstack
  cases moved with
  | plain plain => exact none plain.spawned
  | @opens _ _ _ _ _ wi ci _ opens _ _ =>
    intro stack hstack
    rw [opens.spawned] at hstack
    rcases List.mem_append.mp hstack with h | h
    · exact ⟨wi, (List.mem_replicate.mp h).2⟩
    · exact ⟨ci, (List.mem_replicate.mp h).2⟩
  | composes composes => exact none composes.spawned
  | sends _ => exact none (send_sent _ _ _ _ _ _ _ _ _).unspawned
  | dispatches _ => exact none (dispatch_dispatched _ _ _).unspawned
  | @finish k =>
    refine none ?_
    unfold QueueMemory.finish
    split_ifs <;> rfl
  | announces _ =>
    refine none ?_
    unfold QueueMemory.announce
    split_ifs <;> rfl
  | _ => exact none rfl

end QueueMemory

namespace QueueThreads

theorem moved_of_acts {m : QueueMemory} {e : QueueEnv} {threads : List (List QueueFrame)}
    {c : QueueChoice} {old rest : List QueueFrame} {mv : QueueMove}
    (acts : Acts m e threads c old rest mv) : QueueMemory.Moved m e threads c old mv := by
  cases acts with
  | call _ called => exact QueueMemory.call_moved called
  | answer answered => exact QueueMemory.answer_moved answered
  | go goes => exact QueueMemory.go_moved goes

theorem total_acts {m : QueueMemory} {e : QueueEnv} {c : QueueChoice} {i : ℕ}
    {threads : List (List QueueFrame)} {old rest : List QueueFrame} {mv : QueueMove}
    {w : QueueFrame → ℕ} (hstack : threads[i]? = some (old ++ rest))
    (moved : QueueMemory.Moved m e threads c old mv) (hworker : ∀ p, w (.worker p) = 0) :
    Stacks.total w (threads.set i (mv.new ++ rest) ++ mv.spawned) + Stacks.weight w old =
      Stacks.total w threads + Stacks.weight w mv.new := by
  have hset := Stacks.total_set w hstack (mv.new ++ rest)
  have hspawned : Stacks.total w mv.spawned = 0 := by
    rw [Stacks.total_eq_zero_iff]
    intro stack hs f hf
    obtain ⟨p, rfl⟩ := moved.spawned stack hs
    obtain rfl := List.mem_singleton.mp hf
    exact hworker p
  simp only [Stacks.weight_append, Stacks.total_append, hspawned] at hset ⊢
  omega

theorem weight_old_le (w : QueueFrame → ℕ) {i : ℕ} {threads : List (List QueueFrame)}
    {old rest : List QueueFrame} (hstack : threads[i]? = some (old ++ rest)) :
    Stacks.weight w old ≤ Stacks.total w threads := by
  have hle := Stacks.weight_le_total w (List.mem_of_getElem? hstack)
  rw [Stacks.weight_append] at hle
  omega

end QueueThreads

end IW4x.Gdk
