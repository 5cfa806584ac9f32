import IW4x.Lib.Runs
import IW4x.Lib.Stacks
import IW4x.Gdk.Queues
import IW4x.Gdk.Types

/-!
# The threads of the task queues

Any number of threads call the task queue API, from outside or from the callbacks that the ports
run, and the workers of the ports dispatch them. Here `process_queue`, `queue_terminate` and
`queue_close_handle` are taken apart into their atomic accesses and critical sections, which
`IW4x.Gdk.AsyncThreads` steps over at once. Of an operation there is what the queues see of it: its
work and its completion routine are callbacks of ports, completing it hands the routine to a port,
and once it is retired there is no routine to call. A `dispatch` that would wait answers at once that
it ran nothing, and may be called again; calls that fail on their arguments are left out.

Every submission that could be allocated gets a ticket of its own, which stands for the context
that was allocated. The numbers of the tickets, `terminations`, `begun` and `given` are not in the
source and nothing reads them; neither is the stage of an operation beyond whether it is `running`,
which is the flag `completed`.
-/

namespace IW4x.Gdk

open Runs

/-- What a port was given to run. -/
inductive Job where
  /-- A callback of the caller, in an `adapted`. -/
  | callback (x : ℕ)
  /-- An event, in a `posted`. -/
  | posted (x : ℕ)
  /-- The callback of a termination, in a `completion`. -/
  | last (t : ℕ)
  /-- `perform` or `do_work`, for the operation. -/
  | work (k : ℕ)
  | announce (k : ℕ)
  deriving DecidableEq, Inhabited

/-- The context of a submission. -/
structure Ticket where
  number : ℕ
  port : PortId
  job : Job
  deriving DecidableEq, Inhabited

/-- How far the completion of an operation has come. -/
inductive Stage where
  /-- Not completed. -/
  | running
  /-- `finish` has completed the operation and is about to submit its routine. -/
  | publishing
  /-- There was no routine. -/
  | silent
  /-- A port has accepted the routine. -/
  | waiting
  /-- No port would take the routine. -/
  | refused
  /-- The routine was dispatched. -/
  | heard
  /-- When its turn came there was no routine to call any more. -/
  | unheard
  deriving DecidableEq

structure Operation where
  /-- Whether a provider does the work. -/
  provided : Bool
  /-- The caller's own fields of the block. -/
  queue : Option QueueId
  routine : Bool
  /-- `async_state::queue`. -/
  home : QueueId
  /-- `async_state::retired`: the block has let go of the operation. -/
  retired : Bool
  stage : Stage

/-- A call of `queue_terminate` that was the first for its queue and brought a callback. -/
structure Termination where
  work : PortId
  completion : PortId
  /-- How many tickets there were. -/
  before : ℕ
  /-- The operations whose work was outstanding on one of the ports. -/
  owes : List ℕ

structure QueueMemory where
  pool : QueuePool Ticket
  operations : ℕ → Operation
  begun : ℕ
  terminations : List Termination
  /-- The threads a port has started and not joined. -/
  workers : PortId → List ℕ
  /-- How many tickets there were so far. -/
  tickets : ℕ
  clock : ℕ
  /-- How many handles of the queue object the callers were given and have not closed. -/
  given : QueueId → ℕ

/-- What `process_queue` was called for. -/
inductive Use where
  /-- `queue_get_current_process`. -/
  | current
  /-- `queue_get_port`. -/
  | port
  /-- `begin`, with the fields of the block. -/
  | begin (queue : Option QueueId) (routine : Bool)
  /-- `provider_begin`, with the fields of the block. -/
  | provide (queue : Option QueueId) (routine : Bool)
  | post (x : ℕ)
  /-- `finish`. -/
  | announce (k : ℕ)
  deriving DecidableEq

inductive QueueFrame where
  /-- Inside the code outside the library that the ticket's task calls. -/
  | inside (n : Ticket) (canceled : Bool)
  /-- `announce`, before its critical section. -/
  | announcing (n : Ticket) (canceled : Bool)
  /-- The ticket's task, about to return to `dispatch`. -/
  | returning (n : Ticket)
  /-- `queue_terminate`, inside the callback that it calls itself. -/
  | calling (t : ℕ)
  | finish (k : ℕ)
  | retire (k : ℕ)
  /-- `process_queue`, before its first load. -/
  | load (u : Use)
  /-- `process_queue`, before the static queue is there. -/
  | fallback (u : Use)
  /-- `process_queue`, before the compare-exchange. -/
  | install (u : Use)
  /-- `process_queue`, before its last load. -/
  | reload (u : Use)
  /-- A queue was found. -/
  | use (u : Use) (q : QueueId)
  /-- A null pointer was dereferenced. -/
  | crashed
  /-- `queue_close_handle`, before `release_queue`. -/
  | release (q : QueueId)
  /-- `queue_terminate`, before it submits the callback. -/
  | submitLast (t : ℕ) (q : QueueId) (w c : PortId) (wait : Bool)
  /-- `queue_terminate`, before it terminates the completion port. -/
  | terminatePort (q : QueueId) (w c : PortId) (wait : Bool)
  /-- `queue_terminate`, about to return. -/
  | terminated (q : QueueId) (w c : PortId)
  | stopPort (p : PortId)
  /-- `stop`, with so many workers joined. -/
  | join (p : PortId) (joined : ℕ)
  /-- The loop that dispatches a port until it is empty. -/
  | drain (p : PortId)
  /-- `release_queue`, before its second critical section; with how often the queue object had been
  handed out and the ports that it named. -/
  | givePorts (q : QueueId) (was : ℕ × Option PortId × Option PortId)
    (done : Option PortId × Option PortId)
  /-- `work`. -/
  | worker (p : PortId)
  /-- The thread has returned from `work`. -/
  | ended
  deriving DecidableEq

inductive QueueEvent where
  | created (q : QueueId)
  | opened (p : PortId) (mode : DispatchMode)
  /-- The queue object was given back to the pool. -/
  | released (q : QueueId)
  /-- The port was given back to the pool. -/
  | given (p : PortId)
  /-- The current process queue was stored. -/
  | installed (q : Option QueueId)
  /-- `process_queue` returns what it dereferences. -/
  | process (q : Option QueueId)
  | allocated (n : Ticket)
  | freed (n : Ticket)
  | accepted (n : Ticket)
  /-- A submission failed; with the code that its caller is told, if it is told one. -/
  | refused (p : PortId) (j : Job) (hr : Option HResult)
  | called (n : Ticket)
  | returned (n : Ticket)
  /-- `terminate` or `stop` has marked the port. -/
  | closed (p : PortId)
  /-- An operation was completed; with a routine to be called or not. -/
  | finished (k : ℕ) (routine : Bool)
  /-- The completion routine of the operation is dispatched. -/
  | routine (k : ℕ)
  /-- `queue_terminate` is called for the first time on a queue with these ports. -/
  | terminating (t : ℕ) (w c : PortId)
  /-- The callback of the termination is called. -/
  | last (t : ℕ)
  /-- `queue_terminate` returns, on a queue with these ports. -/
  | terminated (w c : PortId)
  deriving DecidableEq

inductive QueueCall where
  | create (w c : DispatchMode)
  | createComposite (w c : PortId)
  | duplicate (q : QueueId)
  | close (q : QueueId)
  | setCurrent (q : Option QueueId)
  | getCurrent
  | getPort (q : Option QueueId)
  | submit (q : QueueId) (p : Port) (delay x : ℕ)
  | dispatch (q : QueueId) (p : Port)
  /-- `queue_terminate`; `f` says whether there is a callback. -/
  | terminate (q : QueueId) (wait f : Bool)
  /-- `stop_queues`. -/
  | stop
  | begin (queue : Option QueueId) (routine : Bool)
  | provide (queue : Option QueueId) (routine : Bool)
  | schedule (k delay : ℕ)
  | post (q : Option QueueId) (x : ℕ)
  /-- The provider of an operation completes it. -/
  | finish (k : ℕ)
  | cancel (k : ℕ)
  /-- `take_result`, up to where it retires the operation. -/
  | takeResult (k : ℕ)
  /-- The caller writes its own fields of a block. -/
  | rewrite (k : ℕ) (queue : Option QueueId) (routine : Bool)

/-- What a step finds outside: how much time has passed, whether memory can be allocated, and how
many threads can be started for either port of a new queue. -/
structure QueueEnv where
  elapsed : ℕ := 0
  alloc : Bool := true
  workThreads : ℕ := 3
  completionThreads : ℕ := 3

inductive QueueChoice where
  | call (c : QueueCall)
  /-- The callback on top returns; a provider may leave its operation to be completed later. -/
  | answer (finishes : Bool)
  | go

/-- What a step comes to, apart from the activations that were there. -/
structure QueueMove where
  memory : QueueMemory
  new : List QueueFrame
  events : List QueueEvent
  /-- The threads that were started. -/
  spawned : List (List QueueFrame) := []

/-- What became of a submission. -/
inductive Offered where
  /-- The context could not be allocated. -/
  | unallocated
  | refused (n : Ticket) (m : QueueMemory)
  | immediate (n : Ticket) (m : QueueMemory)
  | accepted (n : Ticket) (m : QueueMemory)

/-- The activation is code outside the library. -/
def QueueFrame.outside : QueueFrame → Bool
  | .inside _ _ => true
  | .calling _ => true
  | _ => false

/-- The ticket whose task an activation belongs to. -/
def QueueFrame.ticket : QueueFrame → Option Ticket
  | .inside n _ => some n
  | .announcing n _ => some n
  | .returning n => some n
  | _ => none

/-- `finish` and `announce` find a block, and a routine in it. -/
def Operation.heeded (o : Operation) : Bool := o.routine && !o.retired

/-- The code that a caller is told when its submission was refused: `post` answers false, and
`finish` tells nobody. -/
def Job.refusal : Job → Option HResult
  | .callback _ => some E_ABORT
  | .work _ => some E_ABORT
  | _ => none

/-- The context is a `held_task`. -/
def Job.held : Job → Bool
  | .work _ => true
  | .announce _ => true
  | _ => false

/-- The operation whose work on one of the ports the ticket is. -/
def Ticket.works (w c : PortId) (n : Ticket) : Option ℕ :=
  match n.job with
  | .work k => if n.port = w ∨ n.port = c then some k else none
  | _ => none

namespace QueueMemory

def start : QueueMemory where
  pool := .empty
  operations := fun _ =>
    { provided := false, queue := none, routine := false, home := 0, retired := false
      stage := .running }
  begun := 0
  terminations := []
  workers := fun _ => []
  tickets := 0
  clock := 0
  given := fun _ => 0

variable (m : QueueMemory)

def withPool (p : QueuePool Ticket) : QueueMemory := { m with pool := p }

def give (q : QueueId) (n : ℕ) : QueueMemory :=
  { m with given := Function.update m.given q n }

def setStage (k : ℕ) (s : Stage) : QueueMemory :=
  let o := m.operations k
  { m with operations := Function.update m.operations k { o with stage := s } }

/-- `retire`. -/
def retire (k : ℕ) : QueueMemory :=
  let o := m.operations k
  { m with operations := Function.update m.operations k { o with retired := true } }

/-- Another operation, not completed. -/
def addOperation (provided : Bool) (queue : Option QueueId) (routine : Bool) (q : QueueId) :
    QueueMemory :=
  { m with
    operations := Function.update m.operations m.begun
      { provided := provided, queue := queue, routine := routine, home := q, retired := false
        stage := .running }
    begun := m.begun + 1 }

def tick (e : QueueEnv) : QueueMemory := { m with clock := m.clock + e.elapsed }

/-- `task_port::submit`, for a task that has to be allocated. -/
def offer (e : QueueEnv) (p : PortId) (delay : ℕ) (j : Job) : Offered :=
  let n : Ticket := ⟨m.tickets, p, j⟩
  if e.alloc = false then .unallocated
  else match (m.pool.owned p).submit m.clock delay n with
    | .immediate => .immediate n { m with tickets := m.tickets + 1 }
    | .accepted t => .accepted n { m with
        tickets := m.tickets + 1
        pool := m.pool.setPort p t }
    | .refused => .refused n { m with tickets := m.tickets + 1 }

/-- The task of a ticket is called: `run_adapted`, `run_completion`, `run_held` or `deliver`. -/
def run (n : Ticket) (canceled : Bool) : QueueMove :=
  match n.job with
  | .callback _ => ⟨m, [.inside n canceled], [.called n], []⟩
  -- a canceled event is not delivered
  | .posted _ =>
    ⟨m, if canceled then [.returning n] else [.inside n canceled], [.called n], []⟩
  | .last t => ⟨m, [.inside n canceled], [.called n, .last t], []⟩
  | .work k =>
    -- `perform` calls nothing when it is canceled
    if canceled ∧ (m.operations k).provided = false then
      ⟨m, [.finish k, .returning n], [.called n], []⟩
    else ⟨m, [.inside n canceled], [.called n], []⟩
  | .announce _ => ⟨m, [.announcing n canceled], [.called n], []⟩

/-- A submission. When it is refused the context is freed, `undo` says what the caller does to the
memory, and `instead` what it goes on with. -/
def send (e : QueueEnv) (p : PortId) (delay : ℕ) (j : Job) (rest : List QueueFrame)
    (undo : QueueMemory → QueueMemory) (instead : List QueueFrame) (ev : List QueueEvent) :
    QueueMove :=
  match m.offer e p delay j with
  | .unallocated => ⟨undo m, instead, .refused p j j.refusal :: ev, []⟩
  | .refused n m =>
    ⟨undo m, instead, [.allocated n, .freed n, .refused p j j.refusal] ++ ev, []⟩
  | .accepted n m => ⟨m, rest, [.allocated n, .accepted n], []⟩
  | .immediate n m =>
    ⟨(m.run n false).memory, (m.run n false).new ++ rest,
      [.allocated n, .accepted n] ++ (m.run n false).events, []⟩

/-- A submission that leaves nothing to be done. -/
def put (e : QueueEnv) (p : PortId) (delay : ℕ) (j : Job) : QueueMove :=
  m.send e p delay j [] id [] []

/-- A step of `dispatch` on the port that takes a callback, if there is one. -/
def dispatch (p : PortId) (ran idle : List QueueFrame) : QueueMove :=
  match (m.pool.owned p).take m.clock with
  | none => ⟨m, idle, [], []⟩
  | some t =>
    let s := (m.withPool (m.pool.setPort p t.port)).run t.item.callback t.canceled
    ⟨s.memory, s.new ++ ran, s.events, []⟩

/-- `resolve` and `queue_of`. -/
def resolve (u : Use) : Option QueueId → List QueueFrame
  | some q => [.use u q]
  | none => [.load u]

/-- The operations with work outstanding on one of the ports. -/
def outstanding (threads : List (List QueueFrame)) (w c : PortId) : List ℕ :=
  ((m.pool.owned w).callbacks ++ (m.pool.owned c).callbacks ++
    threads.flatten.filterMap QueueFrame.ticket).filterMap (Ticket.works w c)

/-- `queue_terminate`, up to the end of the work port. -/
def terminate (threads : List (List QueueFrame)) (q : QueueId) (wait f : Bool) :
    Option QueueMove :=
  match (m.pool.made q).work, (m.pool.made q).completion with
  | some w, some c =>
    if (m.pool.made q).terminated then some ⟨m, [], [.terminated w c], []⟩
    else
      let marked := m.pool.markTerminated q
      let n := m.withPool (marked.setPort w (marked.owned w).terminate)
      if f then
        let t := m.terminations.length
        some ⟨{ n with
            terminations := m.terminations ++ [{
              work := w, completion := c, before := m.tickets
              owes := m.outstanding threads w c }] },
          [.submitLast t q w c wait], [.terminating t w c, .closed w], []⟩
      else some ⟨n, [.terminatePort q w c wait], [.closed w], []⟩
  | _, _ => none

/-- `queue_close_handle`, up to `release_queue`. -/
def close (q : QueueId) : QueueMove :=
  let n := (m.withPool (m.pool.close q)).give q (m.given q - 1)
  ⟨n, if (n.pool.made q).references = 0 then [.release q] else [], [], []⟩

/-- A port starts its workers, as many as can be started; `first` is the number of the first. -/
def hire (p : PortId) (mode : DispatchMode) (threads first : ℕ) :
    QueueMemory × List (List QueueFrame) :=
  let n := min (workerCount mode) threads
  ({ m with workers := Function.update m.workers p (List.range' first n) },
    List.replicate n [.worker p])

/-- `create_queue` and the threads that it starts: no queue if there is no room for one, and `none`
where a port that is opened still has workers. -/
def created (e : QueueEnv) (threads : List (List QueueFrame)) (w c : DispatchMode) :
    Option (Option (QueueId × QueueMove)) :=
  match m.pool.createQueue w c with
  | (none, _) => some none
  | (some q, p) =>
    match (p.made q).work, (p.made q).completion with
    | some wi, some ci =>
      if m.workers wi = [] ∧ m.workers ci = [] then
        let work := (m.withPool p).hire wi w e.workThreads threads.length
        let completion := work.1.hire ci c e.completionThreads (threads.length + work.2.length)
        some (some (q, ⟨completion.1, [], [.created q, .opened wi w, .opened ci c],
          work.2 ++ completion.2⟩))
      else none
    | _, _ => none

/-- A call; `none` where a contract is violated. -/
def call (e : QueueEnv) (threads : List (List QueueFrame)) : QueueCall → Option QueueMove
  | .create w c =>
    match m.created e threads w c with
    | none => none
    | some none => some ⟨m, [], [], []⟩
    | some (some (q, mv)) =>
      some { mv with memory := mv.memory.give q (mv.memory.given q + 1) }
  | .createComposite w c =>
    match m.pool.createCompositeQueue (some w) (some c) with
    | (none, _) => some ⟨m, [], [], []⟩
    | (some q, p) => some ⟨(m.withPool p).give q (m.given q + 1), [], [.created q], []⟩
  | .duplicate q => some ⟨(m.withPool (m.pool.duplicate q)).give q (m.given q + 1), [], [], []⟩
  | .close q => some (m.close q)
  | .setCurrent q => some ⟨m.withPool (m.pool.setProcessQueue q), [], [.installed q], []⟩
  | .getCurrent => some ⟨m, [.load .current], [], []⟩
  | .getPort q => some ⟨m, resolve .port q, [], []⟩
  | .submit q p delay x =>
    match (m.pool.made q).port p with
    | none => none
    | some p => some (m.put e p delay (.callback x))
  | .dispatch q p =>
    match (m.pool.made q).port p with
    | none => none
    | some p => some (m.dispatch p [] [])
  | .terminate q wait f => m.terminate threads q wait f
  | .stop => some ⟨m, ((List.finRange 32).filter m.pool.portUsed).map .stopPort, [], []⟩
  | .begin queue routine => some ⟨m, resolve (.begin queue routine) queue, [], []⟩
  | .provide queue routine => some ⟨m, resolve (.provide queue routine) queue, [], []⟩
  | .schedule k delay =>
    if k < m.begun ∧ (m.operations k).provided ∧ (m.operations k).retired = false then
      match (m.pool.made (m.operations k).home).work with
      | none => none
      | some p => some (m.put e p delay (.work k))
    else some ⟨m, [], [], []⟩
  | .post q x => some ⟨m, resolve (.post x) q, [], []⟩
  | .finish k =>
    some ⟨m, if k < m.begun ∧ (m.operations k).retired = false then [.finish k] else [], [], []⟩
  | .cancel k =>
    some ⟨m,
      if k < m.begun ∧ (m.operations k).retired = false then [.finish k, .retire k] else [], [], []⟩
  | .takeResult k =>
    some ⟨m, if k < m.begun ∧ (m.operations k).retired = false ∧ (m.operations k).stage ≠ .running
      then [.retire k] else [], [], []⟩
  | .rewrite k queue routine =>
    let o := m.operations k
    some ⟨{ m with operations :=
      Function.update m.operations k { o with queue := queue, routine := routine } }, [], [], []⟩

/-- A call that has found its queue goes on. -/
def useStep (e : QueueEnv) (q : QueueId) : Use → Option QueueMove
  | .current => some ⟨(m.withPool (m.pool.duplicate q)).give q (m.given q + 1), [], [], []⟩
  | .port => some ⟨m, [], [], []⟩
  | .begin queue routine =>
    match (m.pool.made q).work with
    | none => none
    | some p =>
      -- an operation that could not be submitted is retired at once
      some ((m.addOperation false queue routine q).send e p 0 (.work m.begun) []
        (fun n => (n.setStage m.begun .refused).retire m.begun) [] [])
  | .provide queue routine => some ⟨m.addOperation true queue routine q, [], [], []⟩
  | .post x =>
    match (m.pool.made q).completion with
    | none => none
    | some p => some (m.put e p 0 (.posted x))
  | .announce k =>
    match (m.pool.made q).completion with
    | none => none
    | some p =>
      some ((m.setStage k .waiting).send e p 0 (.announce k) [] (·.setStage k .refused) [] [])

/-- `finish`, up to the submission of the completion routine. -/
def finish (k : ℕ) : QueueMove :=
  if (m.operations k).stage = .running then
    if (m.operations k).heeded then
      ⟨m.setStage k .publishing, resolve (.announce k) (m.operations k).queue,
        [.finished k true], []⟩
    else ⟨m.setStage k .silent, [], [.finished k false], []⟩
  else ⟨m, [], [], []⟩

/-- The critical section of `announce`, and the call of the routine. -/
def announce (n : Ticket) (canceled : Bool) (k : ℕ) : QueueMove :=
  if (m.operations k).heeded then
    ⟨m.setStage k .heard, [.inside n canceled], [.routine k], []⟩
  else ⟨m.setStage k .unheard, [.returning n], [], []⟩

/-- `release_queue`, up to the end of its first critical section. The ports that are spent are
stopped before they are given back. -/
def release (q : QueueId) : QueueMove :=
  let r := m.pool.releaseQueue q
  ⟨m.withPool r.2,
    r.1.1.toList.map .stopPort ++ r.1.2.toList.map .stopPort ++
      (if r.1.1.isSome ∨ r.1.2.isSome then
        [.givePorts q (m.pool.generation q, (m.pool.made q).work, (m.pool.made q).completion) r.1]
      else []),
    if m.pool.madeUsed q then [.released q] else [], []⟩

/-- The activation on top goes on in the code of the library. -/
def go (e : QueueEnv) (threads : List (List QueueFrame)) : QueueFrame → Option QueueMove
  | .returning n =>
    -- `run_held` does not free its context
    some ⟨m, [], if n.job.held then [.returned n] else [.returned n, .freed n], []⟩
  | .announcing n canceled =>
    match n.job with
    | .announce k => some (m.announce n canceled k)
    | _ => none
  | .finish k => some (m.finish k)
  | .retire k => some ⟨m.retire k, [], [], []⟩
  | .load u =>
    match m.pool.current with
    | some q => some ⟨m, [.use u q], [.process (some q)], []⟩
    | none => some ⟨m, [.fallback u], [], []⟩
  | .fallback u =>
    match m.pool.fallback with
    | some _ => some ⟨m, [.install u], [], []⟩
    | none =>
      match m.created e threads .threadPool .threadPool with
      | some (some (q, mv)) =>
        let p := mv.memory.pool
        some { mv with
          memory := mv.memory.withPool { p with fallback := some q }
          new := [.install u] }
      | _ => none
  | .install u =>
    match m.pool.current with
    | some _ => some ⟨m, [.reload u], [], []⟩
    | none => some ⟨m.withPool (m.pool.setProcessQueue m.pool.fallback), [.reload u],
        [.installed m.pool.fallback], []⟩
  | .reload u =>
    match m.pool.current with
    | some q => some ⟨m, [.use u q], [.process (some q)], []⟩
    | none => some ⟨m, [.crashed], [.process none], []⟩
  | .use u q => m.useStep e q u
  | .release q => some (m.release q)
  | .submitLast t q w c wait =>
    some (m.send e c 0 (.last t) [.terminatePort q w c wait] id
      [.calling t, .terminatePort q w c wait] [.last t])
  | .terminatePort q w c wait =>
    some ⟨m.withPool (m.pool.setPort c (m.pool.owned c).terminate),
      if wait then [.drain c, .terminated q w c] else [.terminated q w c], [.closed c], []⟩
  | .terminated _ w c => some ⟨m, [], [.terminated w c], []⟩
  | .stopPort p =>
    some ⟨m.withPool (m.pool.setPort p (m.pool.owned p).stop), [.join p 0], [.closed p], []⟩
  | .join p joined =>
    -- past the workers the source would go on beyond its array
    if joined = (m.workers p).length then
      some ⟨{ m with workers := Function.update m.workers p [] }, [.drain p], [], []⟩
    else
      match (m.workers p)[joined]? with
      | none => none
      | some i =>
        if threads[i]? = some [.ended] then some ⟨m, [.join p (joined + 1)], [], []⟩ else none
  | .drain p => some (m.dispatch p [.drain p] [])
  | .givePorts _ _ done =>
    if done.1.all m.pool.portUsed ∧ done.2.all m.pool.portUsed then
      some ⟨m.withPool (m.pool.givePorts done), [],
        done.1.toList.map .given ++ done.2.toList.map .given, []⟩
    else none
  | .worker p =>
    match (m.pool.owned p).take m.clock with
    | none =>
      some ⟨m, if (m.pool.owned p).terminated then [.ended] else [.worker p], [], []⟩
    | some _ => some (m.dispatch p [.worker p] [])
  | _ => none

/-- The callback on top returns. -/
def answer (finishes : Bool) : QueueFrame → Option QueueMove
  | .inside n canceled =>
    match n.job with
    | .work k =>
      -- `do_work` leaves the operation alone where the provider is not done
      if canceled ∨ (m.operations k).provided = false ∨ finishes then
        some ⟨m, [.finish k, .returning n], [], []⟩
      else some ⟨m, [.returning n], [], []⟩
    | _ => some ⟨m, [.returning n], [], []⟩
  | .calling _ => some ⟨m, [], [], []⟩
  | _ => none

end QueueMemory

structure QueueThreads where
  memory : QueueMemory
  threads : List (List QueueFrame)

namespace QueueThreads

def mayCall : List QueueFrame → Bool
  | [] => true
  | f :: _ => f.outside

/-- What a thread does: the activations that stay, and the move. -/
def move (m : QueueMemory) (e : QueueEnv) (threads : List (List QueueFrame))
    (stack : List QueueFrame) : QueueChoice → Option (List QueueFrame × QueueMove)
  | .call c => if mayCall stack then (m.call e threads c).map (Prod.mk stack) else none
  | .answer finishes =>
    match stack with
    | [] => none
    | f :: rest => (m.answer finishes f).map (Prod.mk rest)
  | .go =>
    match stack with
    | [] => none
    | f :: rest => (m.go e threads f).map (Prod.mk rest)

/-- One step of the system: a thread, how much time has passed, and what the thread does. -/
def step : Step QueueThreads (ℕ × QueueEnv × QueueChoice) QueueEvent := fun s input =>
  match s.threads[input.1]? with
  | none => none
  | some stack =>
    (move (s.memory.tick input.2.1) input.2.1 s.threads stack input.2.2).map fun r =>
      ({ memory := r.2.memory
         threads := s.threads.set input.1 (r.2.new ++ r.1) ++ r.2.spawned }, r.2.events)

/-- The program starts with so many threads, none of them in a call. -/
def start (threads : ℕ) : QueueThreads where
  memory := .start
  threads := List.replicate threads []

/-- The first thread does something, and time stands still. -/
def first (c : QueueChoice) : ℕ × QueueEnv × QueueChoice := (0, {}, c)

/-- What a thread does: a call on top of what it is in, or the activation on top goes on. -/
inductive Acts (m : QueueMemory) (e : QueueEnv) (threads : List (List QueueFrame)) :
    QueueChoice → List QueueFrame → List QueueFrame → QueueMove → Prop
  | call {c rest mv} (may : mayCall rest = true) (called : m.call e threads c = some mv) :
      Acts m e threads (.call c) [] rest mv
  | answer {finishes f rest mv} (answered : m.answer finishes f = some mv) :
      Acts m e threads (.answer finishes) [f] rest mv
  | go {f rest mv} (goes : m.go e threads f = some mv) : Acts m e threads .go [f] rest mv

/-- The cases of a step. -/
theorem step_cases {s t : QueueThreads} {i : ℕ} {e : QueueEnv} {c : QueueChoice}
    {ev : List QueueEvent} (h : step s (i, e, c) = some (t, ev)) :
    ∃ old rest mv, s.threads[i]? = some (old ++ rest) ∧
      Acts (s.memory.tick e) e s.threads c old rest mv ∧ ev = mv.events ∧
      t = { memory := mv.memory, threads := s.threads.set i (mv.new ++ rest) ++ mv.spawned } := by
  simp only [step] at h
  split at h
  · cases h
  · rename_i stack hstack
    obtain ⟨⟨rest, mv⟩, hmove, heq⟩ := Option.map_eq_some_iff.mp h
    cases heq
    cases c with
    | call c =>
      simp only [move] at hmove
      split_ifs at hmove with hmay
      obtain ⟨mv', hcall, heq⟩ := Option.map_eq_some_iff.mp hmove
      cases heq
      exact ⟨[], stack, mv, hstack, .call hmay hcall, rfl, rfl⟩
    | answer finishes =>
      cases stack with
      | nil => cases hmove
      | cons f below =>
        obtain ⟨mv', hanswer, heq⟩ := Option.map_eq_some_iff.mp hmove
        cases heq
        exact ⟨[f], rest, mv, hstack, .answer hanswer, rfl, rfl⟩
    | go =>
      cases stack with
      | nil => cases hmove
      | cons f below =>
        obtain ⟨mv', hgo, heq⟩ := Option.map_eq_some_iff.mp hmove
        cases heq
        exact ⟨[f], rest, mv, hstack, .go hgo, rfl, rfl⟩

end QueueThreads

end IW4x.Gdk
