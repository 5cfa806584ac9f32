import IW4x.Lib.Runs
import IW4x.Lib.Stacks
import IW4x.Gdk.Async

/-!
# The threads of the asynchronous API

Any number of threads call the API: the game, the workers of the ports, and the callbacks that the
library calls (an operation's `work`, `result` and destructor, a provider, a completion routine).
A thread is a stack of activations. The activation on top makes one step at a time, and a callback
may call the API again; what it answers is chosen from outside. An activation that holds a slot
stands for the whole chain of source functions that share the hold.

A step is a critical section or an atomic access with the code around it that no other thread
takes part in. `Granularity` says whether looking an operation up is one step or the reads and the
compare-exchange of `held_state::find` are steps of their own. `begin` and `provider_begin` write
the fields of an operation after `acquire` has published its slot, without the lock; here the writes
belong to the step that acquires it, and what another thread may see in between is left out. A
port's own threads wait, wake and join as in `IW4x.Gdk.PortThreads`; here a `dispatch` that would
wait answers at once that it ran nothing, and may be called again.
-/

namespace IW4x.Gdk

open Runs

inductive ProviderOp where
  | begin
  | doWork
  | getResult
  | cancel
  | cleanup
  deriving DecidableEq, Repr

/-- The calls that look up the operation of a block. -/
inductive Query where
  /-- `take_result`; `used` says whether the caller asks for the size. -/
  | result (id : Option ℕ) (size : ℕ) (used : Bool)
  /-- `result_size`; `out` says whether there is a result pointer. -/
  | resultSize (out : Bool)
  | status (wait : Bool)
  | cancel
  | pendingOperation (id : ℕ)
  | schedule (delay : ℕ)
  | complete (hr : HResult) (size : ℕ)
  deriving DecidableEq

/-- What a call answers. -/
inductive Reply where
  | code (hr : HResult)
  | size (hr : HResult) (n : ℕ)
  | flag (b : Bool)
  deriving DecidableEq

/-- What a call was, with the serial of the operation that it found. -/
inductive Source where
  | begin (b : Option BlockId)
  | providerBegin (b : Option BlockId)
  | query (b : Option BlockId) (q : Query) (k : Option ℕ)
  | queue
  deriving DecidableEq

/-- Where `finish` returns to. -/
inductive Next where
  | task
  | complete (b : BlockId) (q : Query)
  | cancel (b : BlockId) (q : Query)
  deriving DecidableEq

/-- Whose hold a `release` drops. -/
inductive Owner where
  /-- `run_held`, after the task. -/
  | task
  /-- The `held_state` of a call. -/
  | call
  /-- `retire`, for the block. -/
  | block
  deriving DecidableEq

inductive Frame where
  /-- `held_state::find`, before it reads `internal[1]`. -/
  | findSlot (b : BlockId) (q : Query)
  /-- `held_state::find`, before it reads `internal[2]`. -/
  | findToken (b : BlockId) (q : Query) (r : SlotId)
  /-- `held_state::find`, before it loads the word. -/
  | findWord (b : BlockId) (q : Query) (r : SlotId) (t : { t : ℕ // t ≠ 0 })
  /-- `held_state::find`, in its loop. -/
  | findSwap (b : BlockId) (q : Query) (r : SlotId) (t : { t : ℕ // t ≠ 0 }) (s : ℕ)
  /-- A call with its `held_state`. -/
  | found (b : BlockId) (q : Query) (r : SlotId)
  /-- `get_status`, in its wait. -/
  | waiting (b : BlockId) (r : SlotId)
  /-- `take_result`, inside the operation's `result`. -/
  | resulting (b : BlockId) (q : Query) (r : SlotId)
  /-- `take_result`, inside the provider. -/
  | gettingResult (b : BlockId) (q : Query) (r : SlotId)
  /-- `run_held`. -/
  | run (r : SlotId) (f : Work) (canceled : Bool)
  /-- `perform`, inside the operation's `work`. -/
  | working (r : SlotId)
  /-- `do_work`, inside the provider. -/
  | providing (r : SlotId) (op : ProviderOp)
  /-- `announce`, inside the completion routine. -/
  | routine (r : SlotId)
  | finish (r : SlotId) (hr : HResult) (size : ℕ) (next : Next)
  /-- `finish`, after its critical section, with the block it read there. -/
  | publish (r : SlotId) (a : BlockId) (next : Next)
  /-- `retire` in a call, and what the call is going to answer. -/
  | retire (r : SlotId) (b : BlockId) (q : Query) (reply : Reply)
  | release (r : SlotId) (owner : Owner)
  | dispose (r : SlotId)
  /-- `dispose`, inside the operation's destructor. -/
  | destroying (r : SlotId) (provider : Option ℕ)
  /-- `dispose`, before the provider is called. -/
  | cleaning (r : SlotId) (provider : Option ℕ)
  /-- `dispose`, inside the provider. -/
  | cleaned (r : SlotId)
  /-- `dispose`, before its last critical section. -/
  | recycle (r : SlotId)
  /-- `provider_begin`, inside the provider. -/
  | beginning (r : SlotId) (b : BlockId)
  /-- `provider_begin`, inside the provider, after it failed. -/
  | cleaningFailed (r : SlotId) (b : BlockId) (hr : HResult)
  /-- `provider_begin`, before it retires the slot. -/
  | dropping (r : SlotId) (b : BlockId) (hr : HResult)
  /-- A callback of the caller. -/
  | callback (x : ℕ)
  /-- The end of a call. -/
  | returns (src : Source) (reply : Reply)
  | terminatePort (p : PortId) (wait : Bool)
  | stopPort (p : PortId)
  /-- The loop that dispatches a port until it is empty. -/
  | drain (p : PortId)
  /-- `release_queue`, before its second critical section. -/
  | givePorts (done : Option PortId × Option PortId)
  deriving DecidableEq

/-- What ends the process: a violated contract, or `fatal`. -/
inductive Fault where
  | contract
  | fatal
  deriving DecidableEq

/-- What a run makes known. An operation goes by its serial number. -/
inductive Event where
  /-- An operation was begun; with a provider or not, and on a queue with these two ports. -/
  | begun (k : ℕ) (b : BlockId) (provided : Bool) (ports : Option PortId × Option PortId)
  | found (k : ℕ)
  /-- The provider of an operation is called; cleanup is called with no block. -/
  | provider (k : ℕ) (op : ProviderOp) (b : Option BlockId)
  | worked (k : ℕ)
  /-- A port has accepted a task of the operation, or runs it at once. -/
  | queued (k : ℕ) (f : Work) (p : PortId)
  /-- A task of the operation was taken from the port to be run. -/
  | ran (k : ℕ) (f : Work) (p : PortId)
  /-- The completion routine of the operation is called with the block. -/
  | routine (k : ℕ) (b : BlockId)
  | finished (k : ℕ) (hr : HResult)
  | retired (k : ℕ)
  | disposed (k : ℕ)
  | recycled (k : ℕ)
  | returned (src : Source) (reply : Reply)
  | ended (fault : Fault)
  deriving DecidableEq

inductive Call (Op : Type) where
  | begin (b : Option BlockId) (id : ℕ) (o : Op)
  | providerBegin (b : Option BlockId) (context : ℕ) (id : Option ℕ) (provider : Option ℕ)
  | query (b : Option BlockId) (q : Query)
  /-- `queue_dispatch`. -/
  | dispatch (q : Option QueueId) (p : Port)
  /-- `task_port::dispatch`, by a worker of the port. -/
  | work (p : PortId)
  | submitCallback (q : Option QueueId) (p : Port) (delay : ℕ) (f : Option ℕ)
  | terminate (q : Option QueueId) (wait : Bool) (f : Option ℕ)
  /-- `stop_queues`. -/
  | stop
  | close (q : Option QueueId)
  | createQueue (w c : DispatchMode)
  | createComposite (w c : PortId)
  | duplicate (q : Option QueueId)
  | setProcess (q : Option QueueId)
  /-- The caller writes its own fields of a block. -/
  | prepare (b : BlockId) (queue : Option QueueId) (callback : Option ℕ)

inductive Answer where
  | returned (n : ℕ)
  /-- It raised what `report` turns into this code. -/
  | raised (hr : HResult)
  | code (hr : HResult)
  deriving DecidableEq

/-- What a step finds outside: the clock, whether memory can be allocated, and whether a weak
compare-exchange fails although the word is the expected one. -/
structure Env where
  now : ℕ := 0
  alloc : Bool := true
  spurious : Bool := false

inductive Choice (Op : Type) where
  | call (c : Call Op) (e : Env)
  | answer (a : Answer)
  | go (e : Env)

inductive Granularity where
  | whole
  | split
  deriving DecidableEq

/-- What one step comes to. -/
inductive Outcome (Op : Type) where
  | next (m : Memory Op) (new : List Frame) (ev : List Event)
  | ended (fault : Fault)

variable {Op : Type}

/-- The answer of a call that finds no operation. -/
def Query.unknown : Query → Reply
  | .cancel => .code S_OK
  | .pendingOperation _ => .flag false
  | _ => .code E_INVALIDARG

/-- What `take_result` answers with a status, as the caller asked. -/
def Query.taken (q : Query) (hr : HResult) (size : ℕ) : Reply :=
  match q with
  | .result _ _ true => if succeeded hr then .size hr size else .code hr
  | _ => .code hr

def Task.frames (canceled : Bool) : Task → List Frame
  | .held r f => [.run r f canceled]
  | .callback x => [.callback x]

namespace Memory

variable (m : Memory Op)

def serial (r : SlotId) : ℕ := (m.slots r).serial

def ranEvents (p : PortId) : Task → List Event
  | .held r f => [.ran (m.serial r) f p]
  | .callback _ => []

/-- The call returns; its `held_state` is dropped first. -/
def settle (r : SlotId) (b : BlockId) (q : Query) (reply : Reply) : List Frame :=
  [.release r .call, .returns (.query (some b) q (some (m.serial r))) reply]

/-- `finish` returns. -/
def after (r : SlotId) : Next → List Frame
  | .task => [.release r .task]
  | .complete b q => m.settle r b q (.code S_OK)
  | .cancel b q => [.retire r b q (.code S_OK)]

/-- A step of `dispatch` on the port that takes a callback; `back` is what comes after it. -/
def dispatch (now : ℕ) (p : PortId) (ran idle : List Frame) : Outcome Op :=
  match (m.queues.owned p).take now with
  | none => .next m idle []
  | some t => .next (m.withQueues (m.queues.setPort p t.port))
      (t.item.callback.frames t.canceled ++ ran) (m.ranEvents p t.item.callback)

/-- `begin`, with the writes between `acquire` and `submit`. A caller is told of a failure by an
exception; here it is the answer. -/
def begin (e : Env) (b : Option BlockId) (id : ℕ) (o : Op) : Outcome Op :=
  match b with
  | none => .next m [.returns (.begin b) (.code E_POINTER)] []
  | some a =>
    match m.queues.resolve (m.blocks a).queue with
    | none => .ended .fatal
    | some (q, qs) =>
      match (m.withQueues qs).acquire a with
      | none => .next (m.withQueues qs) [.returns (.begin b) (.code E_OUTOFMEMORY)] []
      | some (r, n) =>
        let n := n.describe r q (some id) (some o) none 0
        match (qs.made q).work with
        | none => .ended .contract
        | some p =>
          let k := n.serial r
          let begun := Event.begun k a false (n.slots r).ports
          match n.submit e.alloc e.now r p 0 .perform with
          | .contract => .ended .contract
          | .accepted n => .next n [.returns (.begin b) (.code S_OK)] [begun, .queued k .perform p]
          | .immediate n => .next n [.run r .perform false, .returns (.begin b) (.code S_OK)]
              [begun, .queued k .perform p, .ran k .perform p]
          | .refused => .next (n.retireSlot r)
              [.release r .block, .returns (.begin b) (.code E_ABORT)] [begun, .retired k]

/-- `provider_begin`, with the writes that follow `acquire`, up to the call of the provider. -/
def providerBegin (b : Option BlockId) (context : ℕ) (id provider : Option ℕ) : Outcome Op :=
  match b, provider with
  | some a, some provider =>
    match m.acquire a with
    | none => .next m [.returns (.providerBegin b) (.code E_OUTOFMEMORY)] []
    | some (r, n) =>
      match n.queues.resolve (n.blocks a).queue with
      | none => .ended .fatal
      | some (q, qs) =>
        let n := (n.withQueues qs).describe r q id none (some provider) context
        .next n [.beginning r a]
          [.begun (n.serial r) a true (n.slots r).ports, .provider (n.serial r) .begin (some a)]
  | b, _ => .next m [.returns (.providerBegin b) (.code E_INVALIDARG)] []

/-- A call that looks up an operation. -/
def query (g : Granularity) (b : Option BlockId) (q : Query) : Outcome Op :=
  let unknown := Outcome.next m [.returns (.query b q none) q.unknown] []
  match g, b with
  | _, none => unknown
  | .whole, some a =>
    match m.find (some a) with
    | none => unknown
    | some r => .next (m.hold r) [.found a q r] [.found (m.serial r)]
  | .split, some a => if (m.blocks a).signed then .next m [.findSlot a q] [] else unknown

/-- `queue_submit_callback` and `queue_submit_delayed_callback`. -/
def submitCallback (e : Env) (q : Option QueueId) (p : Port) (delay : ℕ) (f : Option ℕ) :
    Outcome Op :=
  let ret (hr : HResult) := [Frame.returns .queue (.code hr)]
  match q, f with
  | some q, some x =>
    match (m.queues.made q).port p with
    | none => .ended .contract
    | some i =>
      if e.alloc = false then .next m (ret E_ABORT) []
      else match (m.queues.owned i).submit e.now delay (.callback x) with
        | .immediate => .next m (.callback x :: ret S_OK) []
        | .accepted t => .next (m.withQueues (m.queues.setPort i t)) (ret S_OK) []
        | .refused => .next m (ret E_ABORT) []
  | _, _ => .next m (ret E_INVALIDARG) []

/-- `queue_terminate`, up to the end of the completion port. -/
def terminate (e : Env) (q : Option QueueId) (wait : Bool) (f : Option ℕ) : Outcome Op :=
  let ret (hr : HResult) := [Frame.returns .queue (.code hr)]
  match q with
  | none => .next m (ret E_INVALIDARG) []
  | some i =>
    if (m.queues.made i).terminated then .next m (ret E_ABORT) []
    else
      match (m.queues.made i).work, (m.queues.made i).completion with
      | some w, some c =>
        let marked := m.queues.markTerminated i
        let qs := marked.setPort w (marked.owned w).terminate
        let last := .terminatePort c wait :: ret S_OK
        match f with
        | none => .next (m.withQueues qs) last []
        | some x =>
          if e.alloc = false then .next (m.withQueues qs) (.callback x :: last) []
          else match (qs.owned c).submit e.now 0 (.callback x) with
            | .accepted t => .next (m.withQueues (qs.setPort c t)) last []
            | _ => .next (m.withQueues qs) (.callback x :: last) []
      | _, _ => .ended .contract

/-- `queue_close_handle`. -/
def close (q : Option QueueId) : Outcome Op :=
  let ret := [Frame.returns .queue (.code S_OK)]
  match q with
  | none => .next m ret []
  | some i =>
    let closed := m.queues.close i
    if (closed.made i).references = 0 then
      let (done, qs) := closed.releaseQueue i
      .next (m.withQueues qs)
        (done.1.toList.map .stopPort ++ done.2.toList.map .stopPort ++ .givePorts done :: ret) []
    else .next (m.withQueues closed) ret []

def call (g : Granularity) (e : Env) : Call Op → Outcome Op
  | .begin b id o => m.begin e b id o
  | .providerBegin b context id provider => m.providerBegin b context id provider
  | .query b q => m.query g b q
  | .dispatch q p =>
    match q with
    | none => .next m [.returns .queue (.flag false)] []
    | some i =>
      match (m.queues.made i).port p with
      | none => .ended .contract
      | some i => m.dispatch e.now i [.returns .queue (.flag true)] [.returns .queue (.flag false)]
  | .work p => m.dispatch e.now p [] []
  | .submitCallback q p delay f => m.submitCallback e q p delay f
  | .terminate q wait f => m.terminate e q wait f
  | .stop => .next m (((List.finRange 32).filter m.queues.portUsed).map .stopPort) []
  | .close q => m.close q
  | .createQueue w c =>
    .next (m.withQueues (m.queues.createQueue w c).2)
      [.returns .queue (.flag (m.queues.createQueue w c).1.isSome)] []
  | .createComposite w c =>
    .next (m.withQueues (m.queues.createCompositeQueue (some w) (some c)).2)
      [.returns .queue (.flag (m.queues.createCompositeQueue (some w) (some c)).1.isSome)] []
  | .duplicate q =>
    match q with
    | none => .next m [.returns .queue (.code E_POINTER)] []
    | some i => .next (m.withQueues (m.queues.duplicate i)) [.returns .queue (.code S_OK)] []
  | .setProcess q =>
    .next (m.withQueues (m.queues.setProcessQueue q)) [.returns .queue (.code S_OK)] []
  | .prepare b queue callback =>
    let a := m.blocks b
    .next (m.setBlock b { a with queue := queue, callback := callback }) [] []

/-- A call that has found its operation. -/
def foundStep (e : Env) (b : BlockId) (q : Query) (r : SlotId) : Outcome Op :=
  let s := m.slots r
  match q with
  | .result id _ _ =>
    if s.completed = false then .next m (m.settle r b q (.code pending)) []
    else if succeeded s.status then
      if id.isSome ∧ s.id ≠ id then .next m (m.settle r b q (.code E_INVALIDARG)) []
      else if s.operation.isSome then .next m [.resulting b q r] []
      else if s.provider.isSome then
        .next m [.gettingResult b q r] [.provider s.serial .getResult s.block]
      else .next m [.retire r b q (q.taken s.status s.size)] []
    else .next m [.retire r b q (q.taken s.status s.size)] []
  | .resultSize out =>
    if out = false then .next m (m.settle r b q (.code E_INVALIDARG)) []
    else if s.completed = false then .next m (m.settle r b q (.code pending)) []
    else .next m (m.settle r b q (.size s.status s.size)) []
  | .status wait =>
    if wait then .next m [.waiting b r] []
    else .next m (m.settle r b q (.code (if s.completed then s.status else pending))) []
  | .cancel =>
    if s.completed = false then .next m [.finish r E_ABORT 0 (.cancel b q)] []
    else .next m [.retire r b q (.code S_OK)] []
  | .pendingOperation id =>
    .next m (m.settle r b q (.flag (decide (s.id = some id) && s.operation.isSome))) []
  | .schedule delay =>
    if s.provider.isNone then .next m (m.settle r b q (.code E_INVALIDARG)) []
    else
      match s.queue with
      | none => .ended .contract
      | some i =>
        match (m.queues.made i).work with
        | none => .ended .contract
        | some p =>
          match m.submit e.alloc e.now r p delay .doWork with
          | .contract => .ended .contract
          | .accepted n => .next n (m.settle r b q (.code S_OK)) [.queued s.serial .doWork p]
          | .immediate n => .next n (.run r .doWork false :: m.settle r b q (.code S_OK))
              [.queued s.serial .doWork p, .ran s.serial .doWork p]
          | .refused => .next m (m.settle r b q (.code E_ABORT)) []
  | .complete hr size => .next m [.finish r hr size (.complete b q)] []

/-- `run_held`: the task itself. -/
def runStep (r : SlotId) (f : Work) (canceled : Bool) : Outcome Op :=
  let s := m.slots r
  match f with
  | .perform =>
    if canceled then .next m [.finish r E_ABORT 0 .task] []
    else if s.operation.isSome then .next m [.working r] [.worked s.serial]
    else .ended .contract
  | .doWork =>
    let op := if canceled then ProviderOp.cancel else .doWork
    if s.provider.isSome then .next m [.providing r op] [.provider s.serial op s.block]
    else .ended .contract
  | .announce =>
    match s.block with
    | none => .next m [.release r .task] []
    | some a =>
      if (m.blocks a).callback.isSome then .next m [.routine r] [.routine s.serial a]
      else .next m [.release r .task] []

/-- `finish`, after its critical section. -/
def publishStep (e : Env) (r : SlotId) (a : BlockId) (next : Next) : Outcome Op :=
  if (m.blocks a).callback.isNone then .next m (m.after r next) []
  else
    match m.queues.resolve (m.blocks a).queue with
    | none => .ended .fatal
    | some (q, qs) =>
      match (qs.made q).completion with
      | none => .ended .contract
      | some p =>
        match (m.withQueues qs).submit e.alloc e.now r p 0 .announce with
        | .contract => .ended .contract
        | .accepted n => .next n (m.after r next) [.queued (m.serial r) .announce p]
        | .immediate n => .next n (.run r .announce false :: m.after r next)
            [.queued (m.serial r) .announce p, .ran (m.serial r) .announce p]
        | .refused => .next (m.withQueues qs) (m.after r next) []

/-- The activation on top goes on in the code of the library. -/
def go (e : Env) : Frame → Option (Outcome Op)
  | .findSlot b q =>
    match (m.blocks b).slot with
    | none => some (.next m [.returns (.query (some b) q none) q.unknown] [])
    | some r => some (.next m [.findToken b q r] [])
  | .findToken b q r =>
    if h : (m.blocks b).token = 0 then
      some (.next m [.returns (.query (some b) q none) q.unknown] [])
    else some (.next m [.findWord b q r ⟨(m.blocks b).token, h⟩] [])
  | .findWord b q r t => some (.next m [.findSwap b q r t (m.slots r).state] [])
  | .findSwap b q r t s =>
    if tokenOf s ≠ t then some (.next m [.returns (.query (some b) q none) q.unknown] [])
    else if (m.slots r).state = s ∧ e.spurious = false then
      some (.next (m.hold r) [.found b q r] [.found (m.serial r)])
    else some (.next m [.findSwap b q r t (m.slots r).state] [])
  | .found b q r => some (m.foundStep e b q r)
  | .waiting b r =>
    if (m.slots r).completed then
      some (.next m (m.settle r b (.status true) (.code (m.slots r).status)) [])
    else none
  | .run r f canceled => some (m.runStep r f canceled)
  | .finish r hr size next =>
    if (m.slots r).completed then some (.next m (m.after r next) [])
    else
      match (m.slots r).block with
      | none => some (.next (m.complete r hr size) (m.after r next) [.finished (m.serial r) hr])
      | some a =>
        some (.next (m.complete r hr size) [.publish r a next] [.finished (m.serial r) hr])
  | .publish r a next => some (m.publishStep e r a next)
  | .retire r b q reply =>
    if (m.slots r).retired then some (.next m (m.settle r b q reply) [])
    else some (.next (m.retireSlot r) (.release r .block :: m.settle r b q reply)
      [.retired (m.serial r)])
  | .release r _ =>
    if holdsOf (m.slots r).state = 0 then some (.ended .contract)
    else if holdsOf (m.slots r).state = 1 then
      some (.next (m.drop r) [.dispose r] [.disposed (m.serial r)])
    else some (.next (m.drop r) [] [])
  | .dispose r =>
    let s := m.slots r
    if s.operation.isSome then some (.next (m.strip r) [.destroying r s.provider] [])
    else some (.next (m.strip r) [.cleaning r s.provider] [])
  | .cleaning r provider =>
    match provider with
    | none => some (.next m [.recycle r] [])
    | some _ => some (.next m [.cleaned r] [.provider (m.serial r) .cleanup none])
  | .recycle r =>
    if m.free.length < 128 then some (.next (m.recycle r) [] [.recycled (m.serial r)])
    else some (.ended .contract)
  | .dropping r b hr =>
    let ret := Frame.returns (.providerBegin (some b)) (.code hr)
    if (m.slots r).retired then some (.next m [ret] [])
    else some (.next (m.retireSlot r) [.release r .block, ret] [.retired (m.serial r)])
  | .returns src reply => some (.next m [] [.returned src reply])
  | .terminatePort p wait =>
    some (.next (m.withQueues (m.queues.setPort p (m.queues.owned p).terminate))
      (if wait then [.drain p] else []) [])
  | .stopPort p =>
    some (.next (m.withQueues (m.queues.setPort p (m.queues.owned p).stop)) [.drain p] [])
  | .drain p => some (m.dispatch e.now p [.drain p] [])
  | .givePorts done =>
    if done.1.all m.queues.portUsed ∧ done.2.all m.queues.portUsed then
      some (.next (m.withQueues (m.queues.givePorts done)) [] [])
    else some (.ended .contract)
  | _ => none

/-- The callback on top returns. -/
def answer : Frame → Answer → Option (Outcome Op)
  | .resulting b q r, .returned _ =>
    some (.next m [.retire r b q (q.taken (m.slots r).status (m.slots r).size)] [])
  | .resulting b q r, .raised hr => some (.next m [.retire r b q (q.taken hr (m.slots r).size)] [])
  | .gettingResult b q r, .code hr =>
    some (.next m [.retire r b q (q.taken hr (m.slots r).size)] [])
  | .working r, .returned n => some (.next m [.finish r S_OK n .task] [])
  | .working r, .raised hr => some (.next m [.finish r hr 0 .task] [])
  | .providing r .cancel, .code _ => some (.next m [.finish r E_ABORT 0 .task] [])
  | .providing r _, .code hr =>
    if hr ≠ pending ∧ hr ≠ S_OK then some (.next m [.finish r hr 0 .task] [])
    else some (.next m [.release r .task] [])
  | .routine r, .returned _ => some (.next m [.release r .task] [])
  | .destroying r provider, .returned _ => some (.next m [.cleaning r provider] [])
  | .cleaned r, .code _ => some (.next m [.recycle r] [])
  | .beginning r b, .code hr =>
    if failed hr then
      if (m.slots r).provider.isSome then
        some (.next m [.cleaningFailed r b hr]
          [.provider (m.serial r) .cleanup (m.slots r).block])
      else some (.ended .contract)
    else some (.next m [.returns (.providerBegin (some b)) (.code hr)] [])
  | .cleaningFailed r b hr, .code _ => some (.next m [.dropping r b hr] [])
  | .callback _, .returned _ => some (.next m [] [])
  | _, _ => none

end Memory

/-- The activation is code outside the library: it may call, and it returns when it likes. -/
def Frame.outside : Frame → Bool
  | .resulting .. => true
  | .gettingResult .. => true
  | .working .. => true
  | .providing .. => true
  | .routine .. => true
  | .destroying .. => true
  | .cleaned .. => true
  | .beginning .. => true
  | .cleaningFailed .. => true
  | .callback .. => true
  | _ => false

def mayCall : List Frame → Bool
  | [] => true
  | f :: _ => f.outside

structure AsyncThreads (Op : Type) where
  memory : Memory Op
  threads : List (List Frame)
  ended : Bool

namespace AsyncThreads

/-- What a thread does: the activations it removes, and what comes instead. -/
def move (g : Granularity) (m : Memory Op) (stack : List Frame) :
    Choice Op → Option (List Frame × Outcome Op)
  | .call c e => if mayCall stack then some (stack, m.call g e c) else none
  | .answer a =>
    match stack with
    | [] => none
    | f :: rest => (m.answer f a).map (Prod.mk rest)
  | .go e =>
    match stack with
    | [] => none
    | f :: rest => (m.go e f).map (Prod.mk rest)

/-- One step of the system: a thread and what it does. -/
def step (g : Granularity) : Step (AsyncThreads Op) (ℕ × Choice Op) Event := fun s input =>
  match s.ended, s.threads[input.1]? with
  | false, some stack =>
    match move g s.memory stack input.2 with
    | none => none
    | some (_, .ended fault) => some ({ s with ended := true }, [.ended fault])
    | some (rest, .next m new ev) =>
      some ({ s with memory := m, threads := s.threads.set input.1 (new ++ rest) }, ev)
  | _, _ => none

/-- The program starts with so many threads, none of them in a call. -/
def start (threads : ℕ) : AsyncThreads Op where
  memory := .start .empty
  threads := List.replicate threads []
  ended := false

end AsyncThreads

end IW4x.Gdk
