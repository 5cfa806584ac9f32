import IW4x.Gdk.AsyncThreads

/-!
# Rounds of the runtime

`UninitializeApiImpl` stops the ports that are in use, and `InitializeApiImpl` brings none of them
back. The process queue stays what it was: the static queue, or the one that the caller has set.

Not in the source, and read by nothing: the round in which a callback was submitted, and, for each
port since it was opened, whether the runtime has stopped it and whether the caller has ended it by
`queue_terminate` or by closing its last queue.
-/

namespace IW4x.Gdk

open Runs

structure RoundWork (α : Type) where
  run : α
  round : ℕ
  deriving DecidableEq, Inhabited

structure Rounds (α : Type) where
  /-- The flag `up` of the runtime. -/
  running : Bool
  round : ℕ
  pool : QueuePool (RoundWork α)
  /-- The ports that `stop_queues` has still to stop. -/
  stopping : List PortId
  byRuntime : PortId → Bool
  byCaller : PortId → Bool

inductive RoundAct (α : Type) where
  /-- `InitializeApiImpl`. -/
  | up
  /-- `UninitializeApiImpl`, up to the first port. -/
  | down
  /-- `queue_pool::stop`, the next port. -/
  | stopNext
  /-- A submission to a port of the process queue: `begin`, on a block that names no queue, to its
  work port, and `post`, with no queue, to its completion port. -/
  | begin (pt : Port) (now : ℕ) (x : α)
  /-- Any other submission. -/
  | submit (p : PortId) (now delay : ℕ) (x : α)
  /-- A dispatcher of the port, or `stop`, takes a callback. -/
  | take (p : PortId) (now : ℕ)
  | createQueue (w c : DispatchMode)
  | createComposite (w c : PortId)
  | duplicate (q : QueueId)
  | close (q : QueueId)
  /-- `queue_terminate`, one of the ports. -/
  | terminatePort (p : PortId)
  | setProcess (q : Option QueueId)
  deriving DecidableEq

inductive RoundEvent (α : Type) where
  | accepted (w : RoundWork α)
  | refused (w : RoundWork α)
  /-- A port in immediate mode runs the callback inside `submit`. -/
  | ran (w : RoundWork α)
  | took (w : RoundWork α) (canceled : Bool)
  deriving DecidableEq

namespace Rounds

variable {α : Type}

def start [Inhabited α] : Rounds α where
  running := false
  round := 0
  pool := .empty
  stopping := []
  byRuntime := fun _ => false
  byCaller := fun _ => false

def opened (q : TaskQueue) (f : PortId → Bool) (i : PortId) : Bool :=
  f i && !(decide (q.work = some i) || decide (q.completion = some i))

def withCreated (s : Rounds α) (x : QueueId) (p : QueuePool (RoundWork α)) : Rounds α :=
  { s with
    pool := p
    byRuntime := opened (p.made x) s.byRuntime
    byCaller := opened (p.made x) s.byCaller }

/-- The process queue; `none` where the source ends the process. -/
def processQueue (s : Rounds α) : Option (QueueId × Rounds α) :=
  match s.pool.resolve none with
  | none => none
  | some (x, p) =>
    if s.pool.current = none ∧ s.pool.fallback = none then some (x, s.withCreated x p)
    else some (x, { s with pool := p })

def submit (s : Rounds α) (p : PortId) (now delay : ℕ) (x : α) : Rounds α × List (RoundEvent α) :=
  let w : RoundWork α := ⟨x, s.round⟩
  match (s.pool.owned p).submit now delay w with
  | .accepted t => ({ s with pool := s.pool.setPort p t }, [.accepted w])
  | .immediate => (s, [.ran w])
  | .refused => (s, [.refused w])

/-- The caller ends a port. -/
def endPort (s : Rounds α) (p : PortId) (t : TaskPort (RoundWork α)) : Rounds α :=
  { s with pool := s.pool.setPort p t, byCaller := Function.update s.byCaller p true }

/-- A port that was given up by its last queue is stopped. -/
def stopDone (s : Rounds α) : Option PortId → Rounds α
  | none => s
  | some p => s.endPort p (s.pool.owned p).stop

/-- `queue_close_handle`. -/
def close (s : Rounds α) (q : QueueId) : Rounds α :=
  let closed := s.pool.close q
  if (closed.made q).references = 0 then
    let (done, p) := closed.releaseQueue q
    let t := ({ s with pool := p }.stopDone done.1).stopDone done.2
    { t with pool := t.pool.givePorts done }
  else { s with pool := closed }

def step : Step (Rounds α) (RoundAct α) (RoundEvent α)
  | s, .up =>
    if s.running = false ∧ s.stopping = [] then
      some ({ s with running := true, round := s.round + 1 }, [])
    else none
  | s, .down =>
    if s.running = true then
      some ({ s with
        running := false
        stopping := (List.finRange 32).filter s.pool.portUsed }, [])
    else none
  | s, .stopNext =>
    match s.stopping with
    | [] => none
    | p :: rest => some ({ s with
        pool := s.pool.setPort p (s.pool.owned p).stop
        stopping := rest
        byRuntime := Function.update s.byRuntime p true }, [])
  | s, .begin pt now x =>
    match s.processQueue with
    | none => none
    | some (q, t) => ((t.pool.made q).port pt).map fun p => t.submit p now 0 x
  | s, .submit p now delay x => some (s.submit p now delay x)
  | s, .take p now =>
    ((s.pool.owned p).take now).map fun t =>
      ({ s with pool := s.pool.setPort p t.port }, [.took t.item.callback t.canceled])
  | s, .createQueue w c =>
    match s.pool.createQueue w c with
    | (some x, p) => some (s.withCreated x p, [])
    | (none, p) => some ({ s with pool := p }, [])
  | s, .createComposite w c =>
    some ({ s with pool := (s.pool.createCompositeQueue (some w) (some c)).2 }, [])
  | s, .duplicate q => some ({ s with pool := s.pool.duplicate q }, [])
  | s, .close q => some (s.close q, [])
  | s, .terminatePort p => some (s.endPort p (s.pool.owned p).terminate, [])
  | s, .setProcess q => some ({ s with pool := s.pool.setProcessQueue q }, [])

/-! ## What is promised -/

/-- While the runtime is up, a submission to the process queue is not refused by a port that has room
and that the caller has not ended; and a callback that was submitted in this round is not canceled,
unless the caller has ended its port. -/
def Usable (s : Rounds α) : RoundAct α → Prop
  | .begin pt now x => s.running = true → ∀ q t p, s.processQueue = some (q, t) →
      (t.pool.made q).port pt = some p → (t.pool.owned p).ring.count < 128 →
      t.byCaller p = false → .refused ⟨x, t.round⟩ ∉ (t.submit p now 0 x).2
  | .take p now => s.running = true → ∀ t, (s.pool.owned p).take now = some t →
      t.item.callback.round = s.round → s.byCaller p = false → t.canceled = false
  | _ => True

/-- The port of the process queue is in immediate mode, or was not stopped by the runtime since it was
opened. -/
def Unstopped (s : Rounds α) : RoundAct α → Prop
  | .begin pt _ _ => s.running = true → ∀ q t p, s.processQueue = some (q, t) →
      (t.pool.made q).port pt = some p → (t.pool.owned p).ring.count < 128 →
      t.byCaller p = false → (t.pool.owned p).mode = .immediate ∨ t.byRuntime p = false
  | _ => True

structure PortTold (running : Bool) (round : ℕ) (p : TaskPort (RoundWork α))
    (byRuntime byCaller : Bool) : Prop where
  told : p.terminated = (byRuntime || byCaller)
  canceled : p.canceled = true → p.terminated = true
  stamped : ∀ w ∈ p.callbacks, w.round ≤ round
  current : running = true → ∀ w ∈ p.callbacks, w.round = round → byRuntime = false

/-- What is known in every state. -/
structure Told (s : Rounds α) : Prop where
  ports : ∀ i, PortTold s.running s.round (s.pool.owned i) (s.byRuntime i) (s.byCaller i)
  stopping : s.running = true → s.stopping = []

/-! ## What each step does to the ports -/

section Ports

variable {running : Bool} {round : ℕ} {p q : TaskPort (RoundWork α)} {byRuntime byCaller : Bool}

theorem PortTold.opened (m : DispatchMode) : PortTold running round (p.openPort m) false false where
  told := rfl
  canceled := fun h => by cases h
  stamped := by simp
  current := fun _ _ _ _ => rfl

theorem PortTold.accepted (told : PortTold running round p byRuntime byCaller) {now delay : ℕ} {x : α}
    (h : p.submit now delay ⟨x, round⟩ = .accepted q) :
    PortTold running round q byRuntime byCaller := by
  obtain ⟨hcallbacks, -, hterminated, hcanceled, -, -, hlive⟩ := TaskPort.submit_accepted h
  constructor
  · rw [hterminated]
    exact told.told
  · rw [hterminated, hcanceled]
    exact told.canceled
  · intro w hw
    rw [hcallbacks] at hw
    rcases List.mem_append.mp hw with hw | hw
    · exact told.stamped w hw
    · rw [List.mem_singleton.mp hw]
  · intro _ _ _ _
    have := told.told
    rw [hlive] at this
    exact (Bool.or_eq_false_iff.mp this.symm).1

theorem PortTold.fewer (told : PortTold running round p byRuntime byCaller)
    (terminated : q.terminated = p.terminated) (canceled : q.canceled = p.canceled)
    (fewer : ∀ w ∈ q.callbacks, w ∈ p.callbacks) : PortTold running round q byRuntime byCaller where
  told := terminated.trans told.told
  canceled := by
    rw [terminated, canceled]
    exact told.canceled
  stamped := fun w hw => told.stamped w (fewer w hw)
  current := fun h w hw => told.current h w (fewer w hw)

theorem PortTold.endPort (told : PortTold running round p byRuntime byCaller)
    (terminated : q.terminated = true) (callbacks : q.callbacks = p.callbacks) :
    PortTold running round q byRuntime true where
  told := by rw [terminated, Bool.or_true]
  canceled := fun _ => terminated
  stamped := by
    rw [callbacks]
    exact told.stamped
  current := by
    rw [callbacks]
    exact told.current

theorem PortTold.stop (told : PortTold false round p byRuntime byCaller) :
    PortTold false round p.stop true byCaller where
  told := rfl
  canceled := fun _ => rfl
  stamped := told.stamped
  current := fun h => by cases h

theorem PortTold.up (told : PortTold running round p byRuntime byCaller) (running' : Bool) :
    PortTold running' (round + 1) p byRuntime byCaller where
  told := told.told
  canceled := told.canceled
  stamped := fun w hw => (told.stamped w hw).trans (Nat.le_succ _)
  current := fun _ w hw hround => by
    have := told.stamped w hw
    omega

theorem PortTold.down (told : PortTold running round p byRuntime byCaller) :
    PortTold false round p byRuntime byCaller :=
  ⟨told.told, told.canceled, told.stamped, fun h => by cases h⟩

end Ports

theorem Told.withPool {s : Rounds α} (told : Told s) {p : QueuePool (RoundWork α)}
    (owned : p.owned = s.pool.owned) : Told { s with pool := p } where
  ports := by
    rw [show ({ s with pool := p } : Rounds α).pool.owned = s.pool.owned from owned]
    exact told.ports
  stopping := told.stopping

theorem Told.setPort {s : Rounds α} (told : Told s) {i : PortId} {t : TaskPort (RoundWork α)}
    (h : PortTold s.running s.round t (s.byRuntime i) (s.byCaller i)) :
    Told { s with pool := s.pool.setPort i t } where
  ports := by
    intro j
    rw [QueuePool.setPort_owned, Function.update_apply]
    split_ifs with hj
    · exact hj ▸ h
    · exact told.ports j
  stopping := told.stopping

theorem Told.endPort {s : Rounds α} (told : Told s) {i : PortId} {t : TaskPort (RoundWork α)}
    (terminated : t.terminated = true) (callbacks : t.callbacks = (s.pool.owned i).callbacks) :
    Told (s.endPort i t) where
  ports := by
    intro j
    simp only [Rounds.endPort, QueuePool.setPort_owned, Function.update_apply]
    split_ifs with hj
    · exact hj ▸ (told.ports i).endPort terminated callbacks
    · exact told.ports j
  stopping := told.stopping

/-- A queue is created. -/
theorem Told.withCreated {s : Rounds α} (told : Told s) {p : QueuePool (RoundWork α)}
    {w c : DispatchMode} {x : QueueId} {wi ci : PortId}
    (created : QueuePool.Created s.pool p w c x wi ci) : Told (s.withCreated x p) where
  ports := by
    intro j
    have hmade : p.made x = .openWith (some wi) (some ci) := by
      rw [created.made, Function.update_self]
    have hflag : ∀ f : PortId → Bool,
        opened (p.made x) f j = if j = ci ∨ j = wi then false else f j := by
      intro f
      rw [opened, hmade]
      by_cases hj : j = ci ∨ j = wi
      · rw [if_pos hj]
        rcases hj with rfl | rfl <;> simp [TaskQueue.openWith]
      · rw [if_neg hj]
        simp only [not_or] at hj
        simp [TaskQueue.openWith, Ne.symm hj.1, Ne.symm hj.2]
    rw [Rounds.withCreated]
    simp only [hflag, created.owned, Function.update_apply]
    by_cases hc : j = ci
    · rw [if_pos hc, if_pos (.inl hc), if_pos (.inl hc)]
      exact .opened c
    · rw [if_neg hc]
      by_cases hw : j = wi
      · rw [if_pos hw, if_pos (.inr hw), if_pos (.inr hw)]
        exact .opened w
      · rw [if_neg hw, if_neg (by tauto), if_neg (by tauto)]
        exact told.ports j
  stopping := told.stopping

/-- What the process queue is taken from: a pool with the same ports, or one in which it was created. -/
theorem Told.processQueue {s t : Rounds α} {x : QueueId} (told : Told s)
    (h : s.processQueue = some (x, t)) : Told t := by
  unfold Rounds.processQueue at h
  split at h
  · cases h
  · rename_i y p hresolve
    simp only [QueuePool.resolve, QueuePool.processQueue] at hresolve
    cases hcurrent : s.pool.current with
    | some q =>
      rw [hcurrent] at hresolve
      obtain ⟨rfl, rfl⟩ := Prod.mk.inj (Option.some.inj hresolve)
      rw [if_neg (by simp [hcurrent])] at h
      obtain ⟨-, rfl⟩ := Prod.mk.inj (Option.some.inj h)
      exact told
    | none =>
      rw [hcurrent] at hresolve
      cases hfallback : s.pool.fallback with
      | some q =>
        rw [hfallback] at hresolve
        obtain ⟨rfl, rfl⟩ := Prod.mk.inj (Option.some.inj hresolve)
        rw [if_neg (by simp [hfallback])] at h
        obtain ⟨-, rfl⟩ := Prod.mk.inj (Option.some.inj h)
        exact told.withPool rfl
      | none =>
        rw [hfallback] at hresolve
        rw [if_pos ⟨hcurrent, hfallback⟩] at h
        obtain ⟨-, rfl⟩ := Prod.mk.inj (Option.some.inj h)
        rcases hcreate : s.pool.createQueue .threadPool .threadPool with ⟨z, q⟩
        simp only [hcreate] at hresolve
        cases z with
        | none => cases hresolve
        | some z =>
          obtain ⟨rfl, rfl⟩ := Prod.mk.inj (Option.some.inj hresolve)
          have hcases := (s.pool.createQueue_cases .threadPool .threadPool).2
          rw [hcreate] at hcases
          rcases hcases with ⟨hnone, -⟩ | ⟨i, wi, ci, hi, hcreated⟩
          · cases hnone
          · obtain rfl := Option.some.inj hi
            exact told.withCreated (w := .threadPool) (c := .threadPool)
              ⟨hcreated.apart, hcreated.workFree, hcreated.completionFree, hcreated.workUsed,
                hcreated.completionUsed, hcreated.owned, hcreated.made, hcreated.generation,
                hcreated.lost⟩

theorem Told.submit {s : Rounds α} (told : Told s) (p : PortId) (now delay : ℕ) (x : α) :
    Told (s.submit p now delay x).1 := by
  unfold Rounds.submit
  dsimp only
  split
  · rename_i t ht
    exact told.setPort ((told.ports p).accepted ht)
  · exact told
  · exact told

theorem Told.stopDone {s : Rounds α} (told : Told s) (p : Option PortId) : Told (s.stopDone p) := by
  cases p with
  | none => exact told
  | some p => exact told.endPort rfl rfl

theorem Told.close {s : Rounds α} (told : Told s) (q : QueueId) : Told (s.close q) := by
  unfold Rounds.close
  dsimp only
  split_ifs
  · have hreleased : ((s.pool.close q).releaseQueue q).2.owned = s.pool.owned :=
      ((s.pool.close q).releaseQueue_alike q).owned
    have hstopped := ((told.withPool hreleased).stopDone
      ((s.pool.close q).releaseQueue q).1.1).stopDone ((s.pool.close q).releaseQueue q).1.2
    exact hstopped.withPool (QueuePool.givePorts_alike _ _).owned
  · exact told.withPool rfl

theorem owned_createCompositeQueue (p : QueuePool (RoundWork α)) (w c : Option PortId) :
    (p.createCompositeQueue w c).2.owned = p.owned := by
  unfold QueuePool.createCompositeQueue
  rcases hqueue : p.takeQueue with ⟨i, q⟩
  cases i with
  | none =>
    obtain rfl := QueuePool.takeQueue_none hqueue
    rfl
  | some i =>
    exact ((QueuePool.borrow_alike _ c).owned.trans (QueuePool.borrow_alike _ w).owned).trans
      (QueuePool.takeQueue_some hqueue).1

/-- Every step keeps what is known. -/
theorem Told.step {s t : Rounds α} {a : RoundAct α} {ev : List (RoundEvent α)} (told : Told s)
    (h : step s a = some (t, ev)) : Told t := by
  cases a with
  | up =>
    simp only [Rounds.step] at h
    split_ifs at h with hdown
    obtain ⟨rfl, -⟩ := Prod.mk.inj (Option.some.inj h)
    exact ⟨fun i => (told.ports i).up true, fun _ => hdown.2⟩
  | down =>
    simp only [Rounds.step] at h
    split_ifs at h
    obtain ⟨rfl, -⟩ := Prod.mk.inj (Option.some.inj h)
    exact ⟨fun i => (told.ports i).down, fun h => by cases h⟩
  | stopNext =>
    simp only [Rounds.step] at h
    split at h
    · cases h
    · rename_i p rest hstopping
      obtain ⟨rfl, -⟩ := Prod.mk.inj (Option.some.inj h)
      have hdown : s.running = false := by
        by_contra hrunning
        have := told.stopping (by simpa using hrunning)
        rw [hstopping] at this
        cases this
      refine ⟨fun i => ?_, fun hrunning => ?_⟩
      · simp only [QueuePool.setPort_owned, Function.update_apply, hdown]
        split_ifs with hi
        · have hport := told.ports p
          rw [hdown] at hport
          rw [hi]
          exact hport.stop
        · exact hdown ▸ told.ports i
      · rw [hdown] at hrunning
        cases hrunning
  | begin pt now x =>
    simp only [Rounds.step] at h
    split at h
    · cases h
    · rename_i q u hqueue
      obtain ⟨p, -, heq⟩ := Option.map_eq_some_iff.mp h
      obtain rfl : (u.submit p now 0 x).1 = t := congrArg Prod.fst heq
      exact (told.processQueue hqueue).submit p now 0 x
  | submit p now delay x =>
    obtain rfl : (s.submit p now delay x).1 = t := congrArg Prod.fst (Option.some.inj h)
    exact told.submit p now delay x
  | take p now =>
    obtain ⟨u, htake, heq⟩ := Option.map_eq_some_iff.mp h
    obtain ⟨rfl, -⟩ := Prod.mk.inj heq
    obtain ⟨hperm, -, -, hterminated, hcanceled, -⟩ := TaskPort.take_spec htake
    refine told.setPort ((told.ports p).fewer hterminated hcanceled fun w hw => ?_)
    exact hperm.mem_iff.mpr (List.mem_cons_of_mem _ hw)
  | createQueue w c =>
    simp only [Rounds.step] at h
    have hcases := (s.pool.createQueue_cases w c).2
    rcases hcreate : s.pool.createQueue w c with ⟨x, p⟩
    rw [hcreate] at h hcases
    rcases hcases with ⟨hnone, halike⟩ | ⟨i, wi, ci, hi, hcreated⟩
    · obtain rfl : x = none := hnone
      obtain ⟨rfl, -⟩ := Prod.mk.inj (Option.some.inj h)
      exact told.withPool halike.owned
    · obtain rfl : x = some i := hi
      obtain ⟨rfl, -⟩ := Prod.mk.inj (Option.some.inj h)
      exact told.withCreated hcreated
  | createComposite w c =>
    obtain ⟨rfl, -⟩ := Prod.mk.inj (Option.some.inj h)
    exact told.withPool (owned_createCompositeQueue _ _ _)
  | duplicate q =>
    obtain ⟨rfl, -⟩ := Prod.mk.inj (Option.some.inj h)
    exact told.withPool rfl
  | close q =>
    obtain ⟨rfl, -⟩ := Prod.mk.inj (Option.some.inj h)
    exact told.close q
  | terminatePort p =>
    obtain ⟨rfl, -⟩ := Prod.mk.inj (Option.some.inj h)
    exact told.endPort rfl (TaskPort.callbacks_terminate _)
  | setProcess q =>
    obtain ⟨rfl, -⟩ := Prod.mk.inj (Option.some.inj h)
    exact told.withPool rfl

theorem Told.start [Inhabited α] : Told (start : Rounds α) where
  ports := fun i => by
    constructor
    · rfl
    · exact fun h => by cases h
    · exact fun w hw => by cases hw
    · exact fun h => by cases h
  stopping := fun _ => rfl

/-! ## When the runtime is as usable as before -/

/-- A port refuses what is submitted if the runtime or the caller has ended it, or it is full. -/
theorem refused_iff {s : Rounds α} (told : Told s) {p : PortId} (now delay : ℕ) (x : α)
    (room : (s.pool.owned p).ring.count < 128) (live : s.byCaller p = false) :
    .refused ⟨x, s.round⟩ ∉ (s.submit p now delay x).2 ↔
      (s.pool.owned p).mode = .immediate ∨ s.byRuntime p = false := by
  have htold := (told.ports p).told
  rw [live, Bool.or_false] at htold
  by_cases hmode : (s.pool.owned p).mode = .immediate
  · have himmediate : (s.pool.owned p).submit now delay ⟨x, s.round⟩ = .immediate := by
      rw [TaskPort.submit, if_pos hmode]
    simp [Rounds.submit, himmediate, hmode]
  · cases hterminated : s.byRuntime p with
    | true =>
      rw [hterminated] at htold
      have hrefused : (s.pool.owned p).submit now delay ⟨x, s.round⟩ = .refused :=
        (TaskPort.submit_refused_iff hmode).mpr (.inl htold)
      simp [Rounds.submit, hrefused, hmode]
    | false =>
      rw [hterminated] at htold
      have hnot : (s.pool.owned p).submit now delay ⟨x, s.round⟩ ≠ .refused := by
        rw [Ne, TaskPort.submit_refused_iff hmode, htold]
        simp only [Bool.false_eq_true, false_or, TaskPort.capacity]
        omega
      cases hsubmit : (s.pool.owned p).submit now delay ⟨x, s.round⟩ with
      | refused => exact absurd hsubmit hnot
      | immediate => simp [Rounds.submit, hsubmit]
      | accepted t => simp [Rounds.submit, hsubmit]

theorem usable_iff {s : Rounds α} (told : Told s) (a : RoundAct α) : Usable s a ↔ Unstopped s a := by
  cases a with
  | begin pt now x =>
    constructor
    · intro h hrunning q t p hqueue hport hroom hlive
      exact (refused_iff (told.processQueue hqueue) now 0 x hroom hlive).mp
        (h hrunning q t p hqueue hport hroom hlive)
    · intro h hrunning q t p hqueue hport hroom hlive
      exact (refused_iff (told.processQueue hqueue) now 0 x hroom hlive).mpr
        (h hrunning q t p hqueue hport hroom hlive)
  | take p now =>
    refine iff_of_true (fun hrunning t htake hround hlive => ?_) trivial
    obtain ⟨hperm, hflag, -⟩ := TaskPort.take_spec htake
    have hport := told.ports p
    have hruntime := hport.current hrunning _ (hperm.mem_iff.mpr List.mem_cons_self) hround
    have hterminated := hport.told
    rw [hruntime, hlive] at hterminated
    rw [hflag]
    by_contra hcanceled
    rw [hport.canceled (by simpa using hcanceled)] at hterminated
    cases hterminated
  | _ => exact Iff.rfl

/-- Along every run of rounds the runtime is usable if and only if no submission to the process queue,
while the runtime is up, comes to a port that the runtime has stopped. -/
theorem usable_along_iff [Inhabited α] {calls : List (RoundAct α)} :
    Along step Usable (start : Rounds α) calls ↔ Along step Unstopped (start : Rounds α) calls := by
  refine along_congr ?_ calls
  intro tr s a hreach
  apply usable_iff
  exact hreach.state_invariant (P := Told) Told.start fun s a t ev told _ h => told.step h

/-- Work is begun in the first round, and again in the second. -/
def secondRound : List (RoundAct ℕ) :=
  [.up, .begin .work 0 1, .take 0 0, .down, .stopNext, .stopNext, .up]

/-- The process queue while the runtime is up: its work port, the callbacks on it, whether the caller
has ended it, and whether it refuses a submission. -/
def secondBegin (s : Rounds ℕ) : Option (Option PortId × ℕ × Bool × Bool) :=
  if s.running then
    s.processQueue.map fun (q, t) => ((t.pool.made q).work, (t.pool.owned 0).ring.count, t.byCaller 0,
      decide (.refused ⟨2, t.round⟩ ∈ (t.submit 0 0 0 2).2))
  else none

theorem secondRound_end :
    ((execute step (start : Rounds ℕ) secondRound).bind fun last => last.1.secondBegin) =
      some (some 0, 0, false, true) := by
  decide +kernel

/-- What is begun in the second round is refused, although the process queue is empty and no caller has
ended it. -/
theorem usable_fails :
    ¬ ∀ calls : List (RoundAct ℕ), Along step Usable (start : Rounds ℕ) calls := by
  intro h
  obtain ⟨⟨last, ev⟩, hrun, hend⟩ := Option.bind_eq_some_iff.mp secondRound_end
  have husable := (h (secondRound ++ [.begin .work 0 2])).last hrun
  simp only [secondBegin] at hend
  split_ifs at hend with hrunning
  obtain ⟨⟨q, t⟩, hqueue, hfacts⟩ := Option.map_eq_some_iff.mp hend
  simp only [Prod.mk.injEq, decide_eq_true_eq] at hfacts
  obtain ⟨hport, hcount, hlive, hrefused⟩ := hfacts
  have hroom : (t.pool.owned 0).ring.count < 128 := by rw [hcount]; decide
  exact husable hrunning q t 0 hqueue hport hroom hlive hrefused

end Rounds

end IW4x.Gdk
