import IW4x.Lib.Runs
import IW4x.Gdk.PoolPorts

/-!
# The pool under whole calls

Queues are created, duplicated and closed by calls that run one after the other, with nothing queued
on the ports. `references` counts the handles of a queue that were given out and not closed, which
is what the source's `references_` counts modulo 2^32.
-/

namespace IW4x.Gdk

open Runs

inductive PoolEvent where
  | failed
  | created (x : QueueId)
  | opened (i : PortId)
  | stopped (i : PortId)
  /-- The port was given back to the pool. -/
  | given (i : PortId)
  deriving DecidableEq

inductive PoolCall where
  | create (w c : DispatchMode)
  /-- `none` is a port outside the pool. -/
  | createComposite (w c : Option PortId)
  | duplicate (x : QueueId)
  | close (x : QueueId)
  deriving DecidableEq

structure PoolCalls (α : Type) where
  pool : QueuePool α
  references : QueueId → ℕ

namespace QueuePool

variable {α : Type}

/-- `task_port::stop`, with nothing to be drained. -/
def stopPort (p : QueuePool α) : Option PortId → QueuePool α
  | none => p
  | some i => p.setPort i (p.owned i).stop

/-- `release_queue` as a whole; `none` where the contract of `give_port` is violated. -/
def release (p : QueuePool α) (x : QueueId) : Option (QueuePool α × List PoolEvent) :=
  let r := p.releaseQueue x
  let stopped := (r.2.stopPort r.1.1).stopPort r.1.2
  if r.1.1.all stopped.portUsed ∧ r.1.2.all stopped.portUsed then
    some (stopped.givePorts r.1,
      r.1.1.toList.map .stopped ++ r.1.2.toList.map .stopped ++
        (r.1.1.toList.map .given ++ r.1.2.toList.map .given))
  else none

/-- How often `release_queue` gives the port back: once, when nobody else holds it. -/
def gives (p : QueuePool α) (x : QueueId) (i : PortId) : ℕ :=
  if 0 < p.holds x i ∧ p.holders i = p.holds x i then 1 else 0

theorem stopPort_kept {p : QueuePool α} {pending : PortId → ℕ} (kept : p.PortsKept pending)
    (i : Option PortId) : (p.stopPort i).PortsKept pending := by
  cases i with
  | none => exact kept
  | some i => exact kept.congr (p.setPort_holders i _)

/-- What `release_queue` does as a whole. -/
structure ReleasedWhole (p q : QueuePool α) (x : QueueId) (ev : List PoolEvent) : Prop where
  ports : q.PortsKept fun _ => 0
  used : q.madeUsed = Function.update p.madeUsed x false
  made : q.made = p.made
  portUsed : ∀ i, p.gives x i + (q.portUsed i).toNat = (p.portUsed i).toNat
  given : ∀ i, ev.count (.given i) = p.gives x i
  stopped : ∀ i, ev.count (.stopped i) = p.gives x i
  opened : ∀ i, ev.count (.opened i) = 0
  created : .failed ∉ ev

theorem count_toList (f : PortId → PoolEvent) (injective : Function.Injective f)
    (a b : Option PortId) (i : PortId) :
    (a.toList.map f ++ b.toList.map f).count (f i) = portCount a b i := by
  have single : ∀ a : Option PortId, (a.toList.map f).count (f i) = if a = some i then 1 else 0 := by
    intro a
    cases a with
    | none => rfl
    | some j =>
      by_cases hj : j = i
      · subst hj; simp
      · simp [hj, injective.ne hj]
  rw [List.count_append, single, single, portCount]

theorem PortsKept.release {p : QueuePool α} (kept : p.PortsKept fun _ => 0) {x : QueueId}
    (used : p.madeUsed x = true) : ∃ q ev, p.release x = some (q, ev) ∧ ReleasedWhole p q x ev := by
  have released := kept.releaseQueue used
  have after : (p.releaseQueue x).2.PortsKept
      fun i => portCount (p.releaseQueue x).1.1 (p.releaseQueue x).1.2 i :=
    kept.released used released (by simp)
  have stopped := stopPort_kept (stopPort_kept after (p.releaseQueue x).1.1) (p.releaseQueue x).1.2
  have hgives : ∀ i, portCount (p.releaseQueue x).1.1 (p.releaseQueue x).1.2 i = p.gives x i := by
    intro i
    have hholders := released.holders i
    have hiff : (p.releaseQueue x).2.holders i = 0 ↔ p.holders i = p.holds x i := by omega
    simp only [released.done i, gives, hiff]
  have used_of : ∀ a, (a = (p.releaseQueue x).1.1 ∨ a = (p.releaseQueue x).1.2) →
      a.all (((p.releaseQueue x).2.stopPort (p.releaseQueue x).1.1).stopPort
        (p.releaseQueue x).1.2).portUsed = true := by
    intro a ha
    cases a with
    | none => rfl
    | some i =>
      have hpos := portCount_pos.mpr (ha.imp Eq.symm Eq.symm)
      have hused := stopped.used i
      by_contra hnot
      simp only [Option.all_some] at hnot
      rw [Bool.eq_false_of_not_eq_true hnot, Bool.toNat_false] at hused
      omega
  have given : QueuePool.PortsKept (((((p.releaseQueue x).2.stopPort (p.releaseQueue x).1.1).stopPort
      (p.releaseQueue x).1.2)).givePorts (p.releaseQueue x).1) fun _ => 0 :=
    stopped.givePorts (by simp)
  have hmade : ∀ (q : QueuePool α) (i : Option PortId), (q.stopPort i).made = q.made ∧
      (q.stopPort i).madeUsed = q.madeUsed ∧ (q.stopPort i).holders = q.holders := by
    intro q i
    cases i <;> exact ⟨rfl, rfl, rfl⟩
  have hgiven : ∀ (q : QueuePool α) (i : Option PortId), (q.givePort i).made = q.made ∧
      (q.givePort i).madeUsed = q.madeUsed ∧ (q.givePort i).holders = q.holders := by
    intro q i
    cases i <;> exact ⟨rfl, rfl, rfl⟩
  have hother : ∀ (f : PortId → PoolEvent) (y : PoolEvent), (∀ j, f j ≠ y) → ∀ a : Option PortId,
      (a.toList.map f).count y = 0 := by
    intro f y hy a
    rw [List.count_eq_zero]
    simp [hy]
  refine ⟨_, _, if_pos ⟨used_of _ (.inl rfl), used_of _ (.inr rfl)⟩, ?_⟩
  constructor
  · exact given
  · simp only [QueuePool.givePorts, (hgiven _ _).2.1, (hmade _ _).2.1, released.used]
  · simp only [QueuePool.givePorts, (hgiven _ _).1, (hmade _ _).1, released.made]
  · intro i
    have hbefore := after.used i
    have hafter := given.used i
    have hsame : ((((p.releaseQueue x).2.stopPort (p.releaseQueue x).1.1).stopPort
        (p.releaseQueue x).1.2).givePorts (p.releaseQueue x).1).holders =
        (p.releaseQueue x).2.holders := by
      simp only [QueuePool.givePorts, (hgiven _ _).2.2, (hmade _ _).2.2]
    rw [hsame] at hafter
    rw [hgives, released.portUsed] at hbefore
    omega
  · intro i
    rw [List.count_append, List.count_append, hother .stopped _ (by simp),
      hother .stopped _ (by simp), count_toList .given (fun _ _ => PoolEvent.given.inj), hgives,
      Nat.zero_add]
  · intro i
    rw [List.count_append, count_toList .stopped (fun _ _ => PoolEvent.stopped.inj),
      List.count_append, hother .given _ (by simp), hother .given _ (by simp), hgives, Nat.add_zero]
  · intro i
    simp only [List.count_append, hother .stopped (.opened i) (by simp),
      hother .given (.opened i) (by simp)]
  · simp

theorem PortsKept.close {p : QueuePool α} {pending : PortId → ℕ} (kept : p.PortsKept pending)
    (x : QueueId) : (p.close x).PortsKept pending :=
  kept.congr (p.close_holders x)

theorem PortsKept.duplicate {p : QueuePool α} {pending : PortId → ℕ} (kept : p.PortsKept pending)
    (x : QueueId) : (p.duplicate x).PortsKept pending :=
  kept.congr (p.duplicate_holders x)

theorem references_close (p : QueuePool α) (x : QueueId) :
    ((p.close x).made x).references = ((p.made x).references + 2 ^ 32 - 1) % 2 ^ 32 := by
  simp only [QueuePool.close, Function.update_self]

end QueuePool

namespace PoolCalls

variable {α : Type}

def start [Inhabited α] : PoolCalls α where
  pool := .empty
  references := fun _ => 0

def made (s : PoolCalls α) : Option QueueId × QueuePool α → (QueueId → List PoolEvent) →
    PoolCalls α × List PoolEvent
  | (none, p), _ => ({ s with pool := p }, [.failed])
  | (some x, p), ev =>
    ({ pool := p, references := Function.update s.references x 1 }, .created x :: ev x)

/-- One call, from its beginning to its end. -/
def step : Step (PoolCalls α) PoolCall PoolEvent := fun s call =>
  match call with
  | .create w c =>
    let r := s.pool.createQueue w c
    some (s.made r fun x =>
      (r.2.made x).work.toList.map .opened ++ (r.2.made x).completion.toList.map .opened)
  | .createComposite w c => some (s.made (s.pool.createCompositeQueue w c) fun _ => [])
  | .duplicate x => some ({
      pool := s.pool.duplicate x
      references := Function.update s.references x (s.references x + 1) }, [])
  | .close x =>
    let p := s.pool.close x
    let references := Function.update s.references x (s.references x - 1)
    if (p.made x).references = 0 then
      (p.release x).map fun r => ({ pool := r.1, references := references }, r.2)
    else some ({ pool := p, references := references }, [])

/-- The queue has a handle that was not closed. -/
def live (s : PoolCalls α) (x : QueueId) : Prop := 0 < s.references x

def has (s : PoolCalls α) (x : QueueId) (i : PortId) : Prop := ∃ r, (s.pool.made x).port r = some i

/-- Callers name queues that they hold a handle of, and ports of such queues. -/
def proper (s : PoolCalls α) : PoolCall → Prop
  | .create _ _ => True
  | .createComposite w c => ∀ i, w = some i ∨ c = some i → ∃ x, s.live x ∧ s.has x i
  | .duplicate x => s.live x
  | .close x => s.live x

/-- The handles of a queue can be counted in an `unsigned`. -/
def countable (s : PoolCalls α) : PoolCall → Prop
  | .duplicate x => s.references x + 1 < 2 ^ 32
  | _ => True

structure PoolKept (tr : List PoolEvent) (s : PoolCalls α) : Prop where
  ports : s.pool.PortsKept fun _ => 0
  used : ∀ x, s.pool.madeUsed x = true ↔ s.live x
  references : ∀ x, s.live x → (s.pool.made x).references = s.references x
  bounded : ∀ x, s.references x < 2 ^ 32
  opened : ∀ i, tr.count (.opened i) = tr.count (.given i) + (s.pool.portUsed i).toNat
  stopped : ∀ i, tr.count (.stopped i) = tr.count (.given i)

inductive CallStep (s : PoolCalls α) : PoolCall → PoolCalls α → List PoolEvent → Prop
  | fails {w c} (full : (∃ i, ∀ j, s.pool.portUsed j = false → j = i) ∨
      ∀ x, s.pool.madeUsed x = true) : CallStep s (.create w c) s [.failed]
  | creates {w c x wi ci p} (owns : s.pool.OwnsPorts p x wi ci) :
      CallStep s (.create w c) ⟨p, Function.update s.references x 1⟩
        [.created x, .opened wi, .opened ci]
  | lacks {w c} (full : ∀ x, s.pool.madeUsed x = true) :
      CallStep s (.createComposite w c) s [.failed]
  | composes {w c x p} (borrows : s.pool.BorrowsPorts p x w c) :
      CallStep s (.createComposite w c) ⟨p, Function.update s.references x 1⟩ [.created x]
  | duplicates {x} : CallStep s (.duplicate x)
      ⟨s.pool.duplicate x, Function.update s.references x (s.references x + 1)⟩ []
  | closes {x} (more : s.references x ≠ 1) : CallStep s (.close x)
      ⟨s.pool.close x, Function.update s.references x (s.references x - 1)⟩ []
  | releases {x p ev} (last : s.references x = 1)
      (released : (s.pool.close x).release x = some (p, ev)) :
      CallStep s (.close x) ⟨p, Function.update s.references x (s.references x - 1)⟩ ev

variable {tr : List PoolEvent} {s t : PoolCalls α} {call : PoolCall} {ev : List PoolEvent}

theorem PoolKept.last (kept : PoolKept tr s) {x : QueueId} (live : s.live x) :
    ((s.pool.close x).made x).references = 0 ↔ s.references x = 1 := by
  have hbounded := kept.bounded x
  have hlive : 0 < s.references x := live
  rw [QueuePool.references_close, kept.references x live]
  generalize s.references x = n at *
  omega

/-- Every call of a proper caller is possible. -/
theorem PoolKept.callStep (kept : PoolKept tr s) (proper : s.proper call) :
    ∃ t ev, step s call = some (t, ev) ∧ CallStep s call t ev := by
  cases call with
  | create w c =>
    rcases s.pool.createQueue_owns w c with ⟨hnone, full⟩ | ⟨x, wi, ci, q, hsome, owns⟩
    · exact ⟨s, [.failed], by simp only [step, hnone, made], .fails full⟩
    · refine ⟨_, _, ?_, .creates owns⟩
      have hwork : (q.made x).work = some wi := by rw [owns.made, Function.update_self]; rfl
      have hcompletion : (q.made x).completion = some ci := by
        rw [owns.made, Function.update_self]; rfl
      simp only [step, hsome, made, hwork, hcompletion]
      rfl
  | createComposite w c =>
    rcases s.pool.createCompositeQueue_borrows w c with ⟨hnone, full⟩ | ⟨x, q, hsome, borrows⟩
    · exact ⟨s, [.failed], by simp only [step, hnone, made], .lacks full⟩
    · exact ⟨_, _, by simp only [step, hsome, made], .composes borrows⟩
  | duplicate x => exact ⟨_, _, rfl, .duplicates⟩
  | close x =>
    have hlast := kept.last (x := x) proper
    by_cases hone : s.references x = 1
    · have hused : (s.pool.close x).madeUsed x = true := (kept.used x).mpr proper
      obtain ⟨q, ev, hrelease, -⟩ := (kept.ports.close x).release hused
      refine ⟨_, _, ?_, .releases hone hrelease⟩
      simp only [step]
      rw [if_pos (hlast.mpr hone), hrelease]
      rfl
    · refine ⟨_, _, ?_, .closes hone⟩
      simp only [step]
      rw [if_neg (hlast.not.mpr hone)]

theorem poolKept_start [Inhabited α] : PoolKept [] (start : PoolCalls α) := by
  refine ⟨QueuePool.portsKept_empty, ?_, ?_, ?_, ?_, ?_⟩
  all_goals simp [start, QueuePool.empty, live]

/-- A queue object that was free has its first handle. -/
theorem PoolKept.first (kept : PoolKept tr s) {x : QueueId} {p : QueuePool α}
    {ev : List PoolEvent} (ports : p.PortsKept fun _ => 0) (free : s.pool.madeUsed x = false)
    (used : p.madeUsed = Function.update s.pool.madeUsed x true) {w c : Option PortId}
    (made : p.made = Function.update s.pool.made x (.openWith w c))
    (opened : ∀ i, ev.count (.opened i) + (s.pool.portUsed i).toNat =
      ev.count (.given i) + (p.portUsed i).toNat)
    (stopped : ∀ i, ev.count (.stopped i) = ev.count (.given i)) :
    PoolKept (tr ++ ev) ⟨p, Function.update s.references x 1⟩ := by
  constructor
  · exact ports
  · intro y
    by_cases hy : y = x
    · subst hy; simp [used, live]
    · simp only [used, live, Function.update_of_ne hy]
      exact kept.used y
  · intro y hlive
    by_cases hy : y = x
    · subst hy; simp [made, TaskQueue.openWith]
    · simp only [live, made, Function.update_of_ne hy] at hlive ⊢
      exact kept.references y hlive
  · intro y
    by_cases hy : y = x
    · subst hy; simp
    · simp only [Function.update_of_ne hy]
      exact kept.bounded y
  · intro i
    have hopened := kept.opened i
    have hnew := opened i
    simp only [List.count_append]
    omega
  · intro i
    rw [List.count_append, List.count_append, kept.stopped i, stopped i]

/-- The handles of a queue in use become more or fewer, and stay some. -/
theorem PoolKept.counted (kept : PoolKept tr s) {x : QueueId} {p : QueuePool α} {n : ℕ}
    (ports : p.PortsKept fun _ => 0) (live : s.live x) (some : 0 < n) (few : n < 2 ^ 32)
    (used : p.madeUsed = s.pool.madeUsed) (portUsed : p.portUsed = s.pool.portUsed)
    (count : (p.made x).references = n)
    (made : ∀ y, y ≠ x → p.made y = s.pool.made y) :
    PoolKept (tr ++ []) ⟨p, Function.update s.references x n⟩ := by
  rw [List.append_nil]
  constructor
  · exact ports
  · intro y
    have hy := kept.used y
    by_cases hyx : y = x
    · subst hyx
      simp only [used, PoolCalls.live, Function.update_self]
      exact ⟨fun _ => some, fun _ => hy.mpr live⟩
    · simpa only [used, PoolCalls.live, Function.update_of_ne hyx] using hy
  · intro y hlive
    by_cases hyx : y = x
    · subst hyx
      simpa only [Function.update_self] using count
    · simp only [PoolCalls.live, Function.update_of_ne hyx] at hlive ⊢
      rw [made y hyx]
      exact kept.references y hlive
  · intro y
    by_cases hyx : y = x
    · subst hyx
      simpa only [Function.update_self] using few
    · simp only [Function.update_of_ne hyx]
      exact kept.bounded y
  · simpa only [portUsed] using kept.opened
  · exact kept.stopped

theorem PoolKept.step (kept : PoolKept tr s) (proper : s.proper call) (countable : s.countable call)
    (h : CallStep s call t ev) : PoolKept (tr ++ ev) t := by
  cases h with
  | fails _ =>
    refine ⟨kept.ports, kept.used, kept.references, kept.bounded, ?_, ?_⟩
    · simpa using kept.opened
    · simpa using kept.stopped
  | lacks _ =>
    refine ⟨kept.ports, kept.used, kept.references, kept.bounded, ?_, ?_⟩
    · simpa using kept.opened
    · simpa using kept.stopped
  | @creates w c x wi ci p owns =>
    refine kept.first (kept.ports.opened owns) owns.free owns.used owns.made ?_ (by simp)
    intro i
    rw [owns.portUsed]
    by_cases hic : i = ci
    · subst hic
      simp [owns.apart, owns.completionFree]
    · by_cases hiw : i = wi
      · subst hiw
        simp [hic, owns.workFree]
      · simp [hic, hiw, Ne.symm hic, Ne.symm hiw]
  | @composes w c x p borrows =>
    refine kept.first (kept.ports.borrowed borrows ?_) borrows.free borrows.used borrows.made ?_
      (by simp)
    · intro i hi
      obtain ⟨y, hlive, hhas⟩ := proper i hi
      exact kept.ports.holders_pos.mpr
        ⟨y, kept.ports.holds_port.mpr ⟨(kept.used y).mpr hlive, hhas⟩⟩
    · simp [borrows.portUsed]
  | @duplicates x =>
    have hcount : ((s.pool.duplicate x).made x).references = s.references x + 1 := by
      have hsame : ((s.pool.duplicate x).made x).references =
          ((s.pool.made x).references + 1) % 2 ^ 32 := by
        simp only [QueuePool.duplicate, Function.update_self]
      rw [hsame, kept.references x proper, Nat.mod_eq_of_lt countable]
    refine kept.counted (kept.ports.duplicate x) proper (Nat.succ_pos _) countable rfl rfl hcount ?_
    intro y hy
    simp only [QueuePool.duplicate, Function.update_of_ne hy]
  | @closes x more =>
    have hlive : 0 < s.references x := proper
    have hbounded := kept.bounded x
    have hcount : ((s.pool.close x).made x).references = s.references x - 1 := by
      rw [QueuePool.references_close, kept.references x proper]
      generalize s.references x = n at *
      omega
    refine kept.counted (kept.ports.close x) proper (by omega) (by omega) rfl rfl hcount ?_
    intro y hy
    simp only [QueuePool.close, Function.update_of_ne hy]
  | @releases x p ev last released =>
    have hused : (s.pool.close x).madeUsed x = true := (kept.used x).mpr proper
    obtain ⟨q, ev', hrelease, whole⟩ := (kept.ports.close x).release hused
    obtain ⟨rfl, rfl⟩ := Prod.mk.inj (Option.some.inj (hrelease.symm.trans released))
    constructor
    · exact whole.ports
    · intro y
      have hy := kept.used y
      by_cases hyx : y = x
      · subst hyx; simp [whole.used, live, last]
      · simp only [whole.used, live, Function.update_of_ne hyx]
        exact hy
    · intro y hlive
      by_cases hyx : y = x
      · subst hyx; simp [live, last] at hlive
      · simp only [live, whole.made, Function.update_of_ne hyx] at hlive ⊢
        simp only [QueuePool.close, Function.update_of_ne hyx]
        exact kept.references y hlive
    · intro y
      have hy := kept.bounded y
      by_cases hyx : y = x
      · subst hyx; simp [last]
      · simp only [Function.update_of_ne hyx]
        exact hy
    · intro i
      have hopened := kept.opened i
      have hused := whole.portUsed i
      rw [List.count_append, List.count_append, whole.opened, whole.given]
      change _ = _ + (q.portUsed i).toNat
      have hsame : (s.pool.close x).portUsed i = s.pool.portUsed i := rfl
      rw [hsame] at hused
      omega
    · intro i
      rw [List.count_append, List.count_append, whole.stopped, whole.given, kept.stopped i]

theorem PoolKept.holds_iff (kept : PoolKept tr s) {x : QueueId} {i : PortId} :
    0 < s.pool.holds x i ↔ s.live x ∧ s.has x i := by
  rw [kept.ports.holds_port, kept.used x]
  rfl

theorem PoolKept.gives_iff (kept : PoolKept tr s) {x : QueueId} {i : PortId} (live : s.live x) :
    0 < s.pool.gives x i ↔ s.has x i ∧ ∀ y, y ≠ x → s.live y → ¬ s.has y i := by
  have hpos : 0 < s.pool.gives x i ↔
      0 < s.pool.holds x i ∧ s.pool.holders i = s.pool.holds x i := by
    unfold QueuePool.gives
    split_ifs with h <;> simp [h]
  have hothers : (∀ y, y ≠ x → s.pool.holds y i = 0) ↔ ∀ y, y ≠ x → s.live y → ¬ s.has y i := by
    refine forall_congr' fun y => imp_congr_right fun _ => ?_
    have hy := kept.holds_iff (x := y) (i := i)
    rw [← not_and, ← hy]
    omega
  rw [hpos, kept.ports.sole, kept.holds_iff, hothers, and_iff_right live]

/-- What a call keeps: no port of a live queue is opened; a port is stopped and given back, once,
when the last queue that has it is closed; and a call that fails had no room and changes nothing. -/
structure CallKept (s : PoolCalls α) (call : PoolCall) (t : PoolCalls α) (ev : List PoolEvent) :
    Prop where
  opened : ∀ i, .opened i ∈ ev → ∀ x, s.live x → ¬ s.has x i
  given : ∀ i, .given i ∈ ev ↔ ∃ x, call = .close x ∧ s.references x = 1 ∧ s.has x i ∧
    ∀ y, y ≠ x → s.live y → ¬ s.has y i
  once : ∀ i, ev.count (.given i) ≤ 1 ∧ ev.count (.stopped i) = ev.count (.given i)
  fails : ∀ w c, call = .create w c → (.failed ∈ ev ↔
    (Finset.univ.filter fun i => s.pool.portUsed i = false).card < 2 ∨
      (Finset.univ.filter fun x => s.pool.madeUsed x = false).card = 0)
  lacks : ∀ w c, call = .createComposite w c → (.failed ∈ ev ↔
    (Finset.univ.filter fun x => s.pool.madeUsed x = false).card = 0)
  unchanged : .failed ∈ ev → t = s

theorem no_room_iff (f : QueueId → Bool) :
    (Finset.univ.filter fun x => f x = false).card = 0 ↔ ∀ x, f x = true := by
  simp [Finset.filter_eq_empty_iff]

theorem PoolKept.unheld (kept : PoolKept tr s) {i : PortId} (free : s.pool.portUsed i = false)
    (x : QueueId) (live : s.live x) : ¬ s.has x i := by
  intro hhas
  have hused := kept.ports.portUsed_of_holds (kept.holds_iff.mpr ⟨live, hhas⟩)
  simp [free] at hused

theorem PoolKept.callKept (kept : PoolKept tr s) (proper : s.proper call)
    (h : CallStep s call t ev) : CallKept s call t ev := by
  cases h with
  | fails full =>
    refine ⟨by simp, by simp, by simp, ?_, by simp, fun _ => rfl⟩
    intro w c _
    rw [no_room_iff]
    simp only [List.mem_singleton, true_iff]
    refine full.imp_left ?_
    rintro ⟨i, hi⟩
    refine Nat.lt_succ_of_le (Finset.card_le_one.mpr ?_)
    intro j hj k hk
    rw [hi j (by simpa using hj), hi k (by simpa using hk)]
  | lacks full =>
    refine ⟨by simp, by simp, by simp, by simp, ?_, fun _ => rfl⟩
    intro w c _
    rw [no_room_iff]
    simpa using full
  | @creates w c x wi ci p owns =>
    refine ⟨?_, by simp, by simp, ?_, by simp, by simp⟩
    · intro i hi y hlive
      have hfree : s.pool.portUsed i = false := by
        have hi : i = wi ∨ i = ci := by simpa using hi
        rcases hi with rfl | rfl
        · exact owns.workFree
        · exact owns.completionFree
      exact kept.unheld hfree y hlive
    · intro w c _
      have htwo : 1 < (Finset.univ.filter fun i => s.pool.portUsed i = false).card :=
        Finset.one_lt_card.mpr ⟨wi, by simp [owns.workFree], ci, by simp [owns.completionFree],
          owns.apart⟩
      rw [no_room_iff]
      simp only [List.mem_cons, reduceCtorEq, List.not_mem_nil, or_self, false_iff, not_or, not_lt]
      refine ⟨htwo, fun hall => ?_⟩
      have hx := hall x
      simp [owns.free] at hx
  | @composes w c x p borrows =>
    refine ⟨by simp, by simp, by simp, by simp, ?_, by simp⟩
    intro w c _
    rw [no_room_iff]
    simp only [List.mem_cons, reduceCtorEq, List.not_mem_nil, or_self, false_iff]
    intro hall
    have hx := hall x
    simp [borrows.free] at hx
  | duplicates => exact ⟨by simp, by simp, by simp, by simp, by simp, by simp⟩
  | @closes x more =>
    refine ⟨by simp, ?_, by simp, by simp, by simp, by simp⟩
    intro i
    simp only [List.not_mem_nil, PoolCall.close.injEq, false_iff, not_exists]
    rintro y ⟨rfl, hone, -⟩
    exact more hone
  | @releases x p ev last released =>
    have hused : (s.pool.close x).madeUsed x = true := (kept.used x).mpr proper
    obtain ⟨q, ev', hrelease, whole⟩ := (kept.ports.close x).release hused
    obtain ⟨rfl, rfl⟩ := Prod.mk.inj (Option.some.inj (hrelease.symm.trans released))
    have hgives : ∀ i, (s.pool.close x).gives x i = s.pool.gives x i := fun _ => rfl
    refine ⟨?_, ?_, ?_, by simp, by simp, fun h => absurd h whole.created⟩
    · intro i hi
      have hnone := List.count_eq_zero.mp (whole.opened i)
      exact absurd hi hnone
    · intro i
      rw [← List.count_pos_iff, whole.given i, hgives, kept.gives_iff proper]
      constructor
      · rintro ⟨hhas, hothers⟩
        exact ⟨x, rfl, last, hhas, hothers⟩
      · rintro ⟨y, hy, -, hhas, hothers⟩
        cases hy
        exact ⟨hhas, hothers⟩
    · intro i
      rw [whole.given, whole.stopped]
      refine ⟨?_, rfl⟩
      unfold QueuePool.gives
      split_ifs <;> simp

theorem card_used (n : ℕ) (f : Fin n → Bool) :
    ∑ i, (f i).toNat = (Finset.univ.filter fun i => f i = true).card := by
  rw [Finset.card_filter]
  refine Finset.sum_congr rfl fun i _ => ?_
  cases f i <;> rfl

/-- In every state that proper callers reach, with the handles of every queue few enough to be
counted, the ports of live queues are in use, both counts of the pool are true, and a port was
stopped and given back once for each time that it was opened, unless it is still in use. Whatever
call comes next is possible and keeps the ports of the live queues. -/
theorem pool_accounts [Inhabited α] (run : Reaches step
    (fun s call => s.proper call ∧ s.countable call) (start : PoolCalls α) tr s) :
    (∀ x i, s.live x → s.has x i → s.pool.portUsed i = true) ∧
    (∀ x, s.pool.madeUsed x = true ↔ s.live x) ∧
    s.pool.queues = (Finset.univ.filter fun x => s.pool.madeUsed x = true).card ∧
    s.pool.ports = (Finset.univ.filter fun i => s.pool.portUsed i = true).card ∧
    (∀ i, tr.count (.opened i) = tr.count (.given i) + (s.pool.portUsed i).toNat ∧
      tr.count (.stopped i) = tr.count (.given i)) ∧
    ∀ call, s.proper call → ∃ t ev, step s call = some (t, ev) ∧ CallKept s call t ev := by
  have kept : PoolKept tr s := by
    refine run.invariant (P := PoolKept) poolKept_start ?_
    intro tr s call t ev kept ok hstep
    obtain ⟨t', ev', hstep', callStep⟩ := kept.callStep ok.1
    obtain ⟨rfl, rfl⟩ := Prod.mk.inj (Option.some.inj (hstep'.symm.trans hstep))
    exact kept.step ok.1 ok.2 callStep
  refine ⟨?_, kept.used, ?_, ?_, ?_, ?_⟩
  · intro x i live hhas
    exact kept.ports.portUsed_of_holds (kept.holds_iff.mpr ⟨live, hhas⟩)
  · rw [kept.ports.queues, card_used]
  · rw [kept.ports.ports, card_used]
  · exact fun i => ⟨kept.opened i, kept.stopped i⟩
  · intro call proper
    obtain ⟨t, ev, hstep, callStep⟩ := kept.callStep proper
    exact ⟨t, ev, hstep, kept.callKept proper callStep⟩

instance (s : PoolCalls α) (x : QueueId) : Decidable (s.live x) :=
  inferInstanceAs (Decidable (0 < s.references x))

instance (s : PoolCalls α) (x : QueueId) (i : PortId) : Decidable (s.has x i) :=
  decidable_of_iff ((s.pool.made x).work = some i ∨ (s.pool.made x).completion = some i) <| by
    constructor
    · rintro (h | h)
      · exact ⟨.work, h⟩
      · exact ⟨.completion, h⟩
    · rintro ⟨r, h⟩
      cases r with
      | work => exact .inl h
      | completion => exact .inr h

instance (s : PoolCalls α) (call : PoolCall) : Decidable (s.proper call) :=
  match call with
  | .create _ _ => isTrue trivial
  | .createComposite w c =>
    inferInstanceAs (Decidable (∀ i, w = some i ∨ c = some i → ∃ x, s.live x ∧ s.has x i))
  | .duplicate x => inferInstanceAs (Decidable (s.live x))
  | .close x => inferInstanceAs (Decidable (s.live x))

instance (s : PoolCalls α) (call : PoolCall) : Decidable (s.countable call) :=
  match call with
  | .create _ _ => isTrue trivial
  | .createComposite _ _ => isTrue trivial
  | .duplicate x => inferInstanceAs (Decidable (s.references x + 1 < 2 ^ 32))
  | .close _ => isTrue trivial

/-- A composite that borrows one port twice and outlives the owner. -/
def borrowTwice : List PoolCall :=
  [.create .manual .manual, .createComposite (some 0) (some 0), .close 0]

theorem borrowTwice_trace : (execute step (start : PoolCalls Unit) borrowTwice).map Prod.snd =
    some [.created 0, .opened 0, .opened 1, .created 1, .stopped 1, .given 1] := by
  decide +kernel

theorem pool_accounts_borrowed : ∃ (tr : List PoolEvent) (s : PoolCalls Unit),
    tr = [.created 0, .opened 0, .opened 1, .created 1, .stopped 1, .given 1] ∧
    (∀ x i, s.live x → s.has x i → s.pool.portUsed i = true) ∧
    ∀ i, tr.count (.opened i) = tr.count (.given i) + (s.pool.portUsed i).toNat := by
  obtain ⟨⟨s, tr⟩, hrun, rfl⟩ := Option.map_eq_some_iff.mp borrowTwice_trace
  have kept := pool_accounts (reaches_of_execute _ hrun (by decide +kernel))
  exact ⟨_, s, rfl, kept.1, fun i => (kept.2.2.2.2.1 i).1⟩

def one : QueuePool Unit := ((start : PoolCalls Unit).pool.createQueue .manual .manual).2

/-- One queue, and so many handles of it besides the first. -/
def duplicated (n : ℕ) : PoolCalls Unit where
  pool := { one with
    made := Function.update one.made 0 { one.made 0 with references := (1 + n) % 2 ^ 32 } }
  references := Function.update (fun _ => 0) 0 (1 + n)

theorem duplicated_pool {n : ℕ} (h : (1 + n) % 2 ^ 32 = 1) : (duplicated n).pool = one := by
  have hone : (one.made 0).references = 1 := by decide +kernel
  have hmade : Function.update one.made 0 { one.made 0 with references := 1 } = one.made := by
    rw [← hone, Function.update_eq_self]
  simp only [duplicated, h, hmade]

theorem duplicated_step (n : ℕ) :
    step (duplicated n) (.duplicate 0) = some (duplicated (n + 1), []) := by
  have hreferences : ((1 + n) % 2 ^ 32 + 1) % 2 ^ 32 = (1 + (n + 1)) % 2 ^ 32 := by omega
  simp only [step, duplicated, QueuePool.duplicate, Function.update_self, Function.update_idem,
    hreferences, Nat.add_assoc]

theorem duplicated_start : step (start : PoolCalls Unit) (.create .manual .manual) =
    some (duplicated 0, [.created 0, .opened 0, .opened 1]) := by
  have hcreate : (start : PoolCalls Unit).pool.createQueue .manual .manual = (some 0, one) := by
    rw [Prod.ext_iff]
    exact ⟨by decide +kernel, rfl⟩
  have hwork : (one.made 0).work = some 0 := by decide +kernel
  have hcompletion : (one.made 0).completion = some 1 := by decide +kernel
  have hstate : duplicated 0 = ⟨one, Function.update (fun _ => 0) 0 1⟩ := by
    rw [← duplicated_pool (n := 0) rfl]
    rfl
  simp only [step, hcreate, made, hwork, hcompletion, hstate]
  rfl

theorem reaches_duplicated (n : ℕ) : Reaches step (fun s call => s.proper call)
    (start : PoolCalls Unit) [.created 0, .opened 0, .opened 1] (duplicated n) := by
  induction n with
  | zero =>
    have hproper : (start : PoolCalls Unit).proper (.create .manual .manual) := trivial
    exact .next .start hproper duplicated_start
  | succ n ih =>
    have hlive : (duplicated n).proper (.duplicate 0) := by
      simp [proper, live, duplicated]
    simpa using ih.next hlive (duplicated_step n)

/-- With 2^32 handles besides the first the count is one again: closing one handle gives the ports
back while the queue has all the others. -/
theorem count_wraps : ∃ (tr : List PoolEvent) (s t : PoolCalls Unit) (ev : List PoolEvent),
    Reaches step (fun s call => s.proper call) start tr s ∧ s.proper (.close 0) ∧
    step s (.close 0) = some (t, ev) ∧ .given 0 ∈ ev ∧ t.references 0 = 2 ^ 32 ∧ t.has 0 0 := by
  have hpool := duplicated_pool (n := 2 ^ 32) (by decide)
  have hlast : ((one.close 0).made 0).references = 0 := by decide +kernel
  have hevents : ((one.close 0).release 0).map Prod.snd =
      some [.stopped 0, .stopped 1, .given 0, .given 1] := by decide +kernel
  obtain ⟨⟨p, ev⟩, hrelease, rfl⟩ := Option.map_eq_some_iff.mp hevents
  have hp : (p.made 0).work = some 0 := by
    have hwork : ((one.close 0).release 0).map (fun r => (r.1.made 0).work) = some (some 0) := by
      decide +kernel
    rw [hrelease] at hwork
    exact Option.some.inj hwork
  have hstep : step (duplicated (2 ^ 32)) (.close 0) =
      some (⟨p, Function.update (duplicated (2 ^ 32)).references 0
        ((duplicated (2 ^ 32)).references 0 - 1)⟩, [.stopped 0, .stopped 1, .given 0, .given 1]) := by
    simp only [step, hpool]
    rw [if_pos hlast, hrelease]
    rfl
  have hproper : (duplicated (2 ^ 32)).proper (.close 0) := by simp [proper, live, duplicated]
  exact ⟨_, _, _, _, reaches_duplicated (2 ^ 32), hproper, hstep, by simp, by simp [duplicated],
    .work, hp⟩

end PoolCalls

end IW4x.Gdk
