import IW4x.Gdk.QueueSteps

/-!
# The holders of the ports, with any number of threads

Between its two critical sections `release_queue` stops the ports that nobody holds any more; they
stay in use until it gives them back. As long as composite queues are created of ports that some
queue in use holds, the pool's flags and counts stay true in every run.
-/

namespace IW4x.Gdk

open Runs QueuePool

/-- How often the activation is going to give the port back. -/
def QueueFrame.giving (i : PortId) : QueueFrame → ℕ
  | .givePorts _ _ done => portCount done.1 done.2 i
  | _ => 0

theorem giving_of_light {f : QueueFrame} (light : f.light = true) (i : PortId) :
    f.giving i = 0 := by
  cases f <;> first | rfl | cases light

namespace QueueMemory

def held (m : QueueMemory) (i : PortId) : Bool :=
  (List.finRange 64).any fun x => m.pool.madeUsed x &&
    ((m.pool.made x).work = some i || (m.pool.made x).completion = some i)

theorem held_iff {m : QueueMemory} {pending : PortId → ℕ} (kept : m.pool.PortsKept pending)
    (i : PortId) : m.held i = true ↔ 0 < m.pool.holders i := by
  rw [kept.holders_pos]
  simp only [held, List.any_eq_true, List.mem_finRange, true_and, Bool.and_eq_true,
    Bool.or_eq_true, decide_eq_true_eq]
  refine exists_congr fun x => ?_
  rw [kept.holds_port]
  refine and_congr_right fun _ => ?_
  constructor
  · rintro (h | h)
    · exact ⟨.work, h⟩
    · exact ⟨.completion, h⟩
  · rintro ⟨r, h⟩
    cases r with
    | work => exact .inl h
    | completion => exact .inr h

theorem light_giving {frames : List QueueFrame} (light : ∀ f ∈ frames, f.light = true)
    (i : PortId) : Stacks.weight (QueueFrame.giving i) frames = 0 :=
  (Stacks.weight_eq_zero_iff _ _).mpr fun f hf => giving_of_light (light f hf) i

theorem Ran.giving {m : QueueMemory} {n : Ticket} {canceled : Bool} {mv : QueueMove}
    (ran : Ran m n canceled mv) (i : PortId) :
    Stacks.weight (QueueFrame.giving i) mv.new = 0 := by
  rcases ran.new with ⟨-, h⟩ | ⟨-, h⟩ | ⟨k, -, h⟩ | ⟨k, -, h⟩ <;> simp [h, QueueFrame.giving]

/-- A move that changes nothing of the holders, and nothing of what is to be given back. -/
structure Aside (m : QueueMemory) (old : List QueueFrame) (mv : QueueMove) : Prop where
  holders : SameHolders m.pool mv.memory.pool
  new : ∀ i, Stacks.weight (QueueFrame.giving i) mv.new = 0
  old : ∀ i, Stacks.weight (QueueFrame.giving i) old = 0
  spawned : mv.spawned = []

theorem SameBut.holders {m n : QueueMemory} (same : SameBut m n) : SameHolders m.pool n.pool :=
  same.pool ▸ .refl _

theorem sent_aside {m m' : QueueMemory} {e : QueueEnv} {p : PortId} {delay : ℕ} {j : Job}
    {old rest instead : List QueueFrame} {undo : QueueMemory → QueueMemory}
    {ev : List QueueEvent} {mv : QueueMove} (sends : Sends m old m' j rest undo instead ev)
    (sent : Sent m' e p delay j rest undo instead ev mv) : Aside m old mv := by
  have hold : ∀ i, Stacks.weight (QueueFrame.giving i) old = 0 := by
    intro i
    cases sends <;> simp [QueueFrame.giving]
  have hrest : ∀ i, Stacks.weight (QueueFrame.giving i) rest = 0 := by
    intro i
    cases sends <;> simp [QueueFrame.giving]
  have hinstead : ∀ i, Stacks.weight (QueueFrame.giving i) instead = 0 := by
    intro i
    cases sends <;> simp [QueueFrame.giving]
  have hpool := sends.base.pool
  cases sent with
  | unallocated _ =>
    refine ⟨?_, hinstead, hold, rfl⟩
    rw [(sends.undone _).pool, hpool]
    exact .refl _
  | refused _ _ =>
    refine ⟨?_, hinstead, hold, rfl⟩
    rw [(sends.undone _).pool, hpool]
    exact .refl _
  | @accepted t _ _ =>
    refine ⟨?_, hrest, hold, rfl⟩
    rw [hpool]
    exact m.pool.setPort_holders p t
  | immediate _ _ ran =>
    refine ⟨?_, ?_, hold, rfl⟩
    · rw [ran.pool, hpool]
      exact .refl _
    · intro i
      rw [Stacks.weight_append, ran.giving, hrest]

theorem dispatched_aside {m : QueueMemory} {p : PortId} {rest : List QueueFrame} {mv : QueueMove}
    (loop : ∀ i, Stacks.weight (QueueFrame.giving i) rest = 0)
    (dispatched : Dispatched m p rest mv) : Aside m rest mv := by
  cases dispatched with
  | idle _ => exact ⟨.refl _, by simp, loop, rfl⟩
  | @took t mv took ran =>
    refine ⟨?_, ?_, loop, rfl⟩
    · rw [ran.pool]
      exact m.pool.setPort_holders p t.port
    · intro i
      rw [Stacks.weight_append, ran.giving, loop]

theorem finish_aside (m : QueueMemory) (k : ℕ) : Aside m [.finish k] (m.finish k) := by
  have hresolve : ∀ u q i, Stacks.weight (QueueFrame.giving i) (resolve u q) = 0 :=
    fun u q i => light_giving (resolve_light u q) i
  unfold QueueMemory.finish
  split_ifs
  · exact ⟨.refl _, hresolve _ _, by simp [QueueFrame.giving], rfl⟩
  · exact ⟨.refl _, by simp, by simp [QueueFrame.giving], rfl⟩
  · exact ⟨.refl _, by simp, by simp [QueueFrame.giving], rfl⟩

theorem release_giving (m : QueueMemory) (q : QueueId) (i : PortId) :
    Stacks.weight (QueueFrame.giving i) (m.release q).new =
      portCount (m.pool.releaseQueue q).1.1 (m.pool.releaseQueue q).1.2 i := by
  have hstops : ∀ a : Option PortId,
      Stacks.weight (QueueFrame.giving i) (a.toList.map .stopPort) = 0 := by
    intro a
    cases a <;> simp [QueueFrame.giving]
  simp only [QueueMemory.release, Stacks.weight_append, hstops, Nat.zero_add]
  split_ifs with h
  · simp [QueueFrame.giving]
  · simp only [not_or, Bool.not_eq_true, Option.isSome_eq_false_iff, Option.isNone_iff_eq_none] at h
    simp [h.1, h.2, portCount]

/-- What a step does to the holders of the ports. -/
inductive PoolMoved (m : QueueMemory) : QueueChoice → List QueueFrame → QueueMove → Prop
  | aside {ch old mv} (aside : Aside m old mv) : PoolMoved m ch old mv
  | opens {ch old x wi ci mv} (owns : OwnsPorts m.pool mv.memory.pool x wi ci)
      (new : ∀ i, Stacks.weight (QueueFrame.giving i) mv.new = 0)
      (before : ∀ i, Stacks.weight (QueueFrame.giving i) old = 0) : PoolMoved m ch old mv
  | composes {x w c mv} (borrows : BorrowsPorts m.pool mv.memory.pool x (some w) (some c))
      (new : mv.new = []) : PoolMoved m (.call (.createComposite w c)) [] mv
  | release {q} : PoolMoved m .go [.release q] (m.release q)
  | givePorts {q was done events} : PoolMoved m .go [.givePorts q was done]
      ⟨m.withPool (m.pool.givePorts done), [], events, []⟩

theorem Moved.pool {m : QueueMemory} {e : QueueEnv} {threads : List (List QueueFrame)}
    {ch : QueueChoice} {old : List QueueFrame} {mv : QueueMove}
    (moved : Moved m e threads ch old mv) : PoolMoved m ch old mv := by
  cases moved with
  | plain plain =>
    exact .aside ⟨plain.holders, light_giving plain.frames, light_giving plain.before,
      plain.spawned⟩
  | opens opens frames =>
    rcases frames with ⟨rfl, hnew⟩ | ⟨u, rfl, hnew⟩
    · exact .opens opens.owns (by simp [hnew]) (by simp)
    · exact .opens opens.owns (by simp [hnew, QueueFrame.giving]) (by simp [QueueFrame.giving])
  | composes composes => exact .composes composes.borrows composes.new
  | sends sends => exact .aside (sent_aside sends (send_sent _ _ _ _ _ _ _ _ _))
  | dispatches loop =>
    refine .aside (dispatched_aside ?_ (dispatch_dispatched _ _ _))
    intro i
    cases loop <;> simp [QueueFrame.giving]
  | @finish k => exact .aside (m.finish_aside k)
  | again _ _ _ => exact .aside ⟨.refl _, by simp, by simp, rfl⟩
  | @quits q w c wait _ _ _ =>
    exact .aside ⟨(m.pool.markTerminated_holders q).trans (setPort_holders _ w _),
      by simp [QueueFrame.giving], by simp, rfl⟩
  | @terminates q w c wait _ _ _ =>
    exact .aside ⟨(m.pool.markTerminated_holders q).trans (setPort_holders _ w _),
      by simp [QueueFrame.giving], by simp, rfl⟩
  | @terminatePort q w c wait =>
    refine .aside ⟨m.pool.setPort_holders c _, ?_, by simp [QueueFrame.giving], rfl⟩
    intro i
    cases wait <;> simp [QueueFrame.giving]
  | terminated => exact .aside ⟨.refl _, by simp, by simp [QueueFrame.giving], rfl⟩
  | stops =>
    refine .aside ⟨.refl _, ?_, by simp, rfl⟩
    intro i
    rw [Stacks.weight_eq_zero_iff]
    simp [QueueFrame.giving]
  | @stopPort p =>
    exact .aside ⟨m.pool.setPort_holders p _, by simp [QueueFrame.giving],
      by simp [QueueFrame.giving], rfl⟩
  | join _ _ =>
    exact .aside ⟨.refl _, by simp [QueueFrame.giving], by simp [QueueFrame.giving], rfl⟩
  | joined =>
    exact .aside ⟨.refl _, by simp [QueueFrame.giving], by simp [QueueFrame.giving], rfl⟩
  | release => exact .release
  | givePorts _ => exact .givePorts
  | inside leaves =>
    refine .aside ⟨.refl _, ?_, by simp [QueueFrame.giving], rfl⟩
    intro i
    rcases leaves with h | ⟨k, -, h⟩ <;> simp [h, QueueFrame.giving]
  | announces _ =>
    unfold QueueMemory.announce
    split_ifs <;>
      exact .aside ⟨.refl _, by simp [QueueFrame.giving], by simp [QueueFrame.giving], rfl⟩
  | returning => exact .aside ⟨.refl _, by simp, by simp [QueueFrame.giving], rfl⟩
  | waits => exact .aside ⟨.refl _, by simp [QueueFrame.giving], by simp [QueueFrame.giving], rfl⟩
  | ends _ =>
    exact .aside ⟨.refl _, by simp [QueueFrame.giving], by simp [QueueFrame.giving], rfl⟩

/-- Every step of a thread keeps the flags and counts of the pool true, if a composite queue is
created of ports that a queue in use has. -/
theorem PoolMoved.ports {m : QueueMemory} {ch : QueueChoice} {old : List QueueFrame}
    {mv : QueueMove} {before after : PortId → ℕ} (moved : PoolMoved m ch old mv)
    (kept : m.pool.PortsKept before)
    (live : ∀ w c, ch = .call (.createComposite w c) → m.held w = true ∧ m.held c = true)
    (hafter : ∀ i, after i + Stacks.weight (QueueFrame.giving i) old =
      before i + Stacks.weight (QueueFrame.giving i) mv.new) : mv.memory.pool.PortsKept after := by
  have same : (∀ i, Stacks.weight (QueueFrame.giving i) old = 0) →
      (∀ i, Stacks.weight (QueueFrame.giving i) mv.new = 0) → after = before := by
    intro hold hnew
    funext i
    have h := hafter i
    rw [hold, hnew] at h
    exact h
  cases moved with
  | aside aside =>
    obtain rfl := same aside.old aside.new
    exact kept.congr aside.holders
  | opens owns new before =>
    obtain rfl := same before new
    exact kept.opened owns
  | @composes q w c mv borrows new =>
    obtain rfl := same (by simp) (by simp [new])
    obtain ⟨hw, hc⟩ := live w c rfl
    refine kept.borrowed borrows ?_
    rintro i (hi | hi)
    · obtain rfl := Option.some.inj hi
      exact (held_iff kept w).mp hw
    · obtain rfl := Option.some.inj hi
      exact (held_iff kept c).mp hc
  | @release q =>
    have hpending : ∀ i, after i = before i +
        portCount (m.pool.releaseQueue q).1.1 (m.pool.releaseQueue q).1.2 i := by
      intro i
      have h := hafter i
      rw [release_giving] at h
      simpa [QueueFrame.giving] using h
    by_cases hused : m.pool.madeUsed q = true
    · exact kept.released hused (kept.releaseQueue hused) hpending
    · have hnone : m.pool.releaseQueue q = ((none, none), m.pool) := by
        simp [QueuePool.releaseQueue, hused]
      obtain rfl : after = before := by
        funext i
        rw [hpending, hnone]
        simp [portCount]
      change (m.pool.releaseQueue q).2.PortsKept after
      rw [hnone]
      exact kept
  | @givePorts q was done events =>
    change (m.pool.givePorts done).PortsKept after
    refine kept.givePorts fun i => ?_
    simpa [QueueFrame.giving] using hafter i

/-- A queue in use stays in use, with its ports, until it is released. -/
theorem PoolMoved.stays {m : QueueMemory} {ch : QueueChoice} {old : List QueueFrame}
    {mv : QueueMove} (moved : PoolMoved m ch old mv) {q : QueueId}
    (used : m.pool.madeUsed q = true) (unreleased : old ≠ [.release q]) :
    mv.memory.pool.madeUsed q = true ∧
      ∀ r, (mv.memory.pool.made q).port r = (m.pool.made q).port r := by
  have other : ∀ {x}, m.pool.madeUsed x = false → q ≠ x := by
    rintro x free rfl
    simp [free] at used
  cases moved with
  | aside aside =>
    rw [aside.holders.used]
    exact ⟨used, aside.holders.names q⟩
  | opens owns _ _ =>
    have hq := other owns.free
    rw [owns.used, owns.made, Function.update_of_ne hq, Function.update_of_ne hq]
    exact ⟨used, fun _ => rfl⟩
  | composes borrows _ =>
    have hq := other borrows.free
    rw [borrows.used, borrows.made, Function.update_of_ne hq, Function.update_of_ne hq]
    exact ⟨used, fun _ => rfl⟩
  | @release x =>
    have hq : q ≠ x := by
      rintro rfl
      exact unreleased rfl
    change (m.pool.releaseQueue x).2.madeUsed q = true ∧
      ∀ r, ((m.pool.releaseQueue x).2.made q).port r = _
    rw [(m.pool.releaseQueue_used x).1, (m.pool.releaseQueue_alike x).made, Function.update_of_ne hq]
    exact ⟨used, fun _ => rfl⟩
  | @givePorts x was done events =>
    change (m.pool.givePorts done).madeUsed q = true ∧
      ∀ r, ((m.pool.givePorts done).made q).port r = _
    rw [(m.pool.givePorts_objects done).used, (m.pool.givePorts_alike done).made]
    exact ⟨used, fun _ => rfl⟩

end QueueMemory

namespace QueueThreads

variable {tr : List QueueEvent} {s t : QueueThreads} {i : ℕ} {e : QueueEnv} {c : QueueChoice}
  {ev : List QueueEvent}

/-- The flags and counts of the pool are true. -/
def PoolKept (s : QueueThreads) : Prop :=
  s.memory.pool.PortsKept fun i => Stacks.total (QueueFrame.giving i) s.threads

def portsLive (s : QueueThreads) (input : ℕ × QueueEnv × QueueChoice) : Bool :=
  match input.2.2 with
  | .call (.createComposite w c) => s.memory.held w && s.memory.held c
  | _ => true

theorem poolKept_start (threads : ℕ) : PoolKept (start threads) := by
  have h : (start threads).memory.pool.PortsKept fun _ => 0 := portsKept_empty
  simpa [PoolKept, start] using h

theorem PoolKept.step (kept : PoolKept s) (live : portsLive s (i, e, c) = true)
    (h : step s (i, e, c) = some (t, ev)) : PoolKept t := by
  obtain ⟨old, rest, mv, hstack, acts, rfl, rfl⟩ := step_cases h
  have moved := moved_of_acts acts
  refine moved.pool.ports kept ?_ ?_
  · rintro w c' rfl
    exact Bool.and_eq_true_iff.mp live
  · intro j
    exact total_acts hstack moved fun _ => rfl

end QueueThreads

end IW4x.Gdk
