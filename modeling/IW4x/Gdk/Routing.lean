import IW4x.Gdk.Retirement

/-!
# Where the tasks of an operation run

The slot keeps the queue that was in effect when its operation was begun. `schedule` takes that
queue; `finish` asks the block, or the process queue of the moment, a second time. As long as both
come to the queue that was recorded, and nobody has released it, every task of the operation is
dispatched from a port of that queue.
-/

namespace IW4x.Gdk

open Runs

variable {Op : Type}

/-- The port, of the two of the operation's queue, that the task belongs to. -/
def Work.home : Work → Option PortId × Option PortId → Option PortId
  | .perform, ps => ps.1
  | .doWork, ps => ps.1
  | .announce, ps => ps.2

def TaskQueue.pair (q : TaskQueue) : Option PortId × Option PortId := (q.work, q.completion)

/-- The queue that `resolve` comes to, where it has to create none. -/
def QueuePool.inEffect {α : Type} (p : QueuePool α) (q : Option QueueId) : Option QueueId :=
  q.or (p.current.or p.fallback)

/-- The queue recorded for the operation of slot `r` was not released since. -/
def Memory.keepsQueue (m : Memory Op) (r : SlotId) : Bool :=
  (m.slots r).queue.any fun q =>
    m.queues.madeUsed q && m.queues.generation q == (m.slots r).generation

/-- A task that the activation is about to submit goes to the queue recorded for its operation. -/
def Frame.sendsHome (m : Memory Op) : Frame → Bool
  | .publish r a _ => (m.blocks a).callback.isNone ||
      m.keepsQueue r && decide (m.queues.inEffect (m.blocks a).queue = (m.slots r).queue)
  | .found _ (.schedule _) r => (m.slots r).provider.isNone || m.keepsQueue r
  | _ => true

/-- What the tasks of the operations and the events tell of ports. -/
structure Routed (tr : List Event) (m : Memory Op) : Prop where
  home : ∀ r q, (m.slots r).queue = some q → (m.slots r).generation ≤ m.queues.generation q ∧
    (m.queues.generation q = (m.slots r).generation →
      (m.slots r).ports = (m.queues.made q).pair)
  begun : ∀ r : SlotId, (r : ℕ) < m.used →
    ∃ b provided, .begun (m.serial r) b provided (m.slots r).ports ∈ tr
  queued : ∀ p r f, .held r f ∈ (m.queues.owned p).callbacks →
    f.home (m.slots r).ports = some p
  ran : ∀ k f p, .ran k f p ∈ tr →
    ∃ b provided ps, .begun k b provided ps ∈ tr ∧ f.home ps = some p

theorem SameLabels.all {m n : Memory Op} (labels : SameLabels m n) (r : SlotId) :
    n.serial r = m.serial r ∧ (n.slots r).queue = (m.slots r).queue ∧
      (n.slots r).generation = (m.slots r).generation ∧ (n.slots r).ports = (m.slots r).ports := by
  simpa [AsyncState.label, Memory.serial] using labels.label r

theorem Managed.pair {p q : QueuePool Task} (managed : Managed p q) {i : QueueId}
    (same : q.generation i = p.generation i) : (q.made i).pair = (p.made i).pair := by
  have hwork := managed.ports i same .work
  have hcompletion := managed.ports i same .completion
  simp only [TaskQueue.port] at hwork hcompletion
  simp only [TaskQueue.pair, hwork, hcompletion]

/-- Where a queue is in effect, `resolve` comes to it and creates none. -/
theorem QueuePool.resolve_inEffect {p p' : QueuePool Task} {named : Option QueueId} {x y : QueueId}
    (h : p.resolve named = some (x, p')) (known : p.inEffect named = some y) :
    x = y ∧ p'.made = p.made := by
  cases named with
  | some q =>
    cases h
    simp only [inEffect, Option.some_or, Option.some.injEq] at known
    exact ⟨known, rfl⟩
  | none =>
    simp only [resolve, processQueue] at h
    simp only [inEffect, Option.none_or] at known
    split at h
    · rename_i q hcurrent
      cases h
      simp only [hcurrent, Option.some_or, Option.some.injEq] at known
      exact ⟨known, rfl⟩
    · rename_i hcurrent
      simp only [hcurrent, Option.none_or] at known
      rw [known] at h
      cases h
      exact ⟨rfl, rfl⟩

/-- What a step means for the tasks of the operations, where no slot is handed out. -/
inductive RouteEffect (m : Memory Op) : Memory Op → List Event → Prop
  | quiet {n ev} (labels : SameLabels m n) (managed : Managed m.queues n.queues)
      (silent : ∀ k f p, .ran k f p ∉ ev) : RouteEffect m n ev
  | takes {p now t} (taken : (m.queues.owned p).take now = some t) :
      RouteEffect m (m.withQueues (m.queues.setPort p t.port)) (m.ranEvents p t.item.callback)
  | sends {qs r alloc now p delay f n} (managed : Managed m.queues qs)
      (home : f.home (m.slots r).ports = some p)
      (sent : (m.withQueues qs).submit alloc now r p delay f = .accepted n) :
      RouteEffect m n [.queued (m.serial r) f p]
  | starts {qs alloc now p delay f n} {r : SlotId} (managed : Managed m.queues qs)
      (used : (r : ℕ) < m.used) (home : f.home (m.slots r).ports = some p)
      (sent : (m.withQueues qs).submit alloc now r p delay f = .immediate n) :
      RouteEffect m n [.queued (m.serial r) f p, .ran (m.serial r) f p]

/-- The same, or a slot is handed out first. -/
inductive RouteStep (m : Memory Op) : Memory Op → List Event → Prop
  | same {n ev} (effect : RouteEffect m n ev) : RouteStep m n ev
  | began {a q r n₀ id o provider context n provided ev}
      (began : Began m a q r n₀ id o provider context) (effect : RouteEffect n₀ n ev) :
      RouteStep m n (.begun (n₀.serial r) a provided (n₀.slots r).ports :: ev)

namespace Routed

variable {tr ev : List Event} {m n : Memory Op}

/-- A step that tells of no task: tasks stay where they are, or leave. -/
theorem quiet (routed : Routed tr m) (labels : SameLabels m n)
    (managed : Managed m.queues n.queues) (silent : ∀ k f p, .ran k f p ∉ ev) :
    Routed (tr ++ ev) n := by
  constructor
  · intro r q hq
    obtain ⟨-, hqueue, hgeneration, hports⟩ := labels.all r
    obtain ⟨hle, hsame⟩ := routed.home r q (hqueue ▸ hq)
    have hgrown := managed.generation q
    rw [hgeneration, hports]
    refine ⟨hle.trans hgrown, ?_⟩
    intro heq
    rw [hsame (by omega), managed.pair (by omega)]
  · intro r hr
    obtain ⟨b, provided, hbegun⟩ := routed.begun r (labels.used ▸ hr)
    rw [(labels.all r).1, (labels.all r).2.2.2]
    exact ⟨b, provided, List.mem_append_left _ hbegun⟩
  · intro p r f hmem
    rw [(labels.all r).2.2.2]
    exact routed.queued p r f (managed.tasks p r f hmem)
  · intro k f p hran
    obtain ⟨b, provided, ps, hbegun, hhome⟩ :=
      routed.ran k f p ((List.mem_append.mp hran).resolve_right (silent k f p))
    exact ⟨b, provided, ps, List.mem_append_left _ hbegun, hhome⟩

/-- A task leaves its port to be run. -/
theorem takes (routed : Routed tr m) {p : PortId} {now : ℕ} {t : TaskPort.Taken Task}
    (taken : (m.queues.owned p).take now = some t)
    (used : ∀ p (r : SlotId) f, .held r f ∈ (m.queues.owned p).callbacks → (r : ℕ) < m.used) :
    Routed (tr ++ m.ranEvents p t.item.callback)
      (m.withQueues (m.queues.setPort p t.port)) := by
  obtain ⟨hperm, -⟩ := TaskPort.take_spec taken
  constructor
  · exact routed.home
  · intro r hr
    obtain ⟨b, provided, hbegun⟩ := routed.begun r hr
    exact ⟨b, provided, List.mem_append_left _ hbegun⟩
  · intro p' r f hmem
    by_cases hp : p' = p
    · subst hp
      apply routed.queued p' r f
      rw [hperm.mem_iff]
      simpa using List.mem_cons_of_mem _ hmem
    · exact routed.queued p' r f (by simpa [hp] using hmem)
  · intro k f p' hran
    rcases List.mem_append.mp hran with hran | hran
    · obtain ⟨b, provided, ps, hbegun, hhome⟩ := routed.ran k f p' hran
      exact ⟨b, provided, ps, List.mem_append_left _ hbegun, hhome⟩
    · cases htask : t.item.callback with
      | callback x => simp [htask, Memory.ranEvents] at hran
      | held r f' =>
        simp only [htask, Memory.ranEvents, List.mem_singleton, Event.ran.injEq] at hran
        obtain ⟨rfl, rfl, rfl⟩ := hran
        have hmem : .held r f ∈ (m.queues.owned p').callbacks := by
          rw [hperm.mem_iff, htask]
          exact List.mem_cons_self
        obtain ⟨b, provided, hbegun⟩ := routed.begun r (used p' r f hmem)
        exact ⟨b, provided, _, List.mem_append_left _ hbegun, routed.queued p' r f hmem⟩

/-- A port accepts a task whose operation is at home there. -/
theorem sends (routed : Routed tr m) {qs : QueuePool Task} {r : SlotId} {alloc : Bool}
    {now delay : ℕ} {p : PortId} {f : Work} (managed : Managed m.queues qs)
    (home : f.home (m.slots r).ports = some p)
    (sent : (m.withQueues qs).submit alloc now r p delay f = .accepted n) :
    Routed (tr ++ [.queued (m.serial r) f p]) n := by
  have hmanaged : Routed (tr ++ [.queued (m.serial r) f p]) (m.withQueues qs) :=
    routed.quiet (sameLabels_withQueues _ _) managed (by simp)
  obtain ⟨hlabels, -⟩ := sameLabels_submit sent
  obtain ⟨t, haccepted, rfl, -⟩ := Memory.submit_accepted sent
  obtain ⟨hcallbacks, -⟩ := TaskPort.submit_accepted haccepted
  constructor
  · intro x q hq
    rw [(hlabels.all x).2.1] at hq
    rw [(hlabels.all x).2.2.1, (hlabels.all x).2.2.2]
    exact hmanaged.home x q hq
  · intro x hx
    rw [(hlabels.all x).1, (hlabels.all x).2.2.2]
    exact hmanaged.begun x hx
  · intro p' x f' hmem
    rw [(hlabels.all x).2.2.2]
    by_cases hp : p' = p
    · subst hp
      simp only [Memory.withQueues_queues, QueuePool.setPort_owned, Function.update_self,
        hcallbacks, List.mem_append, List.mem_singleton, Task.held.injEq] at hmem
      rcases hmem with hmem | ⟨rfl, rfl⟩
      · exact hmanaged.queued p' x f' hmem
      · exact home
    · exact hmanaged.queued p' x f' (by simpa [hp] using hmem)
  · exact hmanaged.ran

/-- An immediate port runs a task whose operation is at home there. -/
theorem starts (routed : Routed tr m) {qs : QueuePool Task} {r : SlotId} {alloc : Bool}
    {now delay : ℕ} {p : PortId} {f : Work} (managed : Managed m.queues qs)
    (used : (r : ℕ) < m.used) (home : f.home (m.slots r).ports = some p)
    (sent : (m.withQueues qs).submit alloc now r p delay f = .immediate n) :
    Routed (tr ++ [.queued (m.serial r) f p, .ran (m.serial r) f p]) n := by
  obtain ⟨hlabels, -⟩ := sameLabels_immediate sent
  obtain ⟨rfl, -⟩ := Memory.submit_immediate sent
  have hsame : SameLabels m ((m.withQueues qs).hold r) :=
    (sameLabels_withQueues m qs).trans hlabels
  have hquiet : Routed (tr ++ [.queued (m.serial r) f p]) ((m.withQueues qs).hold r) :=
    routed.quiet hsame managed (by simp)
  refine ⟨hquiet.home, ?_, hquiet.queued, ?_⟩
  · intro x hx
    obtain ⟨b, provided, hbegun⟩ := hquiet.begun x hx
    refine ⟨b, provided, ?_⟩
    rw [List.append_cons]
    exact List.mem_append_left _ hbegun
  · intro k f' p' hran
    rw [List.append_cons] at hran ⊢
    rcases List.mem_append.mp hran with hran | hran
    · obtain ⟨b, provided, ps, hbegun, hhome⟩ := hquiet.ran k f' p' hran
      exact ⟨b, provided, ps, List.mem_append_left _ hbegun, hhome⟩
    · simp only [List.mem_singleton, Event.ran.injEq] at hran
      obtain ⟨rfl, rfl, rfl⟩ := hran
      obtain ⟨b, provided, hbegun⟩ := routed.begun r used
      refine ⟨b, provided, _, ?_, home⟩
      exact List.mem_append_left _ (List.mem_append_left _ hbegun)

theorem effect (routed : Routed tr m)
    (used : ∀ p (r : SlotId) f, .held r f ∈ (m.queues.owned p).callbacks → (r : ℕ) < m.used)
    (effect : RouteEffect m n ev) : Routed (tr ++ ev) n := by
  cases effect with
  | quiet labels managed silent => exact routed.quiet labels managed silent
  | takes taken => exact routed.takes taken used
  | sends managed home sent => exact routed.sends managed home sent
  | starts managed hr home sent => exact routed.starts managed hr home sent

/-- A slot is handed out, with the queue of the moment; none of its tasks is in a port. -/
theorem handOut (routed : Routed tr m) {a : BlockId} {q : QueueId} {r : SlotId} {id : Option ℕ}
    {o : Option Op} {provider : Option ℕ} {context : ℕ}
    (began : Began m a q r n id o provider context) (fresh : Sound.Fresh m r n)
    (idle : ∀ p f, .held r f ∉ (m.queues.owned p).callbacks) (provided : Bool) :
    Routed (tr ++ [.begun (n.serial r) a provided (n.slots r).ports]) n := by
  have hslot : (n.slots r).queue = some q ∧ (n.slots r).generation = n.queues.generation q ∧
      (n.slots r).ports = (n.queues.made q).pair ∧ Managed m.queues n.queues := by
    obtain ⟨qs, acquired, hresolve, hacquire, rfl⟩ := began
    simp only [Memory.describe, Memory.setSlot_slots, Function.update_self,
      Memory.setSlot_queues, Memory.withQueues_queues]
    exact ⟨trivial, trivial, rfl, (resolve_steady hresolve).toManaged⟩
  obtain ⟨hqueue, hgeneration, hports, hmanaged⟩ := hslot
  constructor
  · intro x y hy
    by_cases hx : x = r
    · subst hx
      rw [hqueue, Option.some.injEq] at hy
      subst hy
      exact ⟨hgeneration.le, fun _ => hports⟩
    · rw [fresh.others x hx] at hy ⊢
      obtain ⟨hle, hsame⟩ := routed.home x y hy
      have hgrown := hmanaged.generation y
      refine ⟨hle.trans hgrown, ?_⟩
      intro heq
      rw [hsame (by omega), hmanaged.pair (by omega)]
  · intro x hx
    by_cases hxr : x = r
    · subst hxr
      exact ⟨a, provided, by simp⟩
    · obtain ⟨b, provided', hbegun⟩ := routed.begun x (((fresh.used x).mp hx).resolve_left hxr)
      refine ⟨b, provided', List.mem_append_left _ ?_⟩
      simpa only [Memory.serial, fresh.others x hxr] using hbegun
  · intro p x f hmem
    have hold := hmanaged.tasks p x f hmem
    have hx : x ≠ r := by
      rintro rfl
      exact idle p f hold
    rw [fresh.others x hx]
    exact routed.queued p x f hold
  · intro k f p hran
    simp only [List.mem_append, List.mem_singleton, reduceCtorEq, or_false] at hran
    obtain ⟨b, provided', ps, hbegun, hhome⟩ := routed.ran k f p hran
    exact ⟨b, provided', ps, List.mem_append_left _ hbegun, hhome⟩

end Routed

theorem Memory.kept_pos {m : Memory Op} {p : PortId} {r : SlotId} {f : Work}
    (queued : .held r f ∈ (m.queues.owned p).callbacks) : 0 < m.kept r := by
  have hle := QueuePool.le_weigh (Task.holds r) queued
  simp only [Task.holds_held, if_true] at hle
  simp only [Memory.kept]
  omega

theorem Routed.ports {tr : List Event} {m : Memory Op} (routed : Routed tr m) {r : SlotId}
    {q : QueueId} (keeps : m.keepsQueue r = true) (queue : (m.slots r).queue = some q) :
    (m.slots r).ports = (m.queues.made q).pair := by
  simp only [Memory.keepsQueue, queue, Option.any_some, Bool.and_eq_true, beq_iff_eq] at keeps
  exact (routed.home r q queue).2 keeps.2

theorem Routed.completion {tr : List Event} {m : Memory Op} (routed : Routed tr m) {r : SlotId}
    {a : BlockId} {next : Next} {q : QueueId} {qs : QueuePool Task} {p : PortId}
    (callback : (m.blocks a).callback.isSome = true)
    (home : (Frame.publish r a next).sendsHome m = true)
    (resolved : m.queues.resolve (m.blocks a).queue = some (q, qs))
    (port : (qs.made q).completion = some p) :
    Work.announce.home (m.slots r).ports = some p := by
  simp only [Frame.sendsHome, Option.isNone_eq_false_iff.mpr callback, Bool.false_or,
    Bool.and_eq_true, decide_eq_true_eq] at home
  obtain ⟨hkeeps, heffect⟩ := home
  obtain ⟨x, hx⟩ : ∃ x, (m.slots r).queue = some x := by
    by_contra hnone
    simp only [not_exists, ← Option.eq_none_iff_forall_ne_some] at hnone
    simp [Memory.keepsQueue, hnone] at hkeeps
  obtain ⟨rfl, hmade⟩ := QueuePool.resolve_inEffect resolved (heffect.trans hx)
  rw [routed.ports hkeeps hx, ← hmade]
  exact port

section Effects

variable {tr : List Event} {g : Granularity} {m n : Memory Op} {c : Choice Op}
  {old new : List Frame} {ev : List Event}

attribute [local simp] Work.home TaskQueue.pair

theorem retireSlot_managed (m : Memory Op) (r : SlotId) :
    Managed m.queues (m.retireSlot r).queues := by
  rw [retireSlot_queues]
  exact .refl _

/-- A step whose activations submit their tasks at home. -/
theorem Effect.routes (effect : Effect g m c old n new ev) {limit : ℕ} {h d : SlotId → ℕ}
    (sound : Sound limit m h d) (routed : Routed tr m)
    (sends : ∀ f ∈ old.head?, f.sendsHome m = true)
    (used : ∀ f ∈ old, ∀ r, f.slot = some r → (r : ℕ) < m.used) : RouteStep m n ev := by
  cases effect with
  | manage kept => exact .same (.quiet (sameLabels_withQueues _ _) kept.toManaged (by simp))
  | adjusts kept => exact .same (.quiet (sameLabels_withQueues _ _) kept (by simp))
  | prepare => exact .same (.quiet ⟨rfl, rfl, fun _ => rfl⟩ (.refl _) (by simp))
  | took _ _ _ taken => exact .same (.takes taken)
  | @beginAccepted a q r n₀ _ _ _ p _ _ began port sent =>
    refine .began began (.sends (.refl _) ?_ sent)
    obtain ⟨qs, acquired, -, -, rfl⟩ := began
    simpa [Memory.describe] using port
  | @beginImmediate a q r n₀ _ _ _ p _ _ began port sent =>
    have hused : (r : ℕ) < n₀.used := ((sound.began_fresh began).used r).mpr (.inl rfl)
    refine .began began (.starts (.refl _) hused ?_ sent)
    obtain ⟨qs, acquired, -, -, rfl⟩ := began
    simpa [Memory.describe] using port
  | beginRefused began =>
    exact .began began (.quiet (sameLabels_retireSlot _ _) (retireSlot_managed _ _) (by simp))
  | providerBegun began => exact .began began (.quiet (.refl _) (.refl _) (by simp))
  | drops => exact .same (.quiet (sameLabels_retireSlot _ _) (retireSlot_managed _ _) (by simp))
  | finds => exact .same (.quiet (sameLabels_hold _ _) (.refl _) (by simp))
  | swaps => exact .same (.quiet (sameLabels_hold _ _) (.refl _) (by simp))
  | @scheduleAccepted b r delay i p n alloc now queue port sent provided =>
    have hkeeps := sends _ rfl
    simp only [Frame.sendsHome, Option.isNone_eq_false_iff.mpr provided, Bool.false_or] at hkeeps
    refine .same (.sends (.refl _) ?_ sent)
    rw [routed.ports hkeeps queue]
    exact port
  | @scheduleImmediate b r delay i p n alloc now queue port sent provided =>
    have hkeeps := sends _ rfl
    simp only [Frame.sendsHome, Option.isNone_eq_false_iff.mpr provided, Bool.false_or] at hkeeps
    refine .same (.starts (.refl _) (used _ (List.mem_singleton_self _) r rfl) ?_ sent)
    rw [routed.ports hkeeps queue]
    exact port
  | finishes => exact .same (.quiet (sameLabels_complete _ _ _ _) (.refl _) (by simp))
  | finishesBlock => exact .same (.quiet (sameLabels_complete _ _ _ _) (.refl _) (by simp))
  | publishesNothing kept =>
    exact .same (.quiet (sameLabels_withQueues _ _) kept.toManaged (by simp))
  | @publishAccepted r a next q qs p n alloc now callback resolved port sent =>
    have hhome := sends _ rfl
    refine .same (.sends (resolve_steady resolved).toManaged ?_ sent)
    exact routed.completion callback hhome resolved port
  | @publishImmediate r a next q qs p n alloc now callback resolved port sent =>
    have hhome := sends _ rfl
    refine .same (.starts (resolve_steady resolved).toManaged
      (used _ (List.mem_singleton_self _) r rfl) ?_ sent)
    exact routed.completion callback hhome resolved port
  | retires => exact .same (.quiet (sameLabels_retireSlot _ _) (retireSlot_managed _ _) (by simp))
  | releases => exact .same (.quiet (sameLabels_drop _ _) (.refl _) (by simp))
  | releasesLast => exact .same (.quiet (sameLabels_drop _ _) (.refl _) (by simp))
  | destroys => exact .same (.quiet (sameLabels_strip _ _) (.refl _) (by simp))
  | destroysNothing => exact .same (.quiet (sameLabels_strip _ _) (.refl _) (by simp))
  | recycles => exact .same (.quiet (sameLabels_recycle _ _) (.refl _) (by simp))
  | _ => exact .same (.quiet (.refl _) (.refl _) (by simp))

/-- Whatever a step begins is begun on the queue that its block comes to. -/
theorem Effect.inEffect (effect : Effect g m c old n new ev) {k : ℕ} {b : BlockId}
    {provided : Bool} {ps : Option PortId × Option PortId} (begun : .begun k b provided ps ∈ ev) :
    ∃ q qs, m.queues.resolve (m.blocks b).queue = some (q, qs) ∧ ps = (qs.made q).pair := by
  have hports : ∀ {a q r n₀ id o provider context}, Began m a q r n₀ id o provider context →
      ∃ q qs, m.queues.resolve (m.blocks a).queue = some (q, qs) ∧
        (n₀.slots r).ports = (qs.made q).pair := by
    rintro a q r n₀ id o provider context ⟨qs, acquired, hresolve, -, rfl⟩
    exact ⟨q, qs, hresolve, by simp [Memory.describe]⟩
  cases effect with
  | beginAccepted began =>
    simp only [List.mem_cons, Event.begun.injEq, reduceCtorEq, List.not_mem_nil, or_false] at begun
    obtain ⟨-, rfl, -, rfl⟩ := begun
    exact hports began
  | beginImmediate began =>
    simp only [List.mem_cons, Event.begun.injEq, reduceCtorEq, List.not_mem_nil, or_false] at begun
    obtain ⟨-, rfl, -, rfl⟩ := begun
    exact hports began
  | beginRefused began =>
    simp only [List.mem_cons, Event.begun.injEq, reduceCtorEq, List.not_mem_nil, or_false] at begun
    obtain ⟨-, rfl, -, rfl⟩ := begun
    exact hports began
  | providerBegun began =>
    simp only [List.mem_cons, Event.begun.injEq, reduceCtorEq, List.not_mem_nil, or_false] at begun
    obtain ⟨-, rfl, -, rfl⟩ := begun
    exact hports began
  | @took _ _ p now t =>
    cases htask : t.item.callback with
    | held r f => simp [htask, Memory.ranEvents] at begun
    | callback x => simp [htask, Memory.ranEvents] at begun
  | _ => simp at begun

end Effects

namespace AsyncThreads

variable {tr ev : List Event} {s s' : AsyncThreads Op} {i : ℕ} {c : Choice Op}

/-- The step submits a task only to the queue that was recorded when its operation was begun, and
that queue was not released since. -/
def SendsHome (s : AsyncThreads Op) (input : ℕ × Choice Op) : Prop :=
  ∀ stack ∈ s.threads[input.1]?, ∀ f ∈ stack.head?, f.sendsHome s.memory = true

instance sendsHome_decidable (s : AsyncThreads Op) (input : ℕ × Choice Op) :
    Decidable (SendsHome s input) := by
  unfold SendsHome
  infer_instance

theorem routed_step (routed : Routed tr s.memory) (accounted : Accounted s)
    (home : SendsHome s (i, c)) (h : step .whole s (i, c) = some (s', ev)) :
    Routed (tr ++ ev) s'.memory := by
  rcases step_cases h with ⟨fault, rfl, rfl⟩ | ⟨old, rest, new, n, hstack, heffect, -, rfl⟩
  · exact routed.quiet (.refl _) (.refl _) (by simp)
  have hsound := accounted.audit.sound
  have hmem := List.mem_of_getElem? hstack
  have hqueued : ∀ p (r : SlotId) f, .held r f ∈ (s.memory.queues.owned p).callbacks →
      (r : ℕ) < s.memory.used := fun p r f htask =>
    hsound.used (.inl (Nat.add_pos_left (Memory.kept_pos htask) _))
  have hsends : ∀ f ∈ old.head?, f.sendsHome s.memory = true := by
    intro f hf
    refine home _ hstack f ?_
    rw [List.head?_append, Option.mem_def.mp hf]
    rfl
  have hused : ∀ f ∈ old, ∀ r, f.slot = some r → (r : ℕ) < s.memory.used := fun f hf r hr =>
    frame_used accounted.audit hmem (List.mem_append_left _ hf) (.inl hr)
  cases heffect.routes hsound routed hsends hused with
  | same effect => exact routed.effect hqueued effect
  | @began a q r n₀ _ _ _ _ _ provided ev' began effect =>
    have hfresh := hsound.began_fresh began
    have hidle : ∀ p f, .held r f ∉ (s.memory.queues.owned p).callbacks := by
      intro p f htask
      obtain ⟨qs, acquired, -, hacquire, -⟩ := began
      have hzero := (hsound.picked_idle (Memory.acquire_some hacquire)).1
      have hpos := Memory.kept_pos htask
      omega
    have hbegun := routed.handOut began hfresh hidle provided
    rw [List.append_cons]
    refine hbegun.effect ?_ effect
    intro p x f htask
    obtain ⟨qs, acquired, hresolve, hacquire, rfl⟩ := began
    exact (hfresh.used x).mpr (.inr (hqueued p x f ((resolve_steady hresolve).tasks p x f htask)))

theorem routed_start (threads : ℕ) : Routed [] (start threads : AsyncThreads Op).memory := by
  constructor
  · intro r q hq
    cases hq
  · intro r hr
    cases hr
  · intro p r f hmem
    simp [start, Memory.start, QueuePool.empty, TaskPort.callbacks_fresh] at hmem
  · intro k f p hran
    cases hran

theorem reaches_routed {threads : ℕ}
    (h : Reaches (step .whole) SendsHome (start threads) tr s) : Routed tr s.memory := by
  have hboth : Accounted s ∧ Routed tr s.memory := by
    refine h.invariant (P := fun tr s => Accounted s ∧ Routed tr s.memory)
      ⟨accounted_start threads, routed_start threads⟩ ?_
    rintro tr s ⟨i, c⟩ t ev ⟨haccounted, hrouted⟩ hhome hstep
    exact ⟨haccounted.step hstep, routed_step hrouted haccounted hhome hstep⟩
  exact hboth.2

/-- In a run in which tasks are submitted at home, every task of an operation that is dispatched
comes from the work port, and its announcement from the completion port, of the queue that was in
effect for its block when it was begun. -/
theorem tasks_stay_home {threads : ℕ}
    (h : Reaches (step .whole) SendsHome (start threads) tr s) :
    (∀ k f p, .ran k f p ∈ tr →
      ∃ b provided ps, .begun k b provided ps ∈ tr ∧ f.home ps = some p) ∧
    ∀ i c s' ev, step .whole s (i, c) = some (s', ev) → ∀ k b provided ps,
      .begun k b provided ps ∈ ev → ∃ q qs,
        s.memory.queues.resolve (s.memory.blocks b).queue = some (q, qs) ∧
          ps = (qs.made q).pair := by
  refine ⟨(reaches_routed h).ran, ?_⟩
  intro i c s' ev hstep k b provided ps hbegun
  rcases step_cases hstep with ⟨fault, -, rfl⟩ | ⟨old, rest, new, n, -, heffect, -, -⟩
  · simp at hbegun
  · exact heffect.inEffect hbegun

section Run

/-- An operation with a completion routine is begun on the process queue. -/
def beginRouted : List (ℕ × Choice Unit) :=
  [(0, .call (.createQueue .manual .manual) {}), (0, .go {}),
    (0, .call (.createQueue .manual .manual) {}), (0, .go {}),
    (0, .call (.prepare 0 none (some 7)) {}), (0, .call (.setProcess (some 0)) {}), (0, .go {}),
    (0, .call (.begin (some 0) 1 ()) {}), (0, .go {})]

/-- Its work is dispatched from port `w` and its announcement from port `c`. -/
def dispatchBoth (w c : PortId) : List (ℕ × Choice Unit) :=
  [(0, .call (.work w) {}), (0, .go {}), (0, .answer (.returned 5)), (0, .go {}), (0, .go {}),
    (0, .go {}), (0, .call (.work c) {})]

theorem staysHome_trace :
    (execute (step .whole) (start 1) (beginRouted ++ dispatchBoth 0 1)).map Prod.snd =
      some [.returned .queue (.flag true), .returned .queue (.flag true),
        .returned .queue (.code S_OK), .begun 0 0 false (some 0, some 1), .queued 0 .perform 0,
        .returned (.begin (some 0)) (.code S_OK), .ran 0 .perform 0, .worked 0, .finished 0 S_OK,
        .queued 0 .announce 1, .ran 0 .announce 1] := by
  decide

theorem tasks_stay_home_dispatched :
    ∃ (s : AsyncThreads Unit) (tr : List Event),
      Reaches (step .whole) SendsHome (start 1) tr s ∧ .ran 0 .announce 1 ∈ tr ∧
      ∃ b provided ps, .begun 0 b provided ps ∈ tr ∧ Work.announce.home ps = some 1 := by
  obtain ⟨⟨s, tr⟩, hrun, htr⟩ := Option.map_eq_some_iff.mp staysHome_trace
  dsimp only at htr
  subst htr
  have h : Reaches (step .whole) SendsHome (start 1) _ s := reaches_of_execute _ hrun (by decide)
  exact ⟨s, _, h, by simp, (tasks_stay_home h).1 0 .announce 1 (by simp)⟩

/-- The process queue is changed while the operation is under way: it is announced on the queue of
that moment. -/
theorem strays_trace : (execute (step .whole) (start 1) (beginRouted ++
    [(0, .call (.setProcess (some 1)) {}), (0, .go {})] ++ dispatchBoth 0 3)).map Prod.snd =
      some [.returned .queue (.flag true), .returned .queue (.flag true),
        .returned .queue (.code S_OK), .begun 0 0 false (some 0, some 1), .queued 0 .perform 0,
        .returned (.begin (some 0)) (.code S_OK), .returned .queue (.code S_OK),
        .ran 0 .perform 0, .worked 0, .finished 0 S_OK, .queued 0 .announce 3,
        .ran 0 .announce 3] := by
  decide

theorem announcement_strays :
    ¬ ∀ (tr : List Event) (s : AsyncThreads Unit), Reaches (step .whole) always (start 1) tr s →
      ∀ k f p, .ran k f p ∈ tr →
        ∃ b provided ps, .begun k b provided ps ∈ tr ∧ f.home ps = some p := by
  intro hclaim
  obtain ⟨⟨s, tr⟩, hrun, htr⟩ := Option.map_eq_some_iff.mp strays_trace
  dsimp only at htr
  subst htr
  obtain ⟨b, provided, ps, hbegun, hhome⟩ :=
    hclaim _ s (reaches_of_run hrun) 0 .announce 3 (by simp)
  simp at hbegun
  obtain ⟨-, -, rfl⟩ := hbegun
  exact absurd hhome (by decide)

end Run

end AsyncThreads

end IW4x.Gdk
