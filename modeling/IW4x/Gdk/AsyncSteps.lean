import IW4x.Gdk.AsyncThreads

/-!
# What a step of the asynchronous API can do

`Effect` lists, once and for all, what the step of a thread can do to the memory and to its own
activations. Every invariant of the API is proved over these cases.
-/

namespace IW4x.Gdk

variable {Op : Type}

/-- Who runs `finish` holds the slot. -/
def Next.owner : Next → Owner
  | .task => .task
  | .complete .. => .call
  | .cancel .. => .call

/-- The slot that the activation has a hold on. -/
def Frame.slot : Frame → Option SlotId
  | .found _ _ r => some r
  | .waiting _ r => some r
  | .resulting _ _ r => some r
  | .gettingResult _ _ r => some r
  | .run r _ _ => some r
  | .working r => some r
  | .providing r _ => some r
  | .routine r => some r
  | .finish r _ _ _ => some r
  | .publish r _ _ => some r
  | .retire r _ _ _ => some r
  | .release r _ => some r
  | _ => none

/-- Whose hold it is. -/
def Frame.owner : Frame → Owner
  | .run .. => .task
  | .working .. => .task
  | .providing .. => .task
  | .routine .. => .task
  | .finish _ _ _ next => next.owner
  | .publish _ _ next => next.owner
  | .release _ owner => owner
  | _ => .call

/-- The block that the call of the activation, or of its `finish`, was made with. -/
def Next.caller : Next → Option BlockId
  | .task => none
  | .complete b _ => some b
  | .cancel b _ => some b

def Frame.caller : Frame → Option BlockId
  | .found b _ _ => some b
  | .waiting b _ => some b
  | .resulting b _ _ => some b
  | .gettingResult b _ _ => some b
  | .retire _ b _ _ => some b
  | .finish _ _ _ next => next.caller
  | .publish _ _ next => next.caller
  | _ => none

def Frame.disposing : Frame → Option SlotId
  | .dispose r => some r
  | .destroying r _ => some r
  | .cleaning r _ => some r
  | .cleaned r => some r
  | .recycle r => some r
  | _ => none

/-- The slot that `provider_begin` works on without a hold of its own. -/
def Frame.begins : Frame → Option SlotId
  | .beginning r _ => some r
  | .cleaningFailed r _ _ => some r
  | .dropping r _ _ => some r
  | _ => none

/-- The serial of the operation that a call has found. -/
def Source.serial : Source → Option ℕ
  | .query _ _ k => k
  | _ => none

/-- The operation that the activation answers for, once it is done with the slot. -/
def Frame.answers : Frame → Option ℕ
  | .returns src _ => src.serial
  | _ => none

/-- The activation is on the way to the completion routine. -/
def Frame.announces : Frame → Option SlotId
  | .publish r _ _ => some r
  | .run r .announce _ => some r
  | _ => none

/-- The activation has nothing to do with a slot. -/
def Frame.light (f : Frame) : Prop := f.slot = none ∧ f.disposing = none

/-- Nor is it the rest of a call that had to do with one. -/
def Frame.plain (f : Frame) : Prop := f.light ∧ f.begins = none ∧ f.answers = none

def Frame.gives : Frame → Prop
  | .givePorts _ => True
  | _ => False

/-- The activation is a part of `held_state::find`. -/
def Frame.finds : Frame → Prop
  | .findSlot .. => True
  | .findToken .. => True
  | .findWord .. => True
  | .findSwap .. => True
  | _ => False

/-- Neither gives ports back nor is a part of `held_state::find`. -/
def Frame.calm (f : Frame) : Prop := ¬ f.gives ∧ ¬ f.finds

structure Tidy (p : QueuePool Task) : Prop where
  named : ∀ q r i, (p.made q).port r = some i → p.portUsed i = true
  idle : ∀ i, p.portUsed i = false → (p.owned i).callbacks = []

/-- What a step that concerns no operation does to the queues: the held tasks stay where they are.
Callbacks of the caller come and go. -/
structure Managed (p q : QueuePool Task) : Prop where
  weigh : ∀ w : Task → ℕ, (∀ x, w (.callback x) = 0) → q.weigh w = p.weigh w
  tasks : ∀ i r f, .held r f ∈ (q.owned i).callbacks → .held r f ∈ (p.owned i).callbacks
  generation : ∀ i, p.generation i ≤ q.generation i
  ports : ∀ i, q.generation i = p.generation i → ∀ r, (q.made i).port r = (p.made i).port r

/-- The same, for a step that gives no port back to the pool. -/
structure Steady (p q : QueuePool Task) : Prop extends Managed p q where
  tidy : Tidy p → Tidy q ∧ q.lost = p.lost

/-- The step is not the spurious failure of a weak compare-exchange. -/
def Choice.certain : Choice Op → Prop
  | .go e => e.spurious = false
  | _ => True

/-- An operation was begun on slot `r`, with the fields that its caller gave. -/
structure Began (m : Memory Op) (a : BlockId) (q : QueueId) (r : SlotId) (n : Memory Op)
    (id : Option ℕ) (o : Option Op) (provider : Option ℕ) (context : ℕ) : Prop where
  begun : ∃ qs acquired, m.queues.resolve (m.blocks a).queue = some (q, qs) ∧
    m.acquire a = some (r, acquired) ∧
    n = (acquired.withQueues qs).describe r q id o provider context

/-- What a step can do: the activations `old` on top of the stack are replaced by `new`. -/
inductive Effect (g : Granularity) (m : Memory Op) (c : Choice Op) :
    List Frame → Memory Op → List Frame → List Event → Prop
  | manage {old new qs} (kept : Steady m.queues qs) (light : ∀ f ∈ old, f.light)
      (plain : ∀ f ∈ new, f.plain)
      (closing : (∃ f ∈ new, f.gives) → ∃ q e, c = .call (.close q) e)
      (finding : (∃ f ∈ new, f.finds) → g = .split ∨ ∃ f ∈ old, f.finds) :
      Effect g m c old (m.withQueues qs) new []
  | adjusts {old new qs} (kept : Managed m.queues qs) (light : ∀ f ∈ old, f.light)
      (plain : ∀ f ∈ new, f.plain) (calm : ∀ f ∈ new, f.calm)
      (cause : (∃ f ∈ old, f.gives) ∨ ∃ w w' e, c = .call (.createComposite w w') e) :
      Effect g m c old (m.withQueues qs) new []
  | prepare {b queue callback e} (said : c = .call (.prepare b queue callback) e) :
      Effect g m c [] (m.setBlock b { m.blocks b with queue := queue, callback := callback }) [] []
  | returns {src reply} : Effect g m c [.returns src reply] m [] [.returned src reply]
  | took {old ran p now t} (light : ∀ f ∈ old, f.light) (plain : ∀ f ∈ ran, f.plain)
      (calm : ∀ f ∈ ran, f.calm) (taken : (m.queues.owned p).take now = some t) :
      Effect g m c old (m.withQueues (m.queues.setPort p t.port))
        (t.item.callback.frames t.canceled ++ ran) (m.ranEvents p t.item.callback)
  | beginAccepted {a q r n n' id o p alloc now} (began : Began m a q r n (some id) (some o) none 0)
      (port : (n.queues.made q).work = some p)
      (sent : n.submit alloc now r p 0 .perform = .accepted n') :
      Effect g m c [] n' [.returns (.begin (some a)) (.code S_OK)]
        [.begun (n.serial r) a false (n.slots r).ports, .queued (n.serial r) .perform p]
  | beginImmediate {a q r n n' id o p alloc now} (began : Began m a q r n (some id) (some o) none 0)
      (port : (n.queues.made q).work = some p)
      (sent : n.submit alloc now r p 0 .perform = .immediate n') :
      Effect g m c [] n' [.run r .perform false, .returns (.begin (some a)) (.code S_OK)]
        [.begun (n.serial r) a false (n.slots r).ports, .queued (n.serial r) .perform p,
          .ran (n.serial r) .perform p]
  | beginRefused {a q r n id o} (began : Began m a q r n (some id) (some o) none 0) :
      Effect g m c [] (n.retireSlot r)
        [.release r .block, .returns (.begin (some a)) (.code E_ABORT)]
        [.begun (n.serial r) a false (n.slots r).ports, .retired (n.serial r)]
  | providerBegun {a q r n id provider context}
      (began : Began m a q r n id none (some provider) context) :
      Effect g m c [] n [.beginning r a]
        [.begun (n.serial r) a true (n.slots r).ports, .provider (n.serial r) .begin (some a)]
  | failsBegin {r b hr} (said : c = .answer (.code hr)) (fails : failed hr = true)
      (provided : (m.slots r).provider.isSome = true) :
      Effect g m c [.beginning r b] m [.cleaningFailed r b hr]
        [.provider (m.serial r) .cleanup (m.slots r).block]
  | cleanedFailed {r b hr} : Effect g m c [.cleaningFailed r b hr] m [.dropping r b hr] []
  | drops {r b hr} (live : (m.slots r).retired = false) :
      Effect g m c [.dropping r b hr] (m.retireSlot r)
        [.release r .block, .returns (.providerBegin (some b)) (.code hr)] [.retired (m.serial r)]
  | finds {a q r e} (said : c = .call (.query (some a) q) e) (mode : g = .whole)
      (whole : m.find (some a) = some r) :
      Effect g m c [] (m.hold r) [.found a q r] [.found (m.serial r)]
  | swaps {b q r} {t : { t : ℕ // t ≠ 0 }} (certain : c.certain)
      (mine : tokenOf (m.slots r).state = t) :
      Effect g m c [.findSwap b q r t (m.slots r).state] (m.hold r) [.found b q r]
        [.found (m.serial r)]
  | settles {f b q r reply} (call : f = .found b q r ∨ f = .waiting b r ∧ q = .status true)
      (early : ∀ id size used, q = .result id size used →
        reply = .code pending ∨ reply = .code E_INVALIDARG) :
      Effect g m c [f] m (m.settle r b q reply) []
  | proceeds {f f' r} (slot : f.slot = some r) (slot' : f'.slot = some r) (owner : f'.owner = f.owner)
      (quiet : f.announces = none) (quiet' : f'.announces = none) (caller : f'.caller = f.caller) :
      Effect g m c [f] m [f'] []
  | provides {f f' r op} (slot : f.slot = some r) (slot' : f'.slot = some r)
      (owner : f'.owner = f.owner) (quiet : f.announces = none) (quiet' : f'.announces = none)
      (caller : f'.caller = f.caller) (provided : (m.slots r).provider.isSome = true)
      (work : op ≠ .begin ∧ op ≠ .cleanup) :
      Effect g m c [f] m [f'] [.provider (m.serial r) op (m.slots r).block]
  | works {r} : Effect g m c [.run r .perform false] m [.working r] [.worked (m.serial r)]
  | announces {r canceled a} (block : (m.slots r).block = some a)
      (callback : (m.blocks a).callback.isSome = true) :
      Effect g m c [.run r .announce canceled] m [.routine r] [.routine (m.serial r) a]
  | silent {r canceled}
      (nobody : ∀ a, (m.slots r).block = some a → (m.blocks a).callback = none) :
      Effect g m c [.run r .announce canceled] m [.release r .task] []
  | scheduleAccepted {b r delay i p n alloc now} (queue : (m.slots r).queue = some i)
      (port : (m.queues.made i).work = some p)
      (sent : m.submit alloc now r p delay .doWork = .accepted n)
      (provided : (m.slots r).provider.isSome = true) :
      Effect g m c [.found b (.schedule delay) r] n (m.settle r b (.schedule delay) (.code S_OK))
        [.queued (m.serial r) .doWork p]
  | scheduleImmediate {b r delay i p n alloc now} (queue : (m.slots r).queue = some i)
      (port : (m.queues.made i).work = some p)
      (sent : m.submit alloc now r p delay .doWork = .immediate n)
      (provided : (m.slots r).provider.isSome = true) :
      Effect g m c [.found b (.schedule delay) r] n
        (.run r .doWork false :: m.settle r b (.schedule delay) (.code S_OK))
        [.queued (m.serial r) .doWork p, .ran (m.serial r) .doWork p]
  | finishesAgain {r hr size next} (again : (m.slots r).completed = true) :
      Effect g m c [.finish r hr size next] m (m.after r next) []
  | finishes {r hr size next} (first : (m.slots r).completed = false)
      (gone : (m.slots r).block = none) :
      Effect g m c [.finish r hr size next] (m.complete r hr size) (m.after r next)
        [.finished (m.serial r) hr]
  | finishesBlock {r hr size next a} (first : (m.slots r).completed = false)
      (block : (m.slots r).block = some a) :
      Effect g m c [.finish r hr size next] (m.complete r hr size) [.publish r a next]
        [.finished (m.serial r) hr]
  | publishesNothing {r a next qs} (kept : Steady m.queues qs) :
      Effect g m c [.publish r a next] (m.withQueues qs) (m.after r next) []
  | publishAccepted {r a next q qs p n alloc now}
      (callback : (m.blocks a).callback.isSome = true)
      (resolved : m.queues.resolve (m.blocks a).queue = some (q, qs))
      (port : (qs.made q).completion = some p)
      (sent : (m.withQueues qs).submit alloc now r p 0 .announce = .accepted n) :
      Effect g m c [.publish r a next] n (m.after r next) [.queued (m.serial r) .announce p]
  | publishImmediate {r a next q qs p n alloc now}
      (callback : (m.blocks a).callback.isSome = true)
      (resolved : m.queues.resolve (m.blocks a).queue = some (q, qs))
      (port : (qs.made q).completion = some p)
      (sent : (m.withQueues qs).submit alloc now r p 0 .announce = .immediate n) :
      Effect g m c [.publish r a next] n (.run r .announce false :: m.after r next)
        [.queued (m.serial r) .announce p, .ran (m.serial r) .announce p]
  | retiresAgain {r b q reply} (again : (m.slots r).retired = true) :
      Effect g m c [.retire r b q reply] m (m.settle r b q reply) []
  | retires {r b q reply} (live : (m.slots r).retired = false) :
      Effect g m c [.retire r b q reply] (m.retireSlot r)
        (.release r .block :: m.settle r b q reply) [.retired (m.serial r)]
  | releases {r owner} (some : holdsOf (m.slots r).state ≠ 0)
      (more : holdsOf (m.slots r).state ≠ 1) :
      Effect g m c [.release r owner] (m.drop r) [] []
  | releasesLast {r owner} (last : holdsOf (m.slots r).state = 1) :
      Effect g m c [.release r owner] (m.drop r) [.dispose r] [.disposed (m.serial r)]
  | destroys {r} :
      Effect g m c [.dispose r] (m.strip r) [.destroying r (m.slots r).provider] []
  | destroysNothing {r} :
      Effect g m c [.dispose r] (m.strip r) [.cleaning r (m.slots r).provider] []
  | destroyed {r provider} : Effect g m c [.destroying r provider] m [.cleaning r provider] []
  | cleansNothing {r} : Effect g m c [.cleaning r none] m [.recycle r] []
  | cleans {r x} :
      Effect g m c [.cleaning r (some x)] m [.cleaned r] [.provider (m.serial r) .cleanup none]
  | cleaned {r} : Effect g m c [.cleaned r] m [.recycle r] []
  | recycles {r} : Effect g m c [.recycle r] (m.recycle r) [] [.recycled (m.serial r)]

theorem Managed.refl (p : QueuePool Task) : Managed p p :=
  ⟨fun _ _ => rfl, fun _ _ _ h => h, fun _ => le_refl _, fun _ _ _ => rfl⟩

theorem Steady.refl (p : QueuePool Task) : Steady p p := ⟨.refl p, fun h => ⟨h, rfl⟩⟩

theorem Managed.trans {p q r : QueuePool Task} (hpq : Managed p q) (hqr : Managed q r) :
    Managed p r := by
  constructor
  · intro w hw
    rw [hqr.weigh w hw, hpq.weigh w hw]
  · intro i s f h
    exact hpq.tasks i s f (hqr.tasks i s f h)
  · intro i
    exact (hpq.generation i).trans (hqr.generation i)
  · intro i hi s
    have hle := hpq.generation i
    have hle' := hqr.generation i
    rw [hqr.ports i (by omega), hpq.ports i (by omega)]

theorem Steady.trans {p q r : QueuePool Task} (hpq : Steady p q) (hqr : Steady q r) :
    Steady p r := by
  refine ⟨hpq.toManaged.trans hqr.toManaged, ?_⟩
  intro h
  obtain ⟨hq, hlost⟩ := hpq.tidy h
  obtain ⟨hr, hlost'⟩ := hqr.tidy hq
  exact ⟨hr, hlost'.trans hlost⟩

theorem QueuePool.Kept.managed {p q : QueuePool Task} (h : QueuePool.Kept p q) : Managed p q :=
  ⟨fun w _ => h.weigh w, fun i r f hx => h.callbacks i (.held r f) hx, h.generation, h.ports⟩

theorem steady_of_same {p q : QueuePool Task} (kept : QueuePool.Kept p q)
    (named : ∀ i r, (q.made i).port r = (p.made i).port r)
    (used : ∀ i, q.portUsed i = false → p.portUsed i = false)
    (callbacks : ∀ i, (q.owned i).callbacks = (p.owned i).callbacks) (lost : q.lost = p.lost) :
    Steady p q := by
  refine ⟨kept.managed, fun htidy => ⟨⟨?_, ?_⟩, lost⟩⟩
  · intro i r j hj
    rw [named] at hj
    have hused := htidy.named i r j hj
    by_contra hnot
    rw [used j (by simpa using hnot)] at hused
    cases hused
  · intro i hi
    rw [callbacks]
    exact htidy.idle i (used i hi)

theorem QueuePool.Alike.steady {p q : QueuePool Task} (h : QueuePool.Alike p q)
    (used : ∀ i, q.portUsed i = false → p.portUsed i = false) : Steady p q :=
  steady_of_same h.kept (fun i r => by rw [h.made]) used (fun i => by rw [h.owned]) h.lost

theorem QueuePool.Created.steady {p q : QueuePool Task} {w c : DispatchMode} {i : QueueId}
    {wi ci : PortId} (h : QueuePool.Created p q w c i wi ci)
    (used : ∀ i, q.portUsed i = false → p.portUsed i = false) : Steady p q := by
  refine ⟨h.kept.managed, fun htidy => ⟨⟨?_, ?_⟩, ?_⟩⟩
  · intro j r s hs
    rw [h.made] at hs
    by_cases hj : j = i
    · subst hj
      cases r with
      | work =>
        simp only [Function.update_self, TaskQueue.port, TaskQueue.openWith,
          Option.some.injEq] at hs
        exact hs ▸ h.workUsed
      | completion =>
        simp only [Function.update_self, TaskQueue.port, TaskQueue.openWith,
          Option.some.injEq] at hs
        exact hs ▸ h.completionUsed
    · rw [Function.update_of_ne hj] at hs
      have hused := htidy.named j r s hs
      by_contra hnot
      rw [used s (by simpa using hnot)] at hused
      cases hused
  · intro j hj
    have hold := htidy.idle j (used j hj)
    rw [h.owned]
    by_cases hjc : j = ci
    · subst hjc; simp
    · by_cases hjw : j = wi
      · subst hjw; simp [hjc]
      · simpa [hjc, hjw] using hold
  · rw [h.lost, htidy.idle wi h.workFree, htidy.idle ci h.completionFree]
    simp

theorem resolve_steady {p p' : QueuePool Task} {q : Option QueueId} {x : QueueId}
    (h : p.resolve q = some (x, p')) : Steady p p' := by
  obtain ⟨hused, halike | ⟨wi, ci, hcreated⟩⟩ := QueuePool.resolve_cases h
  · exact halike.steady hused
  · exact hcreated.steady hused

theorem createQueue_steady (p : QueuePool Task) (w c : DispatchMode) :
    Steady p (p.createQueue w c).2 := by
  obtain ⟨hused, ⟨-, halike⟩ | ⟨i, wi, ci, -, hcreated⟩⟩ := p.createQueue_cases w c
  · exact halike.steady hused
  · exact hcreated.steady hused

theorem setPort_steady {p : QueuePool Task} {i : PortId} {t : TaskPort Task}
    (h : t.callbacks = (p.owned i).callbacks) : Steady p (p.setPort i t) := by
  refine steady_of_same (QueuePool.setPort_kept h) (fun _ _ => rfl) (fun _ hi => hi) ?_ rfl
  intro j
  by_cases hj : j = i
  · subst hj; simp [h]
  · simp [hj]

theorem made_steady {p : QueuePool Task} {i : QueueId} {t : TaskQueue}
    (work : t.work = (p.made i).work) (completion : t.completion = (p.made i).completion) :
    Steady p { p with made := Function.update p.made i t } := by
  have hports : ∀ r, t.port r = (p.made i).port r := by
    intro r
    cases r with
    | work => exact work
    | completion => exact completion
  refine steady_of_same (QueuePool.ports_update hports) ?_ (fun _ hi => hi) (fun _ => rfl) rfl
  intro j r
  by_cases hj : j = i
  · subst hj; simp [hports]
  · simp [hj]

/-- A callback of the caller goes into a port that a queue object names. -/
theorem submitCallback_steady {p : QueuePool Task} {i : PortId} {t : TaskPort Task} {q : QueueId}
    {r : Port} {now delay x : ℕ} (named : (p.made q).port r = some i)
    (h : (p.owned i).submit now delay (.callback x) = .accepted t) : Steady p (p.setPort i t) := by
  obtain ⟨hcallbacks, -⟩ := TaskPort.submit_accepted h
  refine ⟨⟨?_, ?_, fun _ => le_refl _, fun _ _ _ => rfl⟩, fun htidy => ⟨⟨htidy.named, ?_⟩, rfl⟩⟩
  · intro w hw
    have hset := p.weigh_setPort w i t
    rw [hcallbacks, Stacks.weight_append, Stacks.weight_cons, Stacks.weight_nil, hw] at hset
    omega
  · intro j s f hmem
    by_cases hj : j = i
    · subst hj
      simpa [hcallbacks] using hmem
    · simpa [hj] using hmem
  · intro j hj
    have hne : j ≠ i := by
      rintro rfl
      have hused := htidy.named q r j named
      rw [show p.portUsed j = false from hj] at hused
      cases hused
    simpa [hne] using htidy.idle j hj

theorem releaseQueue_portUsed (p : QueuePool Task) (i : QueueId) :
    (p.releaseQueue i).2.portUsed = p.portUsed := by
  have hdrop : ∀ (p : QueuePool Task) owns j, (p.dropPort owns j).2.portUsed = p.portUsed := by
    intro p owns j
    cases j with
    | none => rfl
    | some j =>
      unfold QueuePool.dropPort
      dsimp only
      split_ifs <;> rfl
  unfold QueuePool.releaseQueue
  split_ifs
  · simp [hdrop]
  · rfl

theorem releaseQueue_steady (p : QueuePool Task) (i : QueueId) :
    Steady p (p.releaseQueue i).2 := by
  refine (p.releaseQueue_alike i).steady ?_
  intro j hj
  rwa [releaseQueue_portUsed] at hj

section Effects

attribute [local simp] Frame.plain Frame.light Frame.slot Frame.disposing Frame.begins Frame.answers
  Source.serial Frame.gives Frame.finds Frame.calm

variable {g : Granularity} {m : Memory Op} {c : Choice Op}

theorem plain_returns {src : Source} {reply : Reply} (other : src.serial = none) :
    ∀ f ∈ [Frame.returns src reply], f.plain :=
  List.forall_mem_singleton.mpr ⟨⟨rfl, rfl⟩, rfl, other⟩

theorem calm_returns {src : Source} {reply : Reply} : ∀ f ∈ [Frame.returns src reply], f.calm :=
  List.forall_mem_singleton.mpr ⟨id, id⟩

theorem Effect.steady {old new : List Frame} {qs : QueuePool Task} (kept : Steady m.queues qs)
    (light : ∀ f ∈ old, f.light) (plain : ∀ f ∈ new, f.plain) (calm : ∀ f ∈ new, f.calm) :
    Effect g m c old (m.withQueues qs) new [] :=
  .manage kept light plain (fun ⟨f, hf, hg⟩ => absurd hg (calm f hf).1)
    fun ⟨f, hf, hg⟩ => absurd hg (calm f hf).2

theorem Effect.idle {old new : List Frame} (light : ∀ f ∈ old, f.light) (plain : ∀ f ∈ new, f.plain)
    (calm : ∀ f ∈ new, f.calm) : Effect g m c old m new [] := by
  have h := Effect.steady (c := c) (g := g) (.refl m.queues) light plain calm
  exact h

theorem Effect.replies {qs : QueuePool Task} {src : Source} {reply : Reply}
    (kept : Steady m.queues qs) (other : src.serial = none) :
    Effect g m c [] (m.withQueues qs) [.returns src reply] [] :=
  .steady kept (List.forall_mem_nil _) (plain_returns other) calm_returns

theorem Effect.refuses {src : Source} {reply : Reply} (other : src.serial = none) :
    Effect g m c [] m [.returns src reply] [] :=
  .idle (List.forall_mem_nil _) (plain_returns other) calm_returns

theorem Effect.ends {f : Frame} {src : Source} {reply : Reply} (light : f.light)
    (other : src.serial = none) : Effect g m c [f] m [.returns src reply] [] :=
  .idle (List.forall_mem_singleton.mpr light) (plain_returns other) calm_returns

theorem Effect.looks {old new : List Frame} (light : ∀ f ∈ old, f.light)
    (plain : ∀ f ∈ new, f.plain) (last : ∀ f ∈ new, ¬ f.gives)
    (finding : g = .split ∨ ∃ f ∈ old, f.finds) : Effect g m c old m new [] := by
  have h := Effect.manage (c := c) (.refl m.queues) light plain
    (fun ⟨f, hf, hg⟩ => absurd hg (last f hf)) fun _ => finding
  exact h

theorem Effect.looksOn {f f' : Frame} (light : f.light) (plain : f'.plain) (last : ¬ f'.gives)
    (finds : f.finds) : Effect g m c [f] m [f'] [] :=
  .looks (List.forall_mem_singleton.mpr light) (List.forall_mem_singleton.mpr plain)
    (List.forall_mem_singleton.mpr last) (.inr ⟨f, List.mem_singleton_self f, finds⟩)

namespace Memory

theorem acquire_withQueues (qs : QueuePool Task) (a : BlockId) :
    (m.withQueues qs).acquire a = (m.acquire a).map fun x => (x.1, x.2.withQueues qs) := by
  have hpick : (m.withQueues qs).pick = m.pick.map fun x => (x.1, x.2.withQueues qs) := by
    unfold pick
    rw [withQueues_free, withQueues_used]
    split
    · rfl
    · split_ifs <;> rfl
  unfold acquire
  rw [hpick]
  cases m.pick with
  | none => rfl
  | some x => rfl

/-- What `acquire` does when it hands out slot `r`. -/
structure Acquired (m : Memory Op) (a : BlockId) (r : SlotId) (n : Memory Op) : Prop where
  picked : (m.free = r :: n.free ∧ n.used = m.used) ∨
    (m.free = [] ∧ n.free = [] ∧ (r : ℕ) = m.used ∧ n.used = m.used + 1)
  acquired : n.acquired = m.acquired + 1
  slots : n.slots = Function.update m.slots r { m.slots r with
    completed := false
    retired := false
    block := some a
    status := pending
    size := 0
    provider := none
    providerContext := 0
    state := slotState m.next 1
    token := m.next
    serial := m.acquired }
  blocks : n.blocks = Function.update m.blocks a { m.blocks a with
    signed := true
    slot := some r
    token := m.next }
  queues : n.queues = m.queues

theorem acquire_some {a : BlockId} {r : SlotId} {n : Memory Op} (h : m.acquire a = some (r, n)) :
    Acquired m a r n := by
  unfold acquire at h
  split at h
  · cases h
  · rename_i s p hpick
    cases h
    unfold pick at hpick
    split at hpick
    · rename_i s rest hfree
      cases hpick
      exact ⟨.inl ⟨hfree, rfl⟩, rfl, rfl, rfl, rfl⟩
    · rename_i hfree
      split_ifs at hpick
      cases hpick
      exact ⟨.inr ⟨hfree, hfree, rfl, rfl⟩, rfl, rfl, rfl, rfl⟩

theorem acquire_none {a : BlockId} : m.acquire a = none ↔ m.free = [] ∧ 128 ≤ m.used := by
  unfold acquire pick
  cases hfree : m.free with
  | nil =>
    by_cases hused : m.used < 128
    · simp [hused]
    · simp only [hused, dite_false, true_and, true_iff]
      omega
  | cons r rest => simp

theorem submit_accepted {n : Memory Op} {alloc : Bool} {now delay : ℕ} {r : SlotId} {p : PortId}
    {f : Work} (h : m.submit alloc now r p delay f = .accepted n) :
    ∃ t, (m.queues.owned p).submit now delay (.held r f) = .accepted t ∧
      n = (m.hold r).withQueues (m.queues.setPort p t) ∧ holdsOf (m.slots r).state ≠ 0 ∧
      holdsOf (m.slots r).state ≠ holdMask := by
  unfold submit at h
  dsimp only at h
  split_ifs at h with hcount halloc
  · cases hport : (m.queues.owned p).submit now delay (.held r f) with
    | immediate => simp [hport] at h
    | refused => simp [hport] at h
    | accepted t =>
      simp only [hport, Submitted.accepted.injEq] at h
      exact ⟨t, rfl, h.symm, fun hz => hcount (.inl hz), fun hm => hcount (.inr hm)⟩

theorem submit_immediate {n : Memory Op} {alloc : Bool} {now delay : ℕ} {r : SlotId} {p : PortId}
    {f : Work} (h : m.submit alloc now r p delay f = .immediate n) :
    n = m.hold r ∧ holdsOf (m.slots r).state ≠ 0 ∧ holdsOf (m.slots r).state ≠ holdMask := by
  unfold submit at h
  dsimp only at h
  split_ifs at h with hcount halloc
  · cases hport : (m.queues.owned p).submit now delay (.held r f) with
    | immediate =>
      simp only [hport, Submitted.immediate.injEq] at h
      exact ⟨h.symm, fun hz => hcount (.inl hz), fun hm => hcount (.inr hm)⟩
    | refused => simp [hport] at h
    | accepted t => simp [hport] at h

theorem dispatch_effect {now : ℕ} {p : PortId} {old ran idle : List Frame} {m' : Memory Op}
    {new : List Frame} {ev : List Event} (h : m.dispatch now p ran idle = .next m' new ev)
    (light : ∀ f ∈ old, f.light) (plain : ∀ f ∈ ran, f.plain) (plain' : ∀ f ∈ idle, f.plain)
    (calm : ∀ f ∈ ran, f.calm) (calm' : ∀ f ∈ idle, f.calm) :
    Effect g m c old m' new ev := by
  unfold dispatch at h
  split at h
  · cases h
    exact .idle light plain' calm'
  · rename_i t htake
    cases h
    exact .took light plain calm htake

theorem begin_effect {e : Env} {b : Option BlockId} {id : ℕ} {o : Op} {m' : Memory Op}
    {new : List Frame} {ev : List Event} (h : m.begin e b id o = .next m' new ev) :
    Effect g m c [] m' new ev := by
  cases b with
  | none =>
    cases h
    exact .refuses rfl
  | some a =>
    simp only [begin] at h
    split at h
    · cases h
    · rename_i q qs hresolve
      split at h
      · cases h
        exact .replies (resolve_steady hresolve) rfl
      · rename_i r n hacquire
        rw [acquire_withQueues, Option.map_eq_some_iff] at hacquire
        obtain ⟨⟨r', n'⟩, hacquire, heq⟩ := hacquire
        simp only [Prod.mk.injEq] at heq
        obtain ⟨rfl, rfl⟩ := heq
        split at h
        · cases h
        · rename_i p hport
          have began : Began m a q r' ((n'.withQueues qs).describe r' q (some id) (some o) none 0)
              (some id) (some o) none 0 := ⟨qs, n', hresolve, hacquire, rfl⟩
          split at h
          · cases h
          · rename_i n hsent
            cases h
            exact .beginAccepted began hport hsent
          · rename_i n hsent
            cases h
            exact .beginImmediate began hport hsent
          · cases h
            exact .beginRefused began

theorem providerBegin_effect {b : Option BlockId} {context : ℕ} {id provider : Option ℕ}
    {m' : Memory Op} {new : List Frame} {ev : List Event}
    (h : m.providerBegin b context id provider = .next m' new ev) : Effect g m c [] m' new ev := by
  unfold providerBegin at h
  split at h
  · rename_i a provider
    split at h
    · cases h
      exact .refuses rfl
    · rename_i r n hacquire
      split at h
      · cases h
      · rename_i q qs hresolve
        have hacquired := acquire_some hacquire
        rw [hacquired.queues, hacquired.blocks, Function.update_self] at hresolve
        cases h
        exact .providerBegun ⟨qs, n, hresolve, hacquire, rfl⟩
  · cases h
    exact .refuses rfl

theorem query_effect {b : Option BlockId} {q : Query} {e : Env}
    {m' : Memory Op} {new : List Frame} {ev : List Event} (h : m.query g b q = .next m' new ev)
    (said : c = .call (.query b q) e) : Effect g m c [] m' new ev := by
  unfold query at h
  dsimp only at h
  split at h
  · cases h
    exact .refuses rfl
  · rename_i a
    split at h
    · cases h
      exact .refuses rfl
    · rename_i r hfind
      cases h
      exact .finds said rfl hfind
  · split_ifs at h
    · cases h
      exact .looks (by simp) (by simp) (by simp) (.inl rfl)
    · cases h
      exact .refuses rfl

theorem submitCallback_effect {e : Env} {q : Option QueueId} {p : Port} {delay : ℕ} {f : Option ℕ}
    {m' : Memory Op} {new : List Frame} {ev : List Event}
    (h : m.submitCallback e q p delay f = .next m' new ev) : Effect g m c [] m' new ev := by
  unfold submitCallback at h
  dsimp only at h
  split at h
  · rename_i q x
    split at h
    · cases h
    · rename_i i hport
      split_ifs at h
      · cases h
        exact .refuses rfl
      · split at h
        · cases h
          exact .idle (by simp) (by simp) (by simp)
        · rename_i t hsent
          cases h
          exact .replies (submitCallback_steady hport hsent) rfl
        · cases h
          exact .refuses rfl
  · cases h
    exact .refuses rfl

theorem terminate_effect {e : Env} {q : Option QueueId} {wait : Bool} {f : Option ℕ}
    {m' : Memory Op} {new : List Frame} {ev : List Event}
    (h : m.terminate e q wait f = .next m' new ev) : Effect g m c [] m' new ev := by
  unfold terminate at h
  dsimp only at h
  split at h
  · cases h
    exact .refuses rfl
  · rename_i i
    split at h
    · cases h
      exact .refuses rfl
    · split at h
      · rename_i w k hwork hcompletion
        have hmarked : Steady m.queues (m.queues.markTerminated i) := made_steady rfl rfl
        have hsteady : Steady m.queues ((m.queues.markTerminated i).setPort w
            ((m.queues.markTerminated i).owned w).terminate) :=
          hmarked.trans (setPort_steady (TaskPort.callbacks_terminate _))
        have hplain : ∀ f ∈ [Frame.terminatePort k wait, .returns .queue (.code S_OK)], f.plain :=
          List.forall_mem_cons.mpr ⟨⟨⟨rfl, rfl⟩, rfl, rfl⟩, plain_returns rfl⟩
        have hcalm : ∀ f ∈ [Frame.terminatePort k wait, .returns .queue (.code S_OK)], f.calm :=
          List.forall_mem_cons.mpr ⟨⟨id, id⟩, calm_returns⟩
        have hnone : ∀ f ∈ ([] : List Frame), f.light := List.forall_mem_nil _
        split at h
        · cases h
          exact .steady hsteady hnone hplain hcalm
        · rename_i x
          have hplain' : ∀ f ∈ [Frame.callback x, .terminatePort k wait, .returns .queue (.code S_OK)],
              f.plain := List.forall_mem_cons.mpr ⟨⟨⟨rfl, rfl⟩, rfl, rfl⟩, hplain⟩
          have hcalm' : ∀ f ∈ [Frame.callback x, .terminatePort k wait, .returns .queue (.code S_OK)],
              f.calm := List.forall_mem_cons.mpr ⟨⟨id, id⟩, hcalm⟩
          split at h
          · cases h
            exact .steady hsteady hnone hplain' hcalm'
          · split at h
            · rename_i t hsent
              cases h
              have hport : (((m.queues.markTerminated i).setPort w
                  ((m.queues.markTerminated i).owned w).terminate).made i).port .completion =
                    some k := by
                simp [TaskQueue.port, QueuePool.markTerminated, hcompletion]
              exact .steady (hsteady.trans (submitCallback_steady hport hsent)) hnone hplain hcalm
            · cases h
              exact .steady hsteady hnone hplain' hcalm'
      · cases h

theorem close_effect {e : Env} {q : Option QueueId} {m' : Memory Op} {new : List Frame}
    {ev : List Event} (h : m.close q = .next m' new ev) (said : c = .call (.close q) e) :
    Effect g m c [] m' new ev := by
  unfold close at h
  dsimp only at h
  split at h
  · cases h
    exact .refuses rfl
  · rename_i i
    have hclosed : Steady m.queues (m.queues.close i) := made_steady rfl rfl
    split_ifs at h
    · cases h
      refine .manage (hclosed.trans (releaseQueue_steady _ i)) (by simp) ?_
        (fun _ => ⟨some i, e, said⟩) ?_
      · intro f hf
        simp only [List.mem_append, List.mem_map, Option.mem_toList, List.mem_cons,
          List.not_mem_nil, or_false] at hf
        rcases hf with (⟨p, -, rfl⟩ | ⟨p, -, rfl⟩) | rfl | rfl <;> simp
      · rintro ⟨f, hf, hfinds⟩
        simp only [List.mem_append, List.mem_map, Option.mem_toList, List.mem_cons,
          List.not_mem_nil, or_false] at hf
        rcases hf with (⟨p, -, rfl⟩ | ⟨p, -, rfl⟩) | rfl | rfl <;> simp at hfinds
    · cases h
      exact .replies hclosed rfl

/-- What a call can do. -/
theorem call_effect {e : Env} {x : Call Op} {m' : Memory Op} {new : List Frame}
    {ev : List Event} (h : m.call g e x = .next m' new ev) :
    Effect g m (.call x e) [] m' new ev := by
  cases x with
  | begin b id o => exact begin_effect h
  | providerBegin b context id provider => exact providerBegin_effect h
  | query b q => exact query_effect h rfl
  | dispatch q p =>
    simp only [call] at h
    split at h
    · cases h
      exact .refuses rfl
    · split at h
      · cases h
      · exact dispatch_effect h (List.forall_mem_nil _) (plain_returns rfl) (plain_returns rfl)
          calm_returns calm_returns
  | work p =>
    exact dispatch_effect h (List.forall_mem_nil _) (List.forall_mem_nil _) (List.forall_mem_nil _)
      (List.forall_mem_nil _) (List.forall_mem_nil _)
  | submitCallback q p delay f => exact submitCallback_effect h
  | terminate q wait f => exact terminate_effect h
  | stop =>
    cases h
    exact .idle (by simp) (by simp) (by simp)
  | close q => exact close_effect h rfl
  | createQueue w k =>
    cases h
    exact .replies (createQueue_steady _ w k) rfl
  | createComposite w k =>
    cases h
    exact .adjusts (m.queues.createCompositeQueue_kept _ _).managed (List.forall_mem_nil _)
      (plain_returns rfl) calm_returns (.inr ⟨w, k, e, rfl⟩)
  | duplicate q =>
    simp only [call] at h
    split at h
    · cases h
      exact .refuses rfl
    · cases h
      exact .replies (made_steady rfl rfl) rfl
  | setProcess q =>
    cases h
    have halike : QueuePool.Alike m.queues (m.queues.setProcessQueue q) := ⟨rfl, rfl, rfl, rfl⟩
    exact .replies (halike.steady fun _ hi => hi) rfl
  | prepare b queue callback =>
    cases h
    exact .prepare rfl

theorem foundStep_effect {e : Env} {b : BlockId} {q : Query} {r : SlotId} {m' : Memory Op}
    {new : List Frame} {ev : List Event} (h : m.foundStep e b q r = .next m' new ev) :
    Effect g m c [.found b q r] m' new ev := by
  cases q with
  | result id size used =>
    simp only [foundStep] at h
    split at h
    · cases h
      exact .settles (.inl rfl) fun _ _ _ _ => .inl rfl
    · split at h
      · split at h
        · cases h
          exact .settles (.inl rfl) fun _ _ _ _ => .inr rfl
        · split at h
          · cases h
            exact .proceeds rfl rfl rfl rfl rfl rfl
          · split at h
            · rename_i hprovider
              cases h
              exact .provides rfl rfl rfl rfl rfl rfl hprovider (by simp)
            · cases h
              exact .proceeds rfl rfl rfl rfl rfl rfl
      · cases h
        exact .proceeds rfl rfl rfl rfl rfl rfl
  | resultSize out =>
    simp only [foundStep] at h
    split at h
    · cases h
      exact .settles (.inl rfl) (by simp)
    · split at h
      · cases h
        exact .settles (.inl rfl) (by simp)
      · cases h
        exact .settles (.inl rfl) (by simp)
  | status wait =>
    simp only [foundStep] at h
    split at h
    · cases h
      exact .proceeds rfl rfl rfl rfl rfl rfl
    · cases h
      exact .settles (.inl rfl) (by simp)
  | cancel =>
    simp only [foundStep] at h
    split at h
    · cases h
      exact .proceeds rfl rfl rfl rfl rfl rfl
    · cases h
      exact .proceeds rfl rfl rfl rfl rfl rfl
  | pendingOperation id =>
    cases h
    exact .settles (.inl rfl) (by simp)
  | schedule delay =>
    simp only [foundStep] at h
    split at h
    · cases h
      exact .settles (.inl rfl) (by simp)
    · rename_i hprovider
      rw [Option.isNone_iff_eq_none, ← ne_eq, Option.ne_none_iff_isSome] at hprovider
      split at h
      · cases h
      · rename_i i hqueue
        split at h
        · cases h
        · rename_i p hport
          split at h
          · cases h
          · rename_i n hsent
            cases h
            exact .scheduleAccepted hqueue hport hsent hprovider
          · rename_i n hsent
            cases h
            exact .scheduleImmediate hqueue hport hsent hprovider
          · cases h
            exact .settles (.inl rfl) (by simp)
  | complete hr size =>
    cases h
    exact .proceeds rfl rfl rfl rfl rfl rfl

theorem runStep_effect {r : SlotId} {f : Work} {canceled : Bool} {m' : Memory Op}
    {new : List Frame} {ev : List Event} (h : m.runStep r f canceled = .next m' new ev) :
    Effect g m c [.run r f canceled] m' new ev := by
  cases f with
  | perform =>
    simp only [runStep] at h
    split at h
    · cases h
      exact .proceeds rfl rfl rfl rfl rfl rfl
    · split at h
      · rename_i hcanceled _
        cases h
        rw [Bool.not_eq_true] at hcanceled
        subst hcanceled
        exact .works
      · cases h
  | doWork =>
    simp only [runStep] at h
    split at h
    · rename_i hprovider
      cases h
      exact .provides rfl rfl rfl rfl rfl rfl hprovider (by split <;> simp)
    · cases h
  | announce =>
    simp only [runStep] at h
    split at h
    · rename_i hblock
      cases h
      exact .silent (by simp [hblock])
    · rename_i a hblock
      split at h
      · rename_i hcallback
        cases h
        exact .announces hblock hcallback
      · rename_i hcallback
        cases h
        refine .silent ?_
        intro a' ha'
        rw [hblock, Option.some.injEq] at ha'
        subst ha'
        simpa using hcallback

theorem publishStep_effect {e : Env} {r : SlotId} {a : BlockId} {next : Next} {m' : Memory Op}
    {new : List Frame} {ev : List Event} (h : m.publishStep e r a next = .next m' new ev) :
    Effect g m c [.publish r a next] m' new ev := by
  unfold publishStep at h
  split at h
  · cases h
    exact .publishesNothing (.refl m.queues)
  · rename_i hcallback
    have hcallback : (m.blocks a).callback.isSome = true := by
      simpa [Option.isSome_iff_ne_none] using hcallback
    split at h
    · cases h
    · rename_i q qs hresolve
      split at h
      · cases h
      · rename_i p hport
        split at h
        · cases h
        · rename_i n hsent
          cases h
          exact .publishAccepted hcallback hresolve hport hsent
        · rename_i n hsent
          cases h
          exact .publishImmediate hcallback hresolve hport hsent
        · cases h
          exact .publishesNothing (resolve_steady hresolve)

/-- What the code of the library can do next. -/
theorem go_effect {e : Env} {f : Frame} {m' : Memory Op} {new : List Frame}
    {ev : List Event} (h : m.go e f = some (.next m' new ev)) :
    Effect g m (.go e) [f] m' new ev := by
  cases f with
  | findSlot b q =>
    simp only [go] at h
    split at h
    · cases h
      exact .ends ⟨rfl, rfl⟩ rfl
    · cases h
      exact .looksOn ⟨rfl, rfl⟩ ⟨⟨rfl, rfl⟩, rfl, rfl⟩ id trivial
  | findToken b q r =>
    simp only [go] at h
    split at h
    · cases h
      exact .ends ⟨rfl, rfl⟩ rfl
    · cases h
      exact .looksOn ⟨rfl, rfl⟩ ⟨⟨rfl, rfl⟩, rfl, rfl⟩ id trivial
  | findWord b q r t =>
    cases h
    exact .looksOn ⟨rfl, rfl⟩ ⟨⟨rfl, rfl⟩, rfl, rfl⟩ id trivial
  | findSwap b q r t s =>
    simp only [go] at h
    split at h
    · cases h
      exact .ends ⟨rfl, rfl⟩ rfl
    · rename_i htoken
      split at h
      · rename_i hword
        obtain ⟨rfl, hcertain⟩ := hword
        cases h
        exact .swaps hcertain (by simpa using htoken)
      · cases h
        exact .looksOn ⟨rfl, rfl⟩ ⟨⟨rfl, rfl⟩, rfl, rfl⟩ id trivial
  | found b q r =>
    simp only [go, Option.some.injEq] at h
    exact foundStep_effect h
  | waiting b r =>
    simp only [go] at h
    split at h
    · cases h
      exact .settles (.inr ⟨rfl, rfl⟩) (by simp)
    · cases h
  | resulting b q r => cases h
  | gettingResult b q r => cases h
  | run r f canceled =>
    simp only [go, Option.some.injEq] at h
    exact runStep_effect h
  | working r => cases h
  | providing r op => cases h
  | routine r => cases h
  | finish r hr size next =>
    simp only [go] at h
    split at h
    · rename_i hagain
      cases h
      exact .finishesAgain hagain
    · rename_i hfirst
      rw [Bool.not_eq_true] at hfirst
      split at h
      · rename_i hgone
        cases h
        exact .finishes hfirst hgone
      · rename_i a hblock
        cases h
        exact .finishesBlock hfirst hblock
  | publish r a next =>
    simp only [go, Option.some.injEq] at h
    exact publishStep_effect h
  | retire r b q reply =>
    simp only [go] at h
    split at h
    · rename_i hagain
      cases h
      exact .retiresAgain hagain
    · rename_i hlive
      cases h
      exact .retires (by simpa using hlive)
  | release r owner =>
    simp only [go] at h
    split at h
    · cases h
    · rename_i hsome
      split at h
      · rename_i hlast
        cases h
        exact .releasesLast hlast
      · rename_i hmore
        cases h
        exact .releases hsome hmore
  | dispose r =>
    simp only [go] at h
    split at h
    · cases h
      exact .destroys
    · cases h
      exact .destroysNothing
  | destroying r provider => cases h
  | cleaning r provider =>
    simp only [go] at h
    split at h
    · cases h
      exact .cleansNothing
    · cases h
      exact .cleans
  | cleaned r => cases h
  | recycle r =>
    simp only [go] at h
    split at h
    · cases h
      exact .recycles
    · cases h
  | beginning r b => cases h
  | cleaningFailed r b hr => cases h
  | dropping r b hr =>
    simp only [go] at h
    split at h
    · cases h
      exact .ends ⟨rfl, rfl⟩ rfl
    · rename_i hlive
      cases h
      exact .drops (by simpa using hlive)
  | callback x => cases h
  | returns src reply =>
    cases h
    exact .returns
  | terminatePort p wait =>
    simp only [go, Option.some.injEq] at h
    cases h
    refine .steady (setPort_steady (TaskPort.callbacks_terminate _)) (by simp) ?_ ?_
    · split <;> simp
    · split <;> simp
  | stopPort p =>
    cases h
    exact .steady (setPort_steady (TaskPort.callbacks_stop _))
      (List.forall_mem_singleton.mpr ⟨rfl, rfl⟩)
      (List.forall_mem_singleton.mpr ⟨⟨rfl, rfl⟩, rfl, rfl⟩) (List.forall_mem_singleton.mpr ⟨id, id⟩)
  | drain p =>
    simp only [go, Option.some.injEq] at h
    exact dispatch_effect h (List.forall_mem_singleton.mpr ⟨rfl, rfl⟩)
      (List.forall_mem_singleton.mpr ⟨⟨rfl, rfl⟩, rfl, rfl⟩) (List.forall_mem_nil _)
      (List.forall_mem_singleton.mpr ⟨id, id⟩) (List.forall_mem_nil _)
  | givePorts done =>
    simp only [go] at h
    split at h
    · cases h
      exact .adjusts (m.queues.givePorts_alike done).kept.managed (by simp) (by simp) (by simp)
        (.inl ⟨_, List.mem_singleton_self _, trivial⟩)
    · cases h

/-- What the return of a callback can do. -/
theorem answer_effect {f : Frame} {a : Answer} {m' : Memory Op} {new : List Frame}
    {ev : List Event} (h : m.answer f a = some (.next m' new ev)) :
    Effect g m (.answer a) [f] m' new ev := by
  unfold answer at h
  split at h
  · cases h
    exact .proceeds rfl rfl rfl rfl rfl rfl
  · cases h
    exact .proceeds rfl rfl rfl rfl rfl rfl
  · cases h
    exact .proceeds rfl rfl rfl rfl rfl rfl
  · cases h
    exact .proceeds rfl rfl rfl rfl rfl rfl
  · cases h
    exact .proceeds rfl rfl rfl rfl rfl rfl
  · cases h
    exact .proceeds rfl rfl rfl rfl rfl rfl
  · split_ifs at h
    · cases h
      exact .proceeds rfl rfl rfl rfl rfl rfl
    · cases h
      exact .proceeds rfl rfl rfl rfl rfl rfl
  · cases h
    exact .proceeds rfl rfl rfl rfl rfl rfl
  · cases h
    exact .destroyed
  · cases h
    exact .cleaned
  · split at h
    · rename_i hfails
      split at h
      · rename_i hprovided
        cases h
        exact .failsBegin rfl hfails hprovided
      · cases h
    · cases h
      exact .ends ⟨rfl, rfl⟩ rfl
  · cases h
    exact .cleanedFailed
  · cases h
    exact .idle (List.forall_mem_singleton.mpr ⟨rfl, rfl⟩) (List.forall_mem_nil _)
      (List.forall_mem_nil _)
  · cases h

end Memory

theorem Frame.begins_of_slot {f : Frame} {r : SlotId} (h : f.slot = some r) :
    f.begins = none := by
  cases f <;> first | rfl | cases h

theorem Frame.disposing_of_slot {f : Frame} {r : SlotId} (h : f.slot = some r) :
    f.disposing = none := by
  cases f <;> first | rfl | cases h

theorem Frame.calm_of_slot {f : Frame} {r : SlotId} (h : f.slot = some r) : f.calm := by
  cases f <;> first | exact ⟨id, id⟩ | cases h

theorem Memory.calm_settle (r : SlotId) (b : BlockId) (q : Query) (reply : Reply) :
    ∀ f ∈ m.settle r b q reply, f.calm :=
  List.forall_mem_cons.mpr ⟨⟨id, id⟩, List.forall_mem_singleton.mpr ⟨id, id⟩⟩

theorem Memory.calm_after (r : SlotId) (next : Next) : ∀ f ∈ m.after r next, f.calm := by
  cases next <;> simp [Memory.after, Memory.settle]

theorem Task.calm_frames (t : Task) (canceled : Bool) : ∀ f ∈ t.frames canceled, f.calm := by
  cases t <;> simp [Task.frames]

/-- Ports are given back only after a queue was closed, and a look-up in pieces is never begun where
looking up is one step. -/
theorem Effect.calm {old new : List Frame} {n : Memory Op} {ev : List Event}
    (effect : Effect g m c old n new ev) : ∀ f ∈ new,
      (f.gives → ∃ q e, c = .call (.close q) e) ∧
      (f.finds → g = .split ∨ ∃ f' ∈ old, f'.finds) := by
  have hcalm : (∀ f ∈ new, f.calm) → ∀ f ∈ new, (f.gives → ∃ q e, c = .call (.close q) e) ∧
      (f.finds → g = .split ∨ ∃ f' ∈ old, f'.finds) := fun h f hf =>
    ⟨fun hg => absurd hg (h f hf).1, fun hg => absurd hg (h f hf).2⟩
  cases effect with
  | manage _ _ _ closing finding => exact fun f hf => ⟨fun hg => closing ⟨f, hf, hg⟩,
      fun hg => finding ⟨f, hf, hg⟩⟩
  | adjusts _ _ _ calm => exact hcalm calm
  | prepare => exact hcalm (List.forall_mem_nil _)
  | returns => exact hcalm (List.forall_mem_nil _)
  | @took _ _ _ _ t _ _ calm =>
    refine hcalm fun f hf => ?_
    rcases List.mem_append.mp hf with hf | hf
    · exact Task.calm_frames _ _ f hf
    · exact calm f hf
  | beginAccepted => exact hcalm (List.forall_mem_singleton.mpr ⟨id, id⟩)
  | beginImmediate =>
    exact hcalm (List.forall_mem_cons.mpr ⟨⟨id, id⟩, List.forall_mem_singleton.mpr ⟨id, id⟩⟩)
  | beginRefused =>
    exact hcalm (List.forall_mem_cons.mpr ⟨⟨id, id⟩, List.forall_mem_singleton.mpr ⟨id, id⟩⟩)
  | providerBegun => exact hcalm (List.forall_mem_singleton.mpr ⟨id, id⟩)
  | failsBegin => exact hcalm (List.forall_mem_singleton.mpr ⟨id, id⟩)
  | cleanedFailed => exact hcalm (List.forall_mem_singleton.mpr ⟨id, id⟩)
  | drops =>
    exact hcalm (List.forall_mem_cons.mpr ⟨⟨id, id⟩, List.forall_mem_singleton.mpr ⟨id, id⟩⟩)
  | finds => exact hcalm (List.forall_mem_singleton.mpr ⟨id, id⟩)
  | swaps => exact hcalm (List.forall_mem_singleton.mpr ⟨id, id⟩)
  | settles => exact hcalm (Memory.calm_settle _ _ _ _)
  | proceeds _ slot' => exact hcalm fun f hf => (List.mem_singleton.mp hf) ▸ Frame.calm_of_slot slot'
  | provides _ slot' => exact hcalm fun f hf => (List.mem_singleton.mp hf) ▸ Frame.calm_of_slot slot'
  | works => exact hcalm (List.forall_mem_singleton.mpr ⟨id, id⟩)
  | announces => exact hcalm (List.forall_mem_singleton.mpr ⟨id, id⟩)
  | silent => exact hcalm (List.forall_mem_singleton.mpr ⟨id, id⟩)
  | scheduleAccepted => exact hcalm (Memory.calm_settle _ _ _ _)
  | scheduleImmediate =>
    exact hcalm (List.forall_mem_cons.mpr ⟨⟨id, id⟩, Memory.calm_settle _ _ _ _⟩)
  | finishesAgain => exact hcalm (Memory.calm_after _ _)
  | finishes => exact hcalm (Memory.calm_after _ _)
  | finishesBlock => exact hcalm (List.forall_mem_singleton.mpr ⟨id, id⟩)
  | publishesNothing => exact hcalm (Memory.calm_after _ _)
  | publishAccepted => exact hcalm (Memory.calm_after _ _)
  | publishImmediate =>
    exact hcalm (List.forall_mem_cons.mpr ⟨⟨id, id⟩, Memory.calm_after _ _⟩)
  | retiresAgain => exact hcalm (Memory.calm_settle _ _ _ _)
  | retires => exact hcalm (List.forall_mem_cons.mpr ⟨⟨id, id⟩, Memory.calm_settle _ _ _ _⟩)
  | releases => exact hcalm (List.forall_mem_nil _)
  | releasesLast => exact hcalm (List.forall_mem_singleton.mpr ⟨id, id⟩)
  | destroys => exact hcalm (List.forall_mem_singleton.mpr ⟨id, id⟩)
  | destroysNothing => exact hcalm (List.forall_mem_singleton.mpr ⟨id, id⟩)
  | destroyed => exact hcalm (List.forall_mem_singleton.mpr ⟨id, id⟩)
  | cleansNothing => exact hcalm (List.forall_mem_singleton.mpr ⟨id, id⟩)
  | cleans => exact hcalm (List.forall_mem_singleton.mpr ⟨id, id⟩)
  | cleaned => exact hcalm (List.forall_mem_singleton.mpr ⟨id, id⟩)
  | recycles => exact hcalm (List.forall_mem_nil _)

namespace AsyncThreads

variable {s s' : AsyncThreads Op} {i : ℕ} {ev : List Event}

/-- A step ends the process, or one thread calls, answers or goes on, and replaces the activation on top
of its stack or none. -/
theorem step_moves (h : step g s (i, c) = some (s', ev)) :
    (∃ fault, s' = { s with ended := true } ∧ ev = [.ended fault]) ∨
      ∃ old rest new n, s.threads[i]? = some (old ++ rest) ∧
        s' = { s with memory := n, threads := s.threads.set i (new ++ rest) } ∧
        ((∃ x e, c = .call x e ∧ old = [] ∧ mayCall rest = true ∧
            s.memory.call g e x = .next n new ev) ∨
          (∃ f a, c = .answer a ∧ old = [f] ∧ s.memory.answer f a = some (.next n new ev)) ∨
          ∃ f e, c = .go e ∧ old = [f] ∧ s.memory.go e f = some (.next n new ev)) := by
  simp only [step] at h
  split at h
  · rename_i stack _ hstack
    split at h
    · cases h
    · rename_i fault _
      cases h
      exact .inl ⟨fault, rfl, rfl⟩
    · rename_i rest n new ev' hmove
      cases h
      right
      cases c with
      | call x e =>
        simp only [move] at hmove
        split_ifs at hmove with hmay
        simp only [Option.some.injEq, Prod.mk.injEq] at hmove
        obtain ⟨rfl, hcall⟩ := hmove
        exact ⟨[], stack, new, n, hstack, rfl, .inl ⟨x, e, rfl, rfl, hmay, hcall⟩⟩
      | answer a =>
        cases stack with
        | nil => cases hmove
        | cons f below =>
          simp only [move, Option.map_eq_some_iff, Prod.mk.injEq] at hmove
          obtain ⟨out, hout, rfl, rfl⟩ := hmove
          exact ⟨[f], below, new, n, hstack, rfl, .inr (.inl ⟨f, a, rfl, rfl, hout⟩)⟩
      | go e =>
        cases stack with
        | nil => cases hmove
        | cons f below =>
          simp only [move, Option.map_eq_some_iff, Prod.mk.injEq] at hmove
          obtain ⟨out, hout, rfl, rfl⟩ := hmove
          exact ⟨[f], below, new, n, hstack, rfl, .inr (.inr ⟨f, e, rfl, rfl, hout⟩)⟩
  · cases h

/-- A step ends the process, or it is an effect of one thread on the memory and its own stack, of
which it replaces the activation on top or none. -/
theorem step_top (h : step g s (i, c) = some (s', ev)) :
    (∃ fault, s' = { s with ended := true } ∧ ev = [.ended fault]) ∨
      ∃ old rest new n, s.threads[i]? = some (old ++ rest) ∧ Effect g s.memory c old n new ev ∧
        (old = [] → mayCall rest = true) ∧ (old = [] ∨ ∃ f, old = [f]) ∧
        s' = { s with memory := n, threads := s.threads.set i (new ++ rest) } := by
  rcases step_moves h with hended | ⟨old, rest, new, n, hstack, rfl, ⟨x, e, rfl, rfl, hmay, hcall⟩ |
    ⟨f, a, rfl, rfl, hanswer⟩ | ⟨f, e, rfl, rfl, hgo⟩⟩
  · exact .inl hended
  · exact .inr ⟨[], rest, new, n, hstack, Memory.call_effect hcall, fun _ => hmay, .inl rfl, rfl⟩
  · exact .inr ⟨[f], rest, new, n, hstack, Memory.answer_effect hanswer, by simp, .inr ⟨f, rfl⟩, rfl⟩
  · exact .inr ⟨[f], rest, new, n, hstack, Memory.go_effect hgo, by simp, .inr ⟨f, rfl⟩, rfl⟩

theorem step_cases (h : step g s (i, c) = some (s', ev)) :
    (∃ fault, s' = { s with ended := true } ∧ ev = [.ended fault]) ∨
      ∃ old rest new n, s.threads[i]? = some (old ++ rest) ∧ Effect g s.memory c old n new ev ∧
        (old = [] → mayCall rest = true) ∧
        s' = { s with memory := n, threads := s.threads.set i (new ++ rest) } := by
  rcases step_top h with hended | ⟨old, rest, new, n, hstack, heffect, hmay, -, heq⟩
  · exact .inl hended
  · exact .inr ⟨old, rest, new, n, hstack, heffect, hmay, heq⟩

end AsyncThreads

end Effects

end IW4x.Gdk
