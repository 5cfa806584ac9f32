import IW4x.Gdk.Providers

/-!
# The operation in a slot

A result call casts the operation of a slot to the class that goes with an ID, and a task runs the
operation or the provider of its slot without looking whether it is there. Where every operation is
begun under the ID of its class, both are safe: from the begin of an operation to the end of its last
hold the slot keeps the operation and its ID.
-/

namespace IW4x.Gdk

open Runs

variable {Op : Type}

/-- What a task or a call uses of a slot. -/
inductive Part where
  | operation
  | provider
  deriving DecidableEq, Repr

/-- What is in a slot, from `begin` or `provider_begin` to `dispose`. -/
def AsyncState.body (s : AsyncState Op) : Option Op × Option ℕ × Option ℕ :=
  (s.operation, s.id, s.provider)

def AsyncState.has (s : AsyncState Op) : Part → Bool
  | .operation => s.operation.isSome
  | .provider => s.provider.isSome

def Task.uses : Task → Option (SlotId × Part)
  | .held r .perform => some (r, .operation)
  | .held r .doWork => some (r, .provider)
  | _ => none

def Frame.uses : Frame → Option (SlotId × Part)
  | .run r .perform _ => some (r, .operation)
  | .run r .doWork _ => some (r, .provider)
  | .working r => some (r, .operation)
  | .resulting _ _ r => some (r, .operation)
  | .providing r _ => some (r, .provider)
  | .gettingResult _ _ r => some (r, .provider)
  | _ => none

theorem Frame.slot_of_uses {f : Frame} {x : SlotId × Part} (h : f.uses = some x) :
    f.slot = some x.1 := by
  cases f with
  | run r f canceled =>
    cases f with
    | announce => cases h
    | _ => cases h; rfl
  | working => cases h; rfl
  | resulting => cases h; rfl
  | providing => cases h; rfl
  | gettingResult => cases h; rfl
  | _ => cases h

theorem Task.slot_of_uses {t : Task} {x : SlotId × Part} (h : t.uses = some x) :
    t.slot = some x.1 := by
  cases t with
  | held r f =>
    cases f with
    | announce => cases h
    | _ => cases h; rfl
  | callback => cases h

theorem Task.uses_frames {t : Task} {canceled : Bool} {f : Frame} (hf : f ∈ t.frames canceled) :
    f.uses = t.uses := by
  cases t with
  | held r w =>
    rw [List.mem_singleton.mp hf]
    cases w <;> rfl
  | callback =>
    rw [List.mem_singleton.mp hf]
    rfl

def Memory.Has (m : Memory Op) (x : SlotId × Part) : Prop := (m.slots x.1).has x.2 = true

/-- Every part that an activation uses is there. -/
def Supplied (m : Memory Op) (fs : List Frame) : Prop := ∀ f ∈ fs, ∀ x, f.uses = some x → m.Has x

/-- Every part that a queued task uses is there. -/
def Provisioned (m : Memory Op) : Prop :=
  ∀ p, ∀ t ∈ (m.queues.owned p).callbacks, ∀ x, t.uses = some x → m.Has x

/-! ## Slots that stay as they are -/

/-- No slot was handed out, and each has the same in it. -/
structure SameBodies (m n : Memory Op) : Prop where
  used : n.used = m.used
  free : n.free = m.free
  body : ∀ r, (n.slots r).body = (m.slots r).body

theorem SameBodies.refl (m : Memory Op) : SameBodies m m := ⟨rfl, rfl, fun _ => rfl⟩

theorem SameBodies.trans {m n o : Memory Op} (h : SameBodies m n) (h' : SameBodies n o) :
    SameBodies m o :=
  ⟨h'.used.trans h.used, h'.free.trans h.free, fun r => (h'.body r).trans (h.body r)⟩

theorem AsyncState.has_of_body {s t : AsyncState Op} (h : t.body = s.body) (x : Part) :
    t.has x = s.has x := by
  simp only [AsyncState.body, Prod.mk.injEq] at h
  cases x with
  | operation => rw [AsyncState.has, AsyncState.has, h.1]
  | provider => rw [AsyncState.has, AsyncState.has, h.2.2]

theorem SameBodies.has {m n : Memory Op} (h : SameBodies m n) (x : SlotId × Part) :
    n.Has x ↔ m.Has x := by
  rw [Memory.Has, Memory.Has, AsyncState.has_of_body (h.body x.1)]

theorem sameBodies_setSlot {m : Memory Op} {r : SlotId} {s : AsyncState Op}
    (body : s.body = (m.slots r).body) : SameBodies m (m.setSlot r s) := by
  refine ⟨rfl, rfl, ?_⟩
  intro i
  by_cases hi : i = r
  · subst hi
    simpa using body
  · simp [hi]

theorem sameBodies_withQueues (m : Memory Op) (q : QueuePool Task) :
    SameBodies m (m.withQueues q) := ⟨rfl, rfl, fun _ => rfl⟩

theorem sameBodies_hold (m : Memory Op) (r : SlotId) : SameBodies m (m.hold r) :=
  sameBodies_setSlot rfl

theorem sameBodies_drop (m : Memory Op) (r : SlotId) : SameBodies m (m.drop r) := by
  refine ⟨rfl, rfl, ?_⟩
  intro i
  by_cases hi : i = r
  · subst hi; simp [Memory.drop, AsyncState.body]
  · simp [Memory.drop, hi]

theorem sameBodies_complete (m : Memory Op) (r : SlotId) (hr : HResult) (size : ℕ) :
    SameBodies m (m.complete r hr size) :=
  sameBodies_setSlot rfl

theorem sameBodies_retireSlot (m : Memory Op) (r : SlotId) : SameBodies m (m.retireSlot r) := by
  have hset : SameBodies m (m.setSlot r { m.slots r with retired := true, block := none }) :=
    sameBodies_setSlot rfl
  unfold Memory.retireSlot
  dsimp only
  split
  · exact hset
  · exact ⟨hset.used, hset.free, hset.body⟩

theorem sameBodies_accepted {m n : Memory Op} {alloc : Bool} {now delay : ℕ} {r : SlotId}
    {p : PortId} {f : Work} (sent : m.submit alloc now r p delay f = .accepted n) :
    SameBodies m n := by
  obtain ⟨t, -, rfl, -⟩ := Memory.submit_accepted sent
  exact (sameBodies_hold m r).trans (sameBodies_withQueues _ _)

theorem sameBodies_immediate {m n : Memory Op} {alloc : Bool} {now delay : ℕ} {r : SlotId}
    {p : PortId} {f : Work} (sent : m.submit alloc now r p delay f = .immediate n) :
    SameBodies m n := by
  obtain ⟨rfl, -⟩ := Memory.submit_immediate sent
  exact sameBodies_hold m r

/-! ## What a step does to the slots -/

def Said (x : Call Op) (a : BlockId) (id : Option ℕ) (o : Option Op) (provider : Option ℕ) : Prop :=
  (∃ id' o', x = .begin (some a) id' o' ∧ id = some id' ∧ o = some o' ∧ provider = none) ∨
    o = none ∧ provider.isSome = true

/-- What a step means for what is in the slots. -/
inductive BodyEffect (m : Memory Op) (c : Choice Op) : List Frame → Memory Op → List Frame → Prop
  | quiet {old n new} (used : n.used = m.used) (body : ∀ r, (n.slots r).body = (m.slots r).body)
      (gone : ∀ i, n.free.count i + Stacks.weight (Frame.stripped i) new =
        m.free.count i + Stacks.weight (Frame.stripped i) old) : BodyEffect m c old n new
  | strips {r f} (left : ∃ provider, f = .destroying r provider ∨ f = .cleaning r provider) :
      BodyEffect m c [.dispose r] (m.strip r) [f]
  | begun {x e a q r n₀ id o provider context n new} (call : c = .call x e)
      (began : Began m a q r n₀ id o provider context) (same : SameBodies n₀ n)
      (said : Said x a id o provider) (away : ∀ f ∈ new, f.disposing = none) :
      BodyEffect m c [] n new

section Effects

variable {g : Granularity} {m n : Memory Op} {c : Choice Op} {old new : List Frame}
  {ev : List Event}

theorem BodyEffect.away (same : SameBodies m n) (away : ∀ f ∈ old, f.disposing = none)
    (away' : ∀ f ∈ new, f.disposing = none) : BodyEffect m c old n new := by
  refine .quiet same.used same.body ?_
  intro i
  rw [weight_stripped_away away, weight_stripped_away away', same.free]

theorem BodyEffect.calls (same : SameBodies m n) (away : ∀ f ∈ new, f.disposing = none) :
    BodyEffect m c [] n new := .away same (List.forall_mem_nil _) away

theorem Memory.begin_body {e : Env} {b : Option BlockId} {id : ℕ} {o : Op} {k : Env}
    (h : m.begin e b id o = .next n new ev) : BodyEffect m (.call (.begin b id o) k) [] n new := by
  cases b with
  | none =>
    cases h
    exact .calls (.refl m) (by simp [Frame.disposing])
  | some a =>
    simp only [Memory.begin] at h
    split at h
    · cases h
    · rename_i q qs hresolve
      split at h
      · cases h
        exact .calls (sameBodies_withQueues m qs) (by simp [Frame.disposing])
      · rename_i r n hacquire
        rw [Memory.acquire_withQueues, Option.map_eq_some_iff] at hacquire
        obtain ⟨⟨r', n'⟩, hacquire, heq⟩ := hacquire
        simp only [Prod.mk.injEq] at heq
        obtain ⟨rfl, rfl⟩ := heq
        have hbegan : Began m a q r' ((n'.withQueues qs).describe r' q (some id) (some o) none 0)
            (some id) (some o) none 0 := ⟨qs, n', hresolve, hacquire, rfl⟩
        have hsaid : Said (.begin (some a) id o) a (some id) (some o) none :=
          .inl ⟨id, o, rfl, rfl, rfl, rfl⟩
        split at h
        · cases h
        · split at h
          · cases h
          · rename_i n hsent
            cases h
            exact .begun rfl hbegan (sameBodies_accepted hsent) hsaid (by simp [Frame.disposing])
          · rename_i n hsent
            cases h
            exact .begun rfl hbegan (sameBodies_immediate hsent) hsaid (by simp [Frame.disposing])
          · cases h
            exact .begun rfl hbegan (sameBodies_retireSlot _ _) hsaid (by simp [Frame.disposing])

theorem Memory.providerBegin_body {b : Option BlockId} {context : ℕ} {id provider : Option ℕ}
    {e : Env} (h : m.providerBegin b context id provider = .next n new ev) :
    BodyEffect m (.call (.providerBegin b context id provider) e) [] n new := by
  unfold Memory.providerBegin at h
  split at h
  · rename_i a provider
    split at h
    · cases h
      exact .calls (.refl m) (by simp [Frame.disposing])
    · rename_i r n hacquire
      split at h
      · cases h
      · rename_i q qs hresolve
        have hacquired := Memory.acquire_some hacquire
        rw [hacquired.queues, hacquired.blocks, Function.update_self] at hresolve
        cases h
        exact .begun rfl ⟨qs, n, hresolve, hacquire, rfl⟩ (.refl _) (.inr ⟨rfl, rfl⟩)
          (by simp [Frame.disposing])
  · cases h
    exact .calls (.refl m) (by simp [Frame.disposing])

theorem Memory.dispatch_body {now : ℕ} {p : PortId} {ran idle : List Frame}
    (h : m.dispatch now p ran idle = .next n new ev) (off : ∀ f ∈ old, f.disposing = none)
    (away : ∀ f ∈ ran, f.disposing = none) (away' : ∀ f ∈ idle, f.disposing = none) :
    BodyEffect m c old n new := by
  unfold Memory.dispatch at h
  split at h
  · cases h
    exact .away (.refl m) off away'
  · cases h
    refine .away (sameBodies_withQueues m _) off ?_
    intro f hf
    rcases List.mem_append.mp hf with hf | hf
    · exact Task.disposing_frames _ _ f hf
    · exact away f hf

theorem disposing_returns (src : Source) (reply : Reply) :
    ∀ f ∈ [Frame.returns src reply], f.disposing = none :=
  List.forall_mem_singleton.mpr rfl

/-- What a call does to the slots. -/
theorem Memory.call_body {e : Env} {x : Call Op} (h : m.call g e x = .next n new ev) :
    BodyEffect m (.call x e) [] n new := by
  cases x with
  | begin b id o => exact Memory.begin_body h
  | providerBegin b context id provider => exact Memory.providerBegin_body h
  | query b q =>
    simp only [Memory.call, Memory.query] at h
    split at h
    · cases h
      exact .calls (.refl m) (disposing_returns _ _)
    · split at h
      · cases h
        exact .calls (.refl m) (disposing_returns _ _)
      · cases h
        exact .calls (sameBodies_hold m _) (List.forall_mem_singleton.mpr rfl)
    · split_ifs at h
      · cases h
        exact .calls (.refl m) (List.forall_mem_singleton.mpr rfl)
      · cases h
        exact .calls (.refl m) (disposing_returns _ _)
  | dispatch q p =>
    simp only [Memory.call] at h
    split at h
    · cases h
      exact .calls (.refl m) (disposing_returns _ _)
    · split at h
      · cases h
      · exact Memory.dispatch_body h (List.forall_mem_nil _) (disposing_returns _ _)
          (disposing_returns _ _)
  | work p =>
    exact Memory.dispatch_body h (List.forall_mem_nil _) (List.forall_mem_nil _)
      (List.forall_mem_nil _)
  | submitCallback q p delay f =>
    simp only [Memory.call, Memory.submitCallback] at h
    split at h
    · split at h
      · cases h
      · split_ifs at h
        · cases h
          exact .calls (.refl m) (disposing_returns _ _)
        · split at h
          · cases h
            exact .calls (.refl m) (by simp [Frame.disposing])
          · cases h
            exact .calls (sameBodies_withQueues m _) (disposing_returns _ _)
          · cases h
            exact .calls (.refl m) (disposing_returns _ _)
    · cases h
      exact .calls (.refl m) (disposing_returns _ _)
  | terminate q wait f =>
    simp only [Memory.call, Memory.terminate] at h
    split at h
    · cases h
      exact .calls (.refl m) (disposing_returns _ _)
    · split at h
      · cases h
        exact .calls (.refl m) (disposing_returns _ _)
      · split at h
        · split at h
          · cases h
            exact .calls (sameBodies_withQueues m _) (by simp [Frame.disposing])
          · split at h
            · cases h
              exact .calls (sameBodies_withQueues m _) (by simp [Frame.disposing])
            · split at h
              · cases h
                exact .calls (sameBodies_withQueues m _) (by simp [Frame.disposing])
              · cases h
                exact .calls (sameBodies_withQueues m _) (by simp [Frame.disposing])
        · cases h
  | stop =>
    cases h
    exact .calls (.refl m) (by simp [Frame.disposing])
  | close q =>
    simp only [Memory.call, Memory.close] at h
    split at h
    · cases h
      exact .calls (.refl m) (disposing_returns _ _)
    · split_ifs at h
      · cases h
        refine .calls (sameBodies_withQueues m _) ?_
        intro f hf
        simp only [List.mem_append, List.mem_map, Option.mem_toList, List.mem_cons,
          List.not_mem_nil, or_false] at hf
        rcases hf with (⟨p, -, rfl⟩ | ⟨p, -, rfl⟩) | rfl | rfl <;> rfl
      · cases h
        exact .calls (sameBodies_withQueues m _) (disposing_returns _ _)
  | createQueue w k =>
    cases h
    exact .calls (sameBodies_withQueues m _) (disposing_returns _ _)
  | createComposite w k =>
    cases h
    exact .calls (sameBodies_withQueues m _) (disposing_returns _ _)
  | duplicate q =>
    simp only [Memory.call] at h
    split at h
    · cases h
      exact .calls (.refl m) (disposing_returns _ _)
    · cases h
      exact .calls (sameBodies_withQueues m _) (disposing_returns _ _)
  | setProcess q =>
    cases h
    exact .calls (sameBodies_withQueues m _) (disposing_returns _ _)
  | prepare b queue callback =>
    cases h
    exact .calls ⟨rfl, rfl, fun _ => rfl⟩ (List.forall_mem_nil _)

/-- Where nothing is begun, the memory stays but for the end of a slot. -/
theorem Effect.body {f : Frame} (effect : Effect g m c [f] n new ev) :
    BodyEffect m c [f] n new := by
  have hslot : ∀ {f : Frame} {r : SlotId}, f.slot = some r → ∀ f' ∈ [f], f'.disposing = none :=
    fun h => List.forall_mem_singleton.mpr (Frame.disposing_of_slot h)
  have hoff : ∀ {r : SlotId}, f.slot = some r → ∀ f' ∈ [f], f'.disposing = none := hslot
  cases effect with
  | manage _ light plain =>
    exact .away (sameBodies_withQueues m _) (fun f hf => (light f hf).2)
      fun f hf => (plain f hf).1.2
  | adjusts _ light plain =>
    exact .away (sameBodies_withQueues m _) (fun f hf => (light f hf).2)
      fun f hf => (plain f hf).1.2
  | returns => exact .away (.refl m) (disposing_returns _ _) (List.forall_mem_nil _)
  | @took _ ran p now t light plain =>
    refine .away (sameBodies_withQueues m _) (fun f hf => (light f hf).2) ?_
    intro f hf
    rcases List.mem_append.mp hf with hf | hf
    · exact Task.disposing_frames _ _ f hf
    · exact (plain f hf).1.2
  | failsBegin =>
    exact .away (.refl m) (List.forall_mem_singleton.mpr rfl) (List.forall_mem_singleton.mpr rfl)
  | cleanedFailed =>
    exact .away (.refl m) (List.forall_mem_singleton.mpr rfl) (List.forall_mem_singleton.mpr rfl)
  | drops =>
    exact .away (sameBodies_retireSlot m _) (List.forall_mem_singleton.mpr rfl)
      (by simp [Frame.disposing])
  | swaps =>
    exact .away (sameBodies_hold m _) (List.forall_mem_singleton.mpr rfl)
      (List.forall_mem_singleton.mpr rfl)
  | settles call =>
    refine .away (.refl m) ?_ (m.disposing_settle _ _ _ _)
    rcases call with rfl | ⟨rfl, -⟩ <;> exact List.forall_mem_singleton.mpr rfl
  | proceeds slot slot' => exact .away (.refl m) (hslot slot) (hslot slot')
  | provides slot slot' => exact .away (.refl m) (hslot slot) (hslot slot')
  | works =>
    exact .away (.refl m) (List.forall_mem_singleton.mpr rfl) (List.forall_mem_singleton.mpr rfl)
  | announces =>
    exact .away (.refl m) (List.forall_mem_singleton.mpr rfl) (List.forall_mem_singleton.mpr rfl)
  | silent =>
    exact .away (.refl m) (List.forall_mem_singleton.mpr rfl) (List.forall_mem_singleton.mpr rfl)
  | scheduleAccepted _ _ sent =>
    exact .away (sameBodies_accepted sent) (hoff rfl) (m.disposing_settle _ _ _ _)
  | scheduleImmediate _ _ sent =>
    exact .away (sameBodies_immediate sent) (hoff rfl)
      (List.forall_mem_cons.mpr ⟨rfl, m.disposing_settle _ _ _ _⟩)
  | finishesAgain => exact .away (.refl m) (hoff rfl) (m.disposing_after _ _)
  | finishes => exact .away (sameBodies_complete m _ _ _) (hoff rfl) (m.disposing_after _ _)
  | finishesBlock =>
    exact .away (sameBodies_complete m _ _ _) (hoff rfl) (List.forall_mem_singleton.mpr rfl)
  | publishesNothing =>
    exact .away (sameBodies_withQueues m _) (hoff rfl) (m.disposing_after _ _)
  | publishAccepted _ _ _ sent =>
    exact .away ((sameBodies_withQueues m _).trans (sameBodies_accepted sent)) (hoff rfl)
      (m.disposing_after _ _)
  | publishImmediate _ _ _ sent =>
    exact .away ((sameBodies_withQueues m _).trans (sameBodies_immediate sent)) (hoff rfl)
      (List.forall_mem_cons.mpr ⟨rfl, m.disposing_after _ _⟩)
  | retiresAgain => exact .away (.refl m) (hoff rfl) (m.disposing_settle _ _ _ _)
  | retires =>
    exact .away (sameBodies_retireSlot m _) (hoff rfl)
      (List.forall_mem_cons.mpr ⟨rfl, m.disposing_settle _ _ _ _⟩)
  | releases => exact .away (sameBodies_drop m _) (hoff rfl) (List.forall_mem_nil _)
  | releasesLast =>
    refine .quiet rfl (sameBodies_drop m _).body ?_
    intro i
    rfl
  | destroys => exact .strips ⟨_, .inl rfl⟩
  | destroysNothing => exact .strips ⟨_, .inr rfl⟩
  | destroyed => exact .quiet rfl (fun _ => rfl) fun _ => rfl
  | cleansNothing => exact .quiet rfl (fun _ => rfl) fun _ => rfl
  | cleans => exact .quiet rfl (fun _ => rfl) fun _ => rfl
  | cleaned => exact .quiet rfl (fun _ => rfl) fun _ => rfl
  | @recycles r =>
    refine .quiet rfl ?_ ?_
    · intro i
      by_cases hi : i = r
      · subst hi; simp [Memory.recycle, AsyncState.body]
      · simp [Memory.recycle, hi]
    · intro i
      simp only [Memory.recycle, List.count_cons, Stacks.weight_cons, Stacks.weight_nil,
        Frame.stripped, beq_iff_eq, Nat.add_zero]

/-! ## What an activation or a task uses is there -/

theorem Managed.task {p q : QueuePool Task} (managed : Managed p q) {t : Task} {x : SlotId × Part}
    (uses : t.uses = some x) {i : PortId} (ht : t ∈ (q.owned i).callbacks) :
    t ∈ (p.owned i).callbacks := by
  cases t with
  | held r f => exact managed.tasks i r f ht
  | callback => cases uses

theorem Memory.task_accepted {alloc : Bool} {now delay : ℕ} {r : SlotId} {p i : PortId} {f : Work}
    (sent : m.submit alloc now r p delay f = .accepted n) {t : Task}
    (ht : t ∈ (n.queues.owned i).callbacks) :
    t ∈ (m.queues.owned i).callbacks ∨ t = .held r f := by
  obtain ⟨port, hport, rfl, -⟩ := Memory.submit_accepted sent
  obtain ⟨hcallbacks, -⟩ := TaskPort.submit_accepted hport
  by_cases hi : i = p
  · subst hi
    simpa [hcallbacks, Memory.hold] using ht
  · simp only [Memory.withQueues_queues, QueuePool.setPort_owned, Function.update_of_ne hi] at ht
    exact .inl ht

theorem Began.has {a : BlockId} {q : QueueId} {r : SlotId} {id : Option ℕ} {o : Op}
    {provider : Option ℕ} {context : ℕ} (began : Began m a q r n id (some o) provider context) :
    n.Has (r, .operation) := by
  obtain ⟨qs, acquired, -, -, rfl⟩ := began
  simp [Memory.Has, AsyncState.has, Memory.describe]

theorem Began.managed {a : BlockId} {q : QueueId} {r : SlotId} {id : Option ℕ} {o : Option Op}
    {provider : Option ℕ} {context : ℕ} (began : Began m a q r n id o provider context) :
    Managed m.queues n.queues := by
  obtain ⟨qs, acquired, hresolve, -, rfl⟩ := began
  exact (resolve_steady hresolve).toManaged

/-- A task that is queued has been queued, or its part is there when it is. -/
theorem Effect.queued (effect : Effect g m c old n new ev) {i : PortId} {t : Task}
    {x : SlotId × Part} (uses : t.uses = some x) (ht : t ∈ (n.queues.owned i).callbacks) :
    t ∈ (m.queues.owned i).callbacks ∨ n.Has x := by
  have hsame : n.queues = m.queues → t ∈ (m.queues.owned i).callbacks ∨ n.Has x := by
    intro hqueues
    rw [hqueues] at ht
    exact .inl ht
  cases effect with
  | manage kept => exact .inl (kept.toManaged.task uses ht)
  | adjusts kept => exact .inl (kept.task uses ht)
  | @took _ _ p _ taken _ _ _ htaken =>
    obtain ⟨hperm, -⟩ := TaskPort.take_spec htaken
    by_cases hi : i = p
    · subst hi
      left
      rw [hperm.mem_iff]
      simp only [Memory.withQueues_queues, QueuePool.setPort_owned, Function.update_self] at ht
      exact List.mem_cons_of_mem _ ht
    · simp only [Memory.withQueues_queues, QueuePool.setPort_owned, Function.update_of_ne hi] at ht
      exact .inl ht
  | beginAccepted began port sent =>
    rcases Memory.task_accepted sent ht with ht | rfl
    · exact .inl (began.managed.task uses ht)
    · cases uses
      exact .inr (((sameBodies_accepted sent).has _).mpr began.has)
  | beginImmediate began port sent =>
    obtain ⟨rfl, -⟩ := Memory.submit_immediate sent
    exact .inl (began.managed.task uses ht)
  | beginRefused began =>
    rw [retireSlot_queues] at ht
    exact .inl (began.managed.task uses ht)
  | providerBegun began => exact .inl (began.managed.task uses ht)
  | drops => exact hsame (retireSlot_queues m _)
  | scheduleAccepted _ _ sent provided =>
    rcases Memory.task_accepted sent ht with ht | rfl
    · exact .inl ht
    · cases uses
      exact .inr (((sameBodies_accepted sent).has _).mpr provided)
  | scheduleImmediate _ _ sent =>
    obtain ⟨rfl, -⟩ := Memory.submit_immediate sent
    exact hsame rfl
  | publishesNothing kept => exact .inl (kept.toManaged.task uses ht)
  | publishAccepted _ resolved _ sent =>
    rcases Memory.task_accepted sent ht with ht | rfl
    · exact .inl ((resolve_steady resolved).toManaged.task uses ht)
    · cases uses
  | publishImmediate _ resolved _ sent =>
    obtain ⟨rfl, -⟩ := Memory.submit_immediate sent
    exact .inl ((resolve_steady resolved).toManaged.task uses ht)
  | retires => exact hsame (retireSlot_queues m _)
  | _ => exact hsame rfl

attribute [local simp] Frame.uses Memory.settle

theorem supplied_of_none (h : ∀ f ∈ new, f.uses = none) : Supplied m new := by
  intro f hf x hx
  rw [h f hf] at hx
  cases hx

theorem supplied_settle (r : SlotId) (b : BlockId) (q : Query) (reply : Reply) :
    Supplied n (m.settle r b q reply) :=
  supplied_of_none (by simp)

theorem supplied_after (r : SlotId) (next : Next) : Supplied n (m.after r next) := by
  apply supplied_of_none
  cases next <;> simp [Memory.after]

theorem Supplied.cons {f : Frame} (first : ∀ x, f.uses = some x → m.Has x) (rest : Supplied m new) :
    Supplied m (f :: new) :=
  List.forall_mem_cons.mpr ⟨first, rest⟩

theorem Memory.dispatch_uses {now : ℕ} {p : PortId} {ran idle : List Frame}
    (h : m.dispatch now p ran idle = .next n new ev) (tasks : Provisioned m)
    (unused : ∀ f ∈ ran, f.uses = none) (unused' : ∀ f ∈ idle, f.uses = none) : Supplied n new := by
  unfold Memory.dispatch at h
  split at h
  · cases h
    exact supplied_of_none unused'
  · rename_i t htake
    cases h
    intro f hf x hx
    rcases List.mem_append.mp hf with hf | hf
    · rw [Task.uses_frames hf] at hx
      apply tasks p t.item.callback _ x hx
      rw [(TaskPort.take_spec htake).1.mem_iff]
      exact List.mem_cons_self
    · rw [unused f hf] at hx
      cases hx

theorem Frame.uses_of_plain {f : Frame} (plain : f.plain) : f.uses = none := by
  cases huses : f.uses with
  | none => rfl
  | some x =>
    have hslot := Frame.slot_of_uses huses
    rw [plain.1.1] at hslot
    cases hslot

/-- What a call sets going finds what it uses. -/
theorem Effect.call_uses (effect : Effect g m c [] n new ev) (tasks : Provisioned m) :
    Supplied n new := by
  cases effect with
  | manage _ _ plain => exact supplied_of_none fun f hf => Frame.uses_of_plain (plain f hf)
  | adjusts _ _ plain => exact supplied_of_none fun f hf => Frame.uses_of_plain (plain f hf)
  | prepare => exact supplied_of_none (List.forall_mem_nil _)
  | @took _ _ p _ t _ plain _ taken =>
    intro f hf x hx
    rcases List.mem_append.mp hf with hf | hf
    · rw [Task.uses_frames hf] at hx
      apply tasks p t.item.callback _ x hx
      rw [(TaskPort.take_spec taken).1.mem_iff]
      exact List.mem_cons_self
    · rw [Frame.uses_of_plain (plain f hf)] at hx
      cases hx
  | beginAccepted => exact supplied_of_none (by simp)
  | beginImmediate began _ sent =>
    refine .cons ?_ (supplied_of_none (by simp))
    rintro x ⟨⟩
    exact ((sameBodies_immediate sent).has _).mpr began.has
  | beginRefused => exact supplied_of_none (by simp)
  | providerBegun => exact supplied_of_none (by simp)
  | finds => exact supplied_of_none (by simp)

theorem Memory.answer_uses {f : Frame} {a : Answer} (h : m.answer f a = some (.next n new ev)) :
    Supplied n new := by
  apply supplied_of_none
  unfold Memory.answer at h
  split at h
  all_goals first
    | (cases h <;> simp)
    | (split_ifs at h <;> cases h <;> simp)

theorem Memory.found_uses {e : Env} {b : BlockId} {q : Query} {r : SlotId}
    (h : m.foundStep e b q r = .next n new ev) : Supplied n new := by
  cases q with
  | result id size used =>
    simp only [Memory.foundStep] at h
    split_ifs at h with hpending hsucceeded hid hoperation hprovider
    · cases h
      exact supplied_settle _ _ _ _
    · cases h
      exact supplied_settle _ _ _ _
    · cases h
      refine .cons ?_ (supplied_of_none (List.forall_mem_nil _))
      rintro x ⟨⟩
      exact hoperation
    · cases h
      refine .cons ?_ (supplied_of_none (List.forall_mem_nil _))
      rintro x ⟨⟩
      exact hprovider
    · cases h
      exact supplied_of_none (by simp)
    · cases h
      exact supplied_of_none (by simp)
  | resultSize out =>
    simp only [Memory.foundStep] at h
    split_ifs at h <;> cases h <;> exact supplied_settle _ _ _ _
  | status wait =>
    simp only [Memory.foundStep] at h
    split at h
    · cases h
      exact supplied_of_none (by simp)
    · cases h
      exact supplied_settle _ _ _ _
  | cancel =>
    simp only [Memory.foundStep] at h
    split_ifs at h <;> cases h <;> exact supplied_of_none (by simp)
  | pendingOperation id =>
    cases h
    exact supplied_settle _ _ _ _
  | schedule delay =>
    simp only [Memory.foundStep] at h
    split at h
    · cases h
      exact supplied_settle _ _ _ _
    · rename_i hprovider
      split at h
      · cases h
      · split at h
        · cases h
        · split at h
          · cases h
          · cases h
            exact supplied_settle _ _ _ _
          · rename_i n hsent
            cases h
            refine .cons ?_ (supplied_settle _ _ _ _)
            rintro x ⟨⟩
            rw [(sameBodies_immediate hsent).has]
            rw [Option.isNone_iff_eq_none, ← ne_eq, Option.ne_none_iff_isSome] at hprovider
            exact hprovider
          · cases h
            exact supplied_settle _ _ _ _
  | complete hr size =>
    cases h
    exact supplied_of_none (by simp)

theorem Memory.run_uses {r : SlotId} {f : Work} {canceled : Bool}
    (h : m.runStep r f canceled = .next n new ev) : Supplied n new := by
  cases f with
  | perform =>
    simp only [Memory.runStep] at h
    split_ifs at h with _ hoperation
    · cases h
      exact supplied_of_none (by simp)
    · cases h
      refine .cons ?_ (supplied_of_none (List.forall_mem_nil _))
      rintro x ⟨⟩
      exact hoperation
  | doWork =>
    simp only [Memory.runStep] at h
    split at h
    · rename_i hprovider
      cases h
      refine .cons ?_ (supplied_of_none (List.forall_mem_nil _))
      rintro x ⟨⟩
      exact hprovider
    · cases h
  | announce =>
    simp only [Memory.runStep] at h
    split at h
    · cases h
      exact supplied_of_none (by simp)
    · split_ifs at h <;> cases h <;> exact supplied_of_none (by simp)

theorem Memory.publish_uses {e : Env} {r : SlotId} {a : BlockId} {next : Next}
    (h : m.publishStep e r a next = .next n new ev) : Supplied n new := by
  unfold Memory.publishStep at h
  split at h
  · cases h
    exact supplied_after _ _
  · split at h
    · cases h
    · split at h
      · cases h
      · split at h
        · cases h
        · cases h
          exact supplied_after _ _
        · cases h
          exact .cons (by simp) (supplied_after _ _)
        · cases h
          exact supplied_after _ _

/-- What the code of the library sets going finds what it uses. -/
theorem Memory.go_uses {e : Env} {f : Frame} (h : m.go e f = some (.next n new ev))
    (tasks : Provisioned m) : Supplied n new := by
  cases f with
  | found b q r =>
    simp only [Memory.go, Option.some.injEq] at h
    exact Memory.found_uses h
  | run r f canceled =>
    simp only [Memory.go, Option.some.injEq] at h
    exact Memory.run_uses h
  | publish r a next =>
    simp only [Memory.go, Option.some.injEq] at h
    exact Memory.publish_uses h
  | drain p =>
    simp only [Memory.go, Option.some.injEq] at h
    exact Memory.dispatch_uses h tasks (by simp) (by simp)
  | waiting b r =>
    simp only [Memory.go] at h
    split_ifs at h
    cases h
    exact supplied_settle _ _ _ _
  | finish r hr size next =>
    simp only [Memory.go] at h
    split at h
    · cases h
      exact supplied_after _ _
    · split at h
      · cases h
        exact supplied_after _ _
      · cases h
        exact supplied_of_none (by simp)
  | retire r b q reply =>
    simp only [Memory.go] at h
    split_ifs at h
    · cases h
      exact supplied_settle _ _ _ _
    · cases h
      exact .cons (by simp) (supplied_settle _ _ _ _)
  | terminatePort p wait =>
    simp only [Memory.go, Option.some.injEq] at h
    cases h
    apply supplied_of_none
    split_ifs <;> simp
  | _ =>
    apply supplied_of_none
    simp only [Memory.go] at h
    first
      | (cases h <;> simp)
      | (split at h <;> cases h <;> simp)
      | (split_ifs at h <;> cases h <;> simp)

end Effects

theorem Began.body {m n : Memory Op} {a : BlockId} {q : QueueId} {r : SlotId} {id : Option ℕ}
    {o : Option Op} {provider : Option ℕ} {context : ℕ}
    (began : Began m a q r n id o provider context) :
    (n.slots r).body = (o.or (m.slots r).operation, id, provider) := by
  obtain ⟨qs, acquired, -, hacquire, rfl⟩ := began
  simp [AsyncState.body, Memory.describe, (Memory.acquire_some hacquire).slots]

/-- The operation is begun under the ID of its class. -/
def Choice.begunAs (kind : Op → ℕ) : Choice Op → Bool
  | .call (.begin _ id o) _ => id = kind o
  | _ => true

namespace AsyncThreads

variable {s s' : AsyncThreads Op} {i : ℕ} {c : Choice Op} {tr ev : List Event} {kind : Op → ℕ}
  {old new rest : List Frame} {n : Memory Op}

def BegunAs (kind : Op → ℕ) (_ : AsyncThreads Op) (input : ℕ × Choice Op) : Prop :=
  input.2.begunAs kind = true

instance (kind : Op → ℕ) (s : AsyncThreads Op) (input : ℕ × Choice Op) :
    Decidable (BegunAs kind s input) :=
  inferInstanceAs (Decidable (input.2.begunAs kind = true))

structure Typed (kind : Op → ℕ) (s : AsyncThreads Op) : Prop where
  typed : ∀ r o, (s.memory.slots r).operation = some o →
    (s.memory.slots r).id = some (kind o) ∧ (s.memory.slots r).provider = none
  kept : ∀ r, (s.memory.slots r).operation.isSome = true →
    (r : ℕ) < s.memory.used ∧ s.gone r = 0
  frames : ∀ stack ∈ s.threads, Supplied s.memory stack
  tasks : Provisioned s.memory

theorem step_body (h : step .whole s (i, c) = some (s', ev)) :
    (∃ fault, s' = { s with ended := true } ∧ ev = [.ended fault]) ∨
      ∃ old rest new n, s.threads[i]? = some (old ++ rest) ∧
        s' = { s with memory := n, threads := s.threads.set i (new ++ rest) } ∧
        Effect .whole s.memory c old n new ev ∧ BodyEffect s.memory c old n new ∧
        (Provisioned s.memory → Supplied n new) := by
  rcases step_moves h with hended | ⟨old, rest, new, n, hstack, hs', ⟨x, e, rfl, rfl, -, hcall⟩ |
    ⟨f, a, rfl, rfl, hanswer⟩ | ⟨f, e, rfl, rfl, hgo⟩⟩
  · exact .inl hended
  · have heffect := Memory.call_effect hcall
    exact .inr ⟨[], rest, new, n, hstack, hs', heffect, Memory.call_body hcall, heffect.call_uses⟩
  · have heffect := Memory.answer_effect (g := .whole) hanswer
    exact .inr ⟨[f], rest, new, n, hstack, hs', heffect, heffect.body,
      fun _ => Memory.answer_uses hanswer⟩
  · have heffect := Memory.go_effect (g := .whole) hgo
    exact .inr ⟨[f], rest, new, n, hstack, hs', heffect, heffect.body, Memory.go_uses hgo⟩

theorem Accounted.count_zero (accounted : Accounted s) {r : SlotId} (busy : 0 < s.disposals r) :
    s.count r = 0 := by
  have howned := accounted.audit.sound.owned r
  by_contra hcount
  have hheld : ¬ s.memory.kept r + Stacks.total (Frame.holds r) s.threads = 0 := hcount
  rw [if_neg hheld] at howned
  simp only [disposals] at busy
  omega

theorem Accounted.idle (accounted : Accounted s) {a : BlockId} {q : QueueId} {r : SlotId}
    {id : Option ℕ} {o : Option Op} {provider : Option ℕ} {context : ℕ}
    (began : Began s.memory a q r n id o provider context) : s.count r = 0 ∧ s.disposals r = 0 := by
  obtain ⟨qs, acquired, -, hacquire, -⟩ := began
  exact accounted.audit.sound.picked_idle (Memory.acquire_some hacquire)

/-- As long as there is a hold on a slot, what is in it stays. -/
theorem Accounted.live_body (accounted : Accounted s) (hstack : s.threads[i]? = some (old ++ rest))
    (effect : BodyEffect s.memory c old n new) {r : SlotId} (live : 0 < s.count r) :
    (n.slots r).body = (s.memory.slots r).body := by
  cases effect with
  | quiet _ body => exact body r
  | @strips x f _ =>
    have hbusy : 0 < s.disposals x := by
      have hle := (total_moved (Frame.disposes x) [] hstack).1
      simp only [Stacks.weight_cons, Stacks.weight_nil, Frame.disposes, Frame.disposing,
        if_true] at hle
      simp only [disposals]
      omega
    have hne : r ≠ x := by
      rintro rfl
      have hzero := accounted.count_zero hbusy
      omega
    simp [Memory.strip, hne]
  | @begun x e a q y n₀ id o provider context _ _ _ began same _ _ =>
    have hne : r ≠ y := by
      rintro rfl
      have hzero := (accounted.idle began).1
      omega
    rw [same.body, (accounted.audit.sound.began_fresh began).others r hne]

theorem count_of_frame {stack : List Frame} (hmem : stack ∈ s.threads) {f : Frame} (hf : f ∈ stack)
    {x : SlotId × Part} (uses : f.uses = some x) : 0 < s.count x.1 := by
  have hweight := Stacks.le_weight (Frame.holds x.1) hf
  have htotal := Stacks.weight_le_total (Frame.holds x.1) hmem
  rw [Frame.holds_of_slot (Frame.slot_of_uses uses), if_pos rfl] at hweight
  simp only [count]
  omega

theorem count_of_task {p : PortId} {t : Task} (ht : t ∈ (s.memory.queues.owned p).callbacks)
    {x : SlotId × Part} (uses : t.uses = some x) : 0 < s.count x.1 := by
  have hweigh := QueuePool.le_weigh (Task.holds x.1) ht
  rw [Task.holds, if_pos (Task.slot_of_uses uses)] at hweigh
  simp only [count, Memory.kept]
  omega

theorem Accounted.live_has (accounted : Accounted s) (hstack : s.threads[i]? = some (old ++ rest))
    (effect : BodyEffect s.memory c old n new) {x : SlotId × Part} (live : 0 < s.count x.1)
    (has : s.memory.Has x) : n.Has x := by
  rw [Memory.Has, AsyncState.has_of_body (accounted.live_body hstack effect live)]
  exact has

theorem Typed.empty (typed : Typed kind s) {a : BlockId} {q : QueueId} {r : SlotId} {id : Option ℕ}
    {o : Option Op} {provider : Option ℕ} {context : ℕ}
    (began : Began s.memory a q r n id o provider context) :
    (s.memory.slots r).operation = none := by
  obtain ⟨qs, acquired, -, hacquire, -⟩ := began
  by_contra hsome
  obtain ⟨hused, hgone⟩ := typed.kept r (Option.ne_none_iff_isSome.mp hsome)
  rcases (Memory.acquire_some hacquire).picked with ⟨hfree, -⟩ | ⟨-, -, hr, -⟩
  · rw [gone, hfree, List.count_cons_self] at hgone
    omega
  · omega

theorem Typed.step_typed (typed : Typed kind s) (accounted : Accounted s)
    (begunAs : BegunAs kind s (i, c)) (effect : BodyEffect s.memory c old n new) (r : SlotId) (o : Op)
    (ho : (n.slots r).operation = some o) :
    (n.slots r).id = some (kind o) ∧ (n.slots r).provider = none := by
  have hsame : (n.slots r).body = (s.memory.slots r).body →
      (n.slots r).id = some (kind o) ∧ (n.slots r).provider = none := by
    intro hbody
    simp only [AsyncState.body, Prod.mk.injEq] at hbody
    rw [hbody.1] at ho
    rw [hbody.2.1, hbody.2.2]
    exact typed.typed r o ho
  cases effect with
  | quiet _ body => exact hsame (body r)
  | @strips x f _ =>
    by_cases hx : r = x
    · subst hx
      simp [Memory.strip] at ho
    · exact hsame (by simp [Memory.strip, hx])
  | @begun x e a q y n₀ id o' provider context _ _ call began same said _ =>
    by_cases hy : r = y
    · subst hy
      have hbody := (same.body r).trans began.body
      rw [typed.empty began, Option.or_none] at hbody
      simp only [AsyncState.body, Prod.mk.injEq] at hbody
      obtain ⟨hoperation, hid, hprovider⟩ := hbody
      rcases said with ⟨id', o', rfl, rfl, rfl, rfl⟩ | ⟨rfl, -⟩
      · obtain rfl : o' = o := Option.some.inj (hoperation.symm.trans ho)
        rw [BegunAs, call, Choice.begunAs, decide_eq_true_eq] at begunAs
        rw [hid, hprovider, begunAs]
        exact ⟨rfl, rfl⟩
      · rw [hoperation] at ho
        cases ho
    · apply hsame
      rw [same.body, (accounted.audit.sound.began_fresh began).others r hy]

theorem Typed.step_kept (typed : Typed kind s) (accounted : Accounted s)
    (hstack : s.threads[i]? = some (old ++ rest)) (effect : BodyEffect s.memory c old n new)
    (r : SlotId) (ho : (n.slots r).operation.isSome = true) :
    (r : ℕ) < n.used ∧
      n.free.count r + Stacks.total (Frame.stripped r) (s.threads.set i (new ++ rest)) = 0 := by
  have hmoved := total_moved (Frame.stripped r) new hstack
  have hkept : (n.slots r).body = (s.memory.slots r).body →
      (r : ℕ) < s.memory.used ∧ s.gone r = 0 := by
    intro hbody
    simp only [AsyncState.body, Prod.mk.injEq] at hbody
    rw [hbody.1] at ho
    exact typed.kept r ho
  cases effect with
  | quiet used body gone =>
    obtain ⟨hused, hgone⟩ := hkept (body r)
    have hr := gone r
    rw [AsyncThreads.gone] at hgone
    rw [used]
    refine ⟨hused, ?_⟩
    omega
  | @strips x f left =>
    by_cases hx : r = x
    · subst hx
      simp [Memory.strip] at ho
    · obtain ⟨hused, hgone⟩ := hkept (by simp [Memory.strip, hx])
      have hnew : Stacks.weight (Frame.stripped r) [f] = 0 := by
        rcases left with ⟨provider, rfl | rfl⟩ <;> simp [Frame.stripped, Ne.symm hx]
      rw [AsyncThreads.gone] at hgone
      refine ⟨hused, ?_⟩
      change s.memory.free.count r + _ = 0
      omega
  | @begun x e a q y n₀ id o' provider context _ _ call began same said away =>
    have hfresh := accounted.audit.sound.began_fresh began
    have hnew := weight_stripped_away away r
    rw [same.used, same.free]
    by_cases hy : r = y
    · subst hy
      have hstripped := stripped_disposals (s := s) r
      rw [(accounted.idle began).2] at hstripped
      refine ⟨(hfresh.used r).mpr (.inl rfl), ?_⟩
      rw [hfresh.taken]
      omega
    · obtain ⟨hused, hgone⟩ := hkept (by rw [same.body, hfresh.others r hy])
      rw [AsyncThreads.gone] at hgone
      refine ⟨(hfresh.used r).mpr (.inr hused), ?_⟩
      rw [hfresh.free r hy]
      omega

theorem Typed.step (typed : Typed kind s) (accounted : Accounted s)
    (begunAs : BegunAs kind s (i, c)) (h : step .whole s (i, c) = some (s', ev)) :
    Typed kind s' := by
  rcases step_body h with ⟨fault, rfl, rfl⟩ | ⟨old, rest, new, n, hstack, rfl, heffect, hbody, huses⟩
  · exact ⟨typed.typed, typed.kept, typed.frames, typed.tasks⟩
  constructor
  · exact typed.step_typed accounted begunAs hbody
  · exact typed.step_kept accounted hstack hbody
  · have hold : ∀ stack ∈ s.threads, Supplied n stack := by
      intro stack hmem f hf x hx
      exact accounted.live_has hstack hbody (count_of_frame hmem hf hx)
        (typed.frames stack hmem f hf x hx)
    exact frames_moved hstack hold (huses typed.tasks)
  · intro p t ht x hx
    rcases heffect.queued hx ht with hqueued | hhas
    · exact accounted.live_has hstack hbody (count_of_task hqueued hx)
        (typed.tasks p t hqueued x hx)
    · exact hhas

theorem typed_start (threads : ℕ) : Typed kind (start threads : AsyncThreads Op) := by
  constructor
  · intro r o ho
    cases ho
  · intro r ho
    cases ho
  · intro stack hmem f hf
    obtain ⟨-, rfl⟩ := List.mem_replicate.mp hmem
    cases hf
  · intro p t ht
    rw [show ((start threads : AsyncThreads Op).memory.queues.owned p).callbacks = [] from
      TaskPort.callbacks_fresh] at ht
    cases ht

theorem reaches_typed {threads : ℕ}
    (h : Reaches (step .whole) (BegunAs kind) (start threads) tr s) : Typed kind s := by
  have hboth : Accounted s ∧ Typed kind s := by
    refine h.state_invariant (P := fun s => Accounted s ∧ Typed kind s)
      ⟨accounted_start threads, typed_start threads⟩ ?_
    rintro s ⟨i, c⟩ t ev ⟨haccounted, htyped⟩ hbegun hstep
    exact ⟨haccounted.step hstep, htyped.step haccounted hbegun hstep⟩
  exact hboth.2

/-- A task that finds its part of the slot does not violate its precondition. -/
theorem runStep_next {m : Memory Op} {r : SlotId} {f : Work} {canceled : Bool}
    (supplied : Supplied m [.run r f canceled]) (fault : Fault) :
    m.runStep r f canceled ≠ .ended fault := by
  intro hended
  cases f with
  | perform =>
    have hhas : (m.slots r).operation.isSome = true :=
      supplied _ (List.mem_singleton_self _) (r, .operation) rfl
    simp only [Memory.runStep, hhas, if_true] at hended
    split_ifs at hended
  | doWork =>
    have hhas : (m.slots r).provider.isSome = true :=
      supplied _ (List.mem_singleton_self _) (r, .provider) rfl
    simp only [Memory.runStep, hhas, if_true] at hended
    cases hended
  | announce =>
    simp only [Memory.runStep] at hended
    split at hended
    · cases hended
    · split_ifs at hended

/-- Where every operation is begun under the ID of its class, an operation that is found under an ID
is of the class, and no slot has a provider beside it. Whoever runs an operation or a provider finds
it in the slot, so that no task violates its precondition. What is in a slot stays until the last
hold is gone, whichever step comes next. -/
theorem operations_typed {threads : ℕ}
    (h : Reaches (step .whole) (BegunAs kind) (start threads) tr s) :
    (∀ r o id, (s.memory.slots r).operation = some o → (s.memory.slots r).id = some id →
      kind o = id ∧ (s.memory.slots r).provider = none) ∧
    (∀ stack ∈ s.threads, ∀ f ∈ stack, ∀ x, f.uses = some x → s.memory.Has x) ∧
    (∀ stack ∈ s.threads, ∀ r f canceled, .run r f canceled ∈ stack →
      ∀ fault, s.memory.runStep r f canceled ≠ .ended fault) ∧
    ∀ input s' ev, step .whole s input = some (s', ev) → ∀ r, 0 < s.count r →
      (s'.memory.slots r).body = (s.memory.slots r).body := by
  have htyped := reaches_typed h
  refine ⟨?_, htyped.frames, ?_, ?_⟩
  · intro r o id ho hid
    obtain ⟨hkind, hprovider⟩ := htyped.typed r o ho
    exact ⟨Option.some.inj (hkind.symm.trans hid), hprovider⟩
  · intro stack hmem r f canceled hf
    apply runStep_next
    intro f' hf'
    rw [List.mem_singleton.mp hf']
    exact htyped.frames stack hmem _ hf
  · rintro ⟨i, c⟩ s' ev hstep r hlive
    rcases step_body hstep with ⟨fault, rfl, -⟩ | ⟨old, rest, new, n, hstack, rfl, -, hbody, -⟩
    · rfl
    · exact (reaches_accounted h).live_body hstack hbody hlive

/-- An operation of class 1 is begun and its task is taken from the port. -/
def beginPerforms : List (ℕ × Choice Bool) :=
  [(0, .call (.createQueue .manual .manual) {}), (0, .go {}),
    (0, .call (.prepare 0 (some 0) none) {}), (0, .call (.begin (some 0) 1 true) {}), (0, .go {}),
    (0, .call (.dispatch (some 0) .work) {})]

theorem beginPerforms_state : (execute (step .whole) (start 1) beginPerforms).map
    (fun last => (last.1.threads, (last.1.memory.slots 0).operation,
      (last.1.memory.slots 0).id)) =
        some ([[.run 0 .perform false, .returns .queue (.flag true)]], some true, some 1) := by
  decide

theorem operations_typed_performs : ∃ (s : AsyncThreads Bool) (tr : List Event),
    Reaches (step .whole) (BegunAs Bool.toNat) (start 1) tr s ∧
      (s.memory.slots 0).operation = some true ∧
      s.memory.runStep 0 .perform false ≠ .ended .contract := by
  obtain ⟨⟨s, tr⟩, hrun, htr⟩ := Option.map_eq_some_iff.mp beginPerforms_state
  have h : Reaches (step .whole) (BegunAs Bool.toNat) (start 1) tr s :=
    reaches_of_execute _ hrun (by decide)
  simp only [Prod.mk.injEq] at htr
  obtain ⟨hthreads, hoperation, -⟩ := htr
  have hin : [.run 0 .perform false, .returns .queue (.flag true)] ∈ s.threads := by
    rw [hthreads]
    exact List.mem_cons_self
  exact ⟨s, tr, h, hoperation,
    (operations_typed h).2.2.1 _ hin 0 .perform false List.mem_cons_self .contract⟩

end AsyncThreads

end IW4x.Gdk
