import IW4x.Gdk.FindRace

/-!
# Where the holds are

In a state in which every thread is outside the library, waits, or is in a callback, the holds on
a slot are those of its block, of its queued tasks, of its running tasks and of the calls that have
found it. No queue is closed here and no composite queue made, so that no port is opened again with
tasks still in it.
-/

namespace IW4x.Gdk

variable {Op : Type}

/-- The activation's hold on slot `i`, where it is of this kind. -/
def Frame.holdsAs (owner : Owner) (i : SlotId) (f : Frame) : ℕ :=
  if f.slot = some i ∧ f.owner = owner then 1 else 0

theorem Frame.holds_eq (i : SlotId) (f : Frame) :
    f.holds i = f.holdsAs .task i + f.holdsAs .call i + f.holdsAs .block i := by
  unfold holds holdsAs
  cases f.owner <;> simp

/-- The queue objects and ports are in order, and no callback was lost. -/
structure Kempt (q : QueuePool Task) : Prop where
  tidy : Tidy q
  lost : q.lost = []

theorem Steady.kempt {p q : QueuePool Task} (steady : Steady p q) (kempt : Kempt p) : Kempt q := by
  obtain ⟨htidy, hlost⟩ := steady.tidy kempt.tidy
  exact ⟨htidy, hlost.trans kempt.lost⟩

theorem named_work {q : TaskQueue} {p : PortId} (h : q.work = some p) : q.port .work = some p := h

theorem named_completion {q : TaskQueue} {p : PortId} (h : q.completion = some p) :
    q.port .completion = some p := h

theorem Kempt.enqueue {m n : Memory Op} (kempt : Kempt m.queues) {q : QueueId} {port : Port}
    {p : PortId} (named : (m.queues.made q).port port = some p) {alloc : Bool} {now delay : ℕ}
    {r : SlotId} {f : Work} (sent : m.submit alloc now r p delay f = .accepted n) :
    Kempt n.queues := by
  obtain ⟨t, -, rfl, -⟩ := Memory.submit_accepted sent
  refine ⟨⟨kempt.tidy.named, ?_⟩, kempt.lost⟩
  intro i hi
  have hne : i ≠ p := by
    rintro rfl
    have hused := kempt.tidy.named q port i named
    rw [show m.queues.portUsed i = false from hi] at hused
    cases hused
  simpa [hne] using kempt.tidy.idle i hi

theorem Kempt.dequeue {q : QueuePool Task} (kempt : Kempt q) {p : PortId} {now : ℕ}
    {t : TaskPort.Taken Task} (taken : (q.owned p).take now = some t) :
    Kempt (q.setPort p t.port) := by
  obtain ⟨hperm, -⟩ := TaskPort.take_spec taken
  refine ⟨⟨kempt.tidy.named, ?_⟩, kempt.lost⟩
  intro i hi
  have hidle := kempt.tidy.idle i hi
  have hne : i ≠ p := by
    rintro rfl
    rw [hidle] at hperm
    simpa using hperm.length_eq
  simpa [hne] using hidle

theorem Began.kempt {m n : Memory Op} {a : BlockId} {q : QueueId} {r : SlotId} {id : Option ℕ}
    {o : Option Op} {provider : Option ℕ} {context : ℕ} (began : Began m a q r n id o provider context)
    (kempt : Kempt m.queues) : Kempt n.queues := by
  obtain ⟨qs, acquired, hresolve, -, rfl⟩ := began
  exact (resolve_steady hresolve).kempt kempt

section Effects

variable {g : Granularity} {m n : Memory Op} {c : Choice Op} {old new : List Frame}
  {ev : List Event}

theorem retireSlot_queues (m : Memory Op) (r : SlotId) : (m.retireSlot r).queues = m.queues := by
  unfold Memory.retireSlot
  dsimp only
  split <;> rfl

/-- Only giving ports back and making a composite queue put the queues out of order. -/
theorem Effect.kempt (effect : Effect g m c old n new ev) (kempt : Kempt m.queues)
    (gives : ∀ f ∈ old, ¬ f.gives) (composite : ∀ w w' e, c ≠ .call (.createComposite w w') e) :
    Kempt n.queues := by
  cases effect with
  | manage kept => exact kept.kempt kempt
  | adjusts _ _ _ _ cause =>
    rcases cause with ⟨f, hf, hgives⟩ | ⟨w, w', e, rfl⟩
    · exact absurd hgives (gives f hf)
    · exact absurd rfl (composite w w' e)
  | took _ _ _ taken => exact kempt.dequeue taken
  | @beginAccepted a q r n₀ _ id o p _ _ began port sent =>
    exact (began.kempt kempt).enqueue (named_work port) sent
  | beginImmediate began _ sent =>
    obtain ⟨rfl, -⟩ := Memory.submit_immediate sent
    exact began.kempt kempt
  | beginRefused began =>
    rw [retireSlot_queues]
    exact began.kempt kempt
  | providerBegun began => exact began.kempt kempt
  | drops =>
    rw [retireSlot_queues]
    exact kempt
  | scheduleAccepted _ port sent => exact kempt.enqueue (named_work port) sent
  | scheduleImmediate _ _ sent =>
    obtain ⟨rfl, -⟩ := Memory.submit_immediate sent
    exact kempt
  | publishesNothing kept => exact kept.kempt kempt
  | @publishAccepted r a next q qs p _ alloc now _ resolved port sent =>
    have hkempt : Kempt (m.withQueues qs).queues := (resolve_steady resolved).kempt kempt
    exact hkempt.enqueue (named_completion port) sent
  | publishImmediate _ resolved _ sent =>
    obtain ⟨rfl, -⟩ := Memory.submit_immediate sent
    exact (resolve_steady resolved).kempt kempt
  | retires =>
    rw [retireSlot_queues]
    exact kempt
  | _ => exact kempt

theorem Frame.owner_of_light {f : Frame} (light : f.light) : f.owner ≠ .block := by
  obtain ⟨hslot, -⟩ := light
  cases f <;> first | exact Owner.noConfusion | cases hslot

theorem Frame.owner_of_outside {f : Frame} (outside : f.outside = true) : f.owner ≠ .block := by
  cases f <;> first | exact Owner.noConfusion | cases outside

theorem Memory.owner_settle (r : SlotId) (b : BlockId) (q : Query) (reply : Reply) :
    ∀ f ∈ m.settle r b q reply, f.owner ≠ .block := by
  simp [Memory.settle, Frame.owner]

theorem Memory.owner_after (r : SlotId) (next : Next) :
    ∀ f ∈ m.after r next, f.owner ≠ .block := by
  cases next <;> simp [Memory.after, Memory.settle, Frame.owner]

theorem Task.tail_frames (t : Task) (canceled : Bool) (ran : List Frame) :
    (t.frames canceled ++ ran).tail = ran := by
  cases t <;> rfl

/-- The block's hold is given back at once: the activation that does it is on top. -/
theorem Effect.below (effect : Effect g m c old n new ev) : ∀ f ∈ new.tail, f.owner ≠ .block := by
  have hlight : (∀ f ∈ new, f.plain) → ∀ f ∈ new.tail, f.owner ≠ .block := fun plain f hf =>
    Frame.owner_of_light (plain f (List.mem_of_mem_tail hf)).1
  have hall : (∀ f ∈ new, f.owner ≠ .block) → ∀ f ∈ new.tail, f.owner ≠ .block := fun all f hf =>
    all f (List.mem_of_mem_tail hf)
  cases effect with
  | manage _ _ plain => exact hlight plain
  | adjusts _ _ plain => exact hlight plain
  | took _ plain =>
    rw [Task.tail_frames]
    exact fun f hf => Frame.owner_of_light (plain f hf).1
  | beginAccepted => simp
  | beginImmediate => simp [Frame.owner]
  | beginRefused => simp [Frame.owner]
  | drops => simp [Frame.owner]
  | settles => exact hall (Memory.owner_settle _ _ _ _)
  | scheduleAccepted => exact hall (Memory.owner_settle _ _ _ _)
  | scheduleImmediate => exact Memory.owner_settle _ _ _ _
  | finishesAgain => exact hall (Memory.owner_after _ _)
  | finishes => exact hall (Memory.owner_after _ _)
  | publishesNothing => exact hall (Memory.owner_after _ _)
  | publishAccepted => exact hall (Memory.owner_after _ _)
  | publishImmediate => exact Memory.owner_after _ _
  | retiresAgain => exact hall (Memory.owner_settle _ _ _ _)
  | retires => exact Memory.owner_settle _ _ _ _
  | _ => simp

end Effects

def Choice.keepsQueues : Choice Op → Bool
  | .call (.close _) _ => false
  | .call (.createComposite _ _) _ => false
  | _ => true

namespace AsyncThreads

open Runs

variable {s s' : AsyncThreads Op} {i : ℕ} {c : Choice Op} {tr ev : List Event}

/-- The step closes no queue and makes no composite queue. -/
def KeepsQueues (_ : AsyncThreads Op) (input : ℕ × Choice Op) : Prop :=
  input.2.keepsQueues = true

instance (s : AsyncThreads Op) (input : ℕ × Choice Op) : Decidable (KeepsQueues s input) :=
  inferInstanceAs (Decidable (input.2.keepsQueues = true))

/-- Every thread is outside the library, waits, or is in a callback. -/
def Settled (s : AsyncThreads Op) : Prop :=
  ∀ stack ∈ s.threads, ∀ f ∈ stack.head?, f.outside = true ∨ ∃ b r, f = .waiting b r

/-- The hold of the block of the operation in slot `r`, as long as it is not retired. -/
def blockHold (s : AsyncThreads Op) (r : SlotId) : ℕ :=
  if (r : ℕ) < s.memory.used ∧ (s.memory.slots r).retired = false then 1 else 0

/-- The held tasks for slot `r` that the ports hold. -/
def queuedTasks (s : AsyncThreads Op) (r : SlotId) : ℕ :=
  ∑ p, Stacks.weight (Task.holds r) (s.memory.queues.owned p).callbacks

/-- The held tasks for slot `r` that run. -/
def runningTasks (s : AsyncThreads Op) (r : SlotId) : ℕ :=
  Stacks.total (Frame.holdsAs .task r) s.threads

/-- The calls that have a `held_state` for slot `r`. -/
def heldStates (s : AsyncThreads Op) (r : SlotId) : ℕ :=
  Stacks.total (Frame.holdsAs .call r) s.threads

structure Orderly (s : AsyncThreads Op) : Prop where
  kempt : Kempt s.memory.queues
  keeps : ∀ stack ∈ s.threads, ∀ f ∈ stack, ¬ f.gives
  below : ∀ stack ∈ s.threads, ∀ f ∈ stack.tail, f.owner ≠ .block

theorem orderly_start (threads : ℕ) : Orderly (start threads : AsyncThreads Op) := by
  have hnil : ∀ stack ∈ (start threads : AsyncThreads Op).threads, stack = [] := by
    intro stack hmem
    exact (List.mem_replicate.mp hmem).2
  refine ⟨⟨⟨?_, ?_⟩, rfl⟩, ?_, ?_⟩
  · intro q r i h
    cases r <;> cases h
  · intro i _
    exact TaskPort.callbacks_fresh
  · intro stack hmem
    rw [hnil stack hmem]
    simp
  · intro stack hmem
    rw [hnil stack hmem]
    simp

theorem Orderly.step (orderly : Orderly s) (keeps : KeepsQueues s (i, c))
    (h : step .whole s (i, c) = some (s', ev)) : Orderly s' := by
  rcases step_cases h with ⟨fault, rfl, rfl⟩ | ⟨old, rest, new, n, hstack, heffect, hmay, rfl⟩
  · exact ⟨orderly.kempt, orderly.keeps, orderly.below⟩
  have hmem := List.mem_of_getElem? hstack
  constructor
  · refine heffect.kempt orderly.kempt ?_ ?_
    · intro f hf
      exact orderly.keeps _ hmem f (List.mem_append_left _ hf)
    · rintro w w' e rfl
      cases keeps
  · refine frames_moved hstack orderly.keeps ?_
    intro f hf hgives
    obtain ⟨q, e, rfl⟩ := (heffect.calm f hf).1 hgives
    cases keeps
  · intro stack hin f hf
    rcases List.mem_or_eq_of_mem_set hin with hin | rfl
    · exact orderly.below stack hin f hf
    -- what lies below the new activations was below the old ones, or below a callback
    have hrest : ∀ f ∈ rest, f.owner ≠ .block := by
      intro f hf
      cases old with
      | cons f' old =>
        exact orderly.below _ hmem f (List.mem_append_right old hf)
      | nil =>
        cases rest with
        | nil => cases hf
        | cons f' rest =>
          rcases List.mem_cons.mp hf with rfl | hf
          · exact Frame.owner_of_outside (hmay rfl)
          · exact orderly.below _ hmem f hf
    cases new with
    | nil => exact hrest f (List.mem_of_mem_tail hf)
    | cons f' new =>
      rcases List.mem_append.mp hf with hf | hf
      · exact heffect.below f hf
      · exact hrest f hf

theorem Orderly.block_settled (orderly : Orderly s) (settled : s.Settled) (r : SlotId) :
    Stacks.total (Frame.holdsAs .block r) s.threads = 0 := by
  rw [Stacks.total_eq_zero_iff]
  intro stack hmem f hf
  have howner : f.owner ≠ .block := by
    cases stack with
    | nil => cases hf
    | cons f' rest =>
      rcases List.mem_cons.mp hf with rfl | hf
      · rcases settled _ hmem f rfl with houtside | ⟨b, r, rfl⟩
        · exact Frame.owner_of_outside houtside
        · exact Owner.noConfusion
      · exact orderly.below _ hmem f hf
  simp [Frame.holdsAs, howner]

/-- In a settled state the holds are those of the block, the tasks and the calls. -/
theorem Orderly.count_eq (orderly : Orderly s) (accounted : Accounted s) (settled : s.Settled)
    (r : SlotId) :
    s.count r = s.blockHold r + s.queuedTasks r + s.runningTasks r + s.heldStates r := by
  have hframes : Stacks.total (Frame.holds r) s.threads =
      s.runningTasks r + s.heldStates r + Stacks.total (Frame.holdsAs .block r) s.threads := by
    rw [show Frame.holds r = _ from funext (Frame.holds_eq r), Stacks.total_add, Stacks.total_add]
    rfl
  have hblock : (if (s.memory.slots r).block.isSome then 1 else 0) = s.blockHold r := by
    have hsound := accounted.audit.sound
    unfold blockHold
    by_cases hused : (r : ℕ) < s.memory.used
    · simp only [hused, true_and, hsound.retired r hused]
    · have hnone : (s.memory.slots r).block.isSome = false := by
        by_contra hsome
        refine hused (hsound.used (.inl ?_))
        rw [Memory.kept, if_pos (Bool.eq_true_of_not_eq_false hsome)]
        omega
      simp [hused, hnone]
  have hqueued : s.memory.queues.weigh (Task.holds r) = s.queuedTasks r := by
    simp [QueuePool.weigh, orderly.kempt.lost, queuedTasks]
  simp only [count, Memory.kept]
  rw [hframes, orderly.block_settled settled, hblock, hqueued]
  omega

theorem reaches_orderly {threads : ℕ}
    (h : Reaches (step .whole) KeepsQueues (start threads) tr s) : Orderly s := by
  refine h.state_invariant (P := Orderly) (orderly_start threads) ?_
  rintro s ⟨i, c⟩ t ev horderly hkeeps hstep
  exact horderly.step hkeeps hstep

/-- A slot that was handed out and is not yet put back. -/
def Live (s : AsyncThreads Op) (r : SlotId) : Prop := (r : ℕ) < s.memory.used ∧ r ∉ s.memory.free

theorem acquire_none_iff {a : BlockId} : s.memory.acquire a = none ↔ ∀ r, s.Live r := by
  rw [Memory.acquire_none]
  constructor
  · rintro ⟨hfree, hused⟩ r
    exact ⟨by omega, by simp [hfree]⟩
  · intro hlive
    refine ⟨?_, ?_⟩
    · rw [List.eq_nil_iff_forall_not_mem]
      exact fun r => (hlive r).2
    · exact (hlive 127).1

theorem begin_head {m n : Memory Op} {e : Env} {a : BlockId} {id : ℕ} {o : Op} {new : List Frame}
    (h : m.begin e (some a) id o = .next n new ev) :
    new ≠ [] ∧ (new.head? = some (.returns (.begin (some a)) (.code E_OUTOFMEMORY)) ↔
      m.acquire a = none) := by
  have hcode : S_OK ≠ E_OUTOFMEMORY := by decide
  simp only [Memory.begin] at h
  split at h
  · cases h
  · rename_i q qs hresolve
    rw [Memory.acquire_withQueues] at h
    cases hacquire : m.acquire a with
    | none =>
      rw [hacquire] at h
      cases h
      simp
    | some slot =>
      rw [hacquire] at h
      dsimp only [Option.map_some] at h
      split at h
      · cases h
      · split at h <;> cases h <;> simp [hcode]

/-- `begin` answers with `E_OUTOFMEMORY` exactly when all slots are handed out. -/
theorem begin_outOfMemory {g : Granularity} {a : BlockId} {id : ℕ} {o : Op} {e : Env}
    (h : step g s (i, .call (.begin (some a) id o) e) = some (s', ev))
    (returned : s'.ended = false) :
    (∃ rest, s'.threads[i]? =
      some (.returns (.begin (some a)) (.code E_OUTOFMEMORY) :: rest)) ↔ ∀ r, s.Live r := by
  simp only [step, move] at h
  split at h
  · rename_i stack _ hstack
    split_ifs at h
    · cases hbegin : s.memory.begin e (some a) id o with
      | ended fault =>
        simp only [Memory.call, hbegin, Option.some.injEq, Prod.mk.injEq] at h
        obtain ⟨rfl, -⟩ := h
        cases returned
      | next n new ev' =>
        simp only [Memory.call, hbegin, Option.some.injEq, Prod.mk.injEq] at h
        obtain ⟨rfl, rfl⟩ := h
        obtain ⟨hlt, -⟩ := List.getElem?_eq_some_iff.mp hstack
        obtain ⟨hnew, hhead⟩ := begin_head hbegin
        rw [← acquire_none_iff (a := a), ← hhead]
        obtain ⟨f, below, rfl⟩ := List.exists_cons_of_ne_nil hnew
        simp [hlt]
  · cases h

/-- In every state of a run in which no queue is closed, the low 16 bits of a slot's word count its
holds modulo 65,536, and there are never more. In a settled state these are the hold of the block,
the queued and the running tasks, and the calls that have found the operation. An operation is
disposed of once, when its last hold is gone; the free list holds each slot whose disposal is over,
once; no queued task is for such a slot; and `begin` runs out of slots when all 128 are handed
out. -/
theorem holds_accounted {threads : ℕ}
    (h : Reaches (step .whole) KeepsQueues (start threads) tr s) :
    (∀ r, holdsOf (s.memory.slots r).state = s.count r % 2 ^ 16 ∧ s.count r ≤ 2 ^ 16) ∧
    (s.Settled → ∀ r,
      s.count r = s.blockHold r + s.queuedTasks r + s.runningTasks r + s.heldStates r) ∧
    (∀ r : SlotId, (r : ℕ) < s.memory.used →
      tr.count (.disposed (s.memory.serial r)) = if s.count r = 0 then 1 else 0) ∧
    (∀ k, k < s.memory.acquired →
      (∀ r : SlotId, (r : ℕ) < s.memory.used → s.memory.serial r ≠ k) →
        tr.count (.disposed k) = 1) ∧
    s.memory.free.Nodup ∧
    (∀ r : SlotId, r ∈ s.memory.free ↔
      (r : ℕ) < s.memory.used ∧ .recycled (s.memory.serial r) ∈ tr) ∧
    (∀ r ∈ s.memory.free, s.queuedTasks r = 0) ∧
    ∀ i a id o e s' ev, step .whole s (i, .call (.begin (some a) id o) e) = some (s', ev) →
      s'.ended = false → ((∃ rest, s'.threads[i]? =
        some (.returns (.begin (some a)) (.code E_OUTOFMEMORY) :: rest)) ↔ ∀ r, s.Live r) := by
  have haccounted := reaches_accounted h
  have horderly := reaches_orderly h
  have hserials := reaches_serials h
  have hsound := haccounted.audit.sound
  refine ⟨fun r => ⟨hsound.holdsOf_state r, hsound.bound r⟩,
    fun hsettled => horderly.count_eq haccounted hsettled, ?_,
    fun k hk hnot => (hserials.past k hk hnot).1, ?_, ?_, ?_,
    fun i a id o e s' ev hstep hreturned => begin_outOfMemory hstep hreturned⟩
  · intro r hr
    rw [hserials.disposed r hr, haccounted.audit.place hr]
  · rw [List.nodup_iff_count_le_one]
    intro r
    have howned := hsound.owned r
    omega
  · intro r
    have howned := hsound.owned r
    rw [← List.count_pos_iff, ← List.count_pos_iff]
    constructor
    · intro hfree
      have hr : (r : ℕ) < s.memory.used := by
        by_contra hnot
        rw [if_neg hnot] at howned
        omega
      rw [hserials.recycled r hr]
      exact ⟨hr, hfree⟩
    · rintro ⟨hr, hrecycled⟩
      rwa [← hserials.recycled r hr]
  · intro r hfree
    have howned := hsound.owned r
    have hcount := List.count_pos_iff.mpr hfree
    have hqueued : s.memory.queues.weigh (Task.holds r) = s.queuedTasks r := by
      simp [QueuePool.weigh, horderly.kempt.lost, queuedTasks]
    have hzero : s.memory.kept r + Stacks.total (Frame.holds r) s.threads = 0 := by
      by_contra hnot
      rw [if_neg hnot] at howned
      omega
    simp only [Memory.kept, hqueued] at hzero
    omega

section Run

/-- An operation is begun on a queue that nobody dispatches yet. -/
def beginWaits : List (ℕ × Choice Unit) :=
  [(0, .call (.createQueue .manual .manual) {}), (0, .go {}),
    (0, .call (.prepare 0 (some 0) none) {}), (0, .call (.begin (some 0) 1 ()) {}), (0, .go {})]

theorem beginWaits_trace : (execute (step .whole) (start 1) beginWaits).map
    (fun last => (last.1.threads, last.1.blockHold 0, last.1.memory.used)) =
      some ([[]], 1, 1) := by
  decide

/-- The block and the queued task hold the slot. -/
theorem holds_accounted_beginWaits :
    ∃ (s : AsyncThreads Unit) (tr : List Event),
      Reaches (step .whole) KeepsQueues (start 1) tr s ∧ s.Settled ∧ s.blockHold 0 = 1 ∧
        s.count 0 = s.blockHold 0 + s.queuedTasks 0 + s.runningTasks 0 + s.heldStates 0 := by
  obtain ⟨⟨s, tr⟩, hrun, htr⟩ := Option.map_eq_some_iff.mp beginWaits_trace
  have h : Reaches (step .whole) KeepsQueues (start 1) tr s :=
    reaches_of_execute _ hrun (by decide)
  simp only [Prod.mk.injEq] at htr
  have hsettled : s.Settled := by
    simp [Settled, htr.1]
  exact ⟨s, tr, h, hsettled, htr.2.1, (holds_accounted h).2.1 hsettled 0⟩

abbrev takes : Query := .result none 0 false

/-- The operation's `result` calls the API for the result again, so many times. -/
def nested (s : AsyncThreads Unit) (n : ℕ) : AsyncThreads Unit :=
  { s with
    memory := s.memory.setSlot 0 { s.memory.slots 0 with state := 65537 + n }
    threads := [List.replicate n (.resulting 0 takes 0)] }

/-- The only operation is completed, and its block alone holds it. -/
structure Completed (s : AsyncThreads Unit) : Prop where
  runs : s.ended = false
  link : (s.memory.blocks 0).link = (true, some 0, 1)
  state : (s.memory.slots 0).state = 65537
  completed : (s.memory.slots 0).completed = true
  status : (s.memory.slots 0).status = S_OK
  operation : (s.memory.slots 0).operation.isSome = true

theorem step_next {g : Granularity} {stack rest new : List Frame} {m : Memory Op}
    (runs : s.ended = false) (hstack : s.threads[i]? = some stack)
    (hmove : move g s.memory stack c = some (rest, .next m new ev)) :
    step g s (i, c) =
      some ({ s with memory := m, threads := s.threads.set i (new ++ rest) }, ev) := by
  simp only [step, runs, hstack, hmove]

theorem mayCall_replicate (n : ℕ) : mayCall (List.replicate n (.resulting 0 takes 0)) = true := by
  cases n <;> rfl

theorem Completed.nest {s : AsyncThreads Unit} (completed : Completed s) {n : ℕ} (hn : n < 65535) :
    ∃ mid, step .whole (nested s n) (0, .call (.query (some 0) takes) {}) =
        some (mid, [.found (s.memory.serial 0)]) ∧
      step .whole mid (0, .go {}) = some (nested s (n + 1), []) := by
  have hlink := completed.link
  simp only [AsyncBlock.link, Prod.mk.injEq] at hlink
  have htoken : tokenOf (65537 + n) = 1 := by
    unfold tokenOf holdBits
    omega
  have hhold : addHold (65537 + n) = 65537 + (n + 1) := by
    unfold addHold
    omega
  have hfind : (nested s n).memory.find (some 0) = some 0 := by
    simp [Memory.find, nested, hlink, htoken]
  have hmemory : (nested s n).memory.hold 0 = (nested s (n + 1)).memory := by
    simp [Memory.hold, nested, Memory.setSlot, hhold]
  have hserial : (nested s n).memory.serial 0 = s.memory.serial 0 := by
    simp [Memory.serial, nested]
  have hcall : (nested s n).memory.call .whole {} (.query (some 0) takes) =
      .next (nested s (n + 1)).memory [.found 0 takes 0] [.found (s.memory.serial 0)] := by
    simp only [Memory.call, Memory.query, hfind, hmemory, hserial]
  have hfound : (nested s (n + 1)).memory.go {} (.found 0 takes 0) =
      some (.next (nested s (n + 1)).memory [.resulting 0 takes 0] []) := by
    simp [Memory.go, Memory.foundStep, nested, completed.completed, completed.status,
      completed.operation]
  refine ⟨{ nested s (n + 1) with
    threads := [.found 0 takes 0 :: List.replicate n (.resulting 0 takes 0)] }, ?_, ?_⟩
  · have hmove : move .whole (nested s n).memory (List.replicate n (.resulting 0 takes 0))
        (.call (.query (some 0) takes) {}) = some (List.replicate n (.resulting 0 takes 0),
          .next (nested s (n + 1)).memory [.found 0 takes 0] [.found (s.memory.serial 0)]) := by
      simp only [move, mayCall_replicate, if_true, hcall]
    exact step_next (s := nested s n) completed.runs rfl hmove
  · have hmove : move .whole (nested s (n + 1)).memory
        (.found 0 takes 0 :: List.replicate n (.resulting 0 takes 0)) (.go {}) =
          some (List.replicate n (.resulting 0 takes 0),
            .next (nested s (n + 1)).memory [.resulting 0 takes 0] []) := by
      simp only [move, hfound, Option.map_some]
    refine step_next (s := { nested s (n + 1) with
      threads := [.found 0 takes 0 :: List.replicate n (.resulting 0 takes 0)] })
      completed.runs rfl hmove

theorem Completed.nested {s : AsyncThreads Unit} {tr : List Event} (completed : Completed s)
    (idle : s.threads = [[]]) (h : Reaches (step .whole) KeepsQueues (start 1) tr s) :
    ∀ n, n ≤ 65535 → ∃ tr', Reaches (step .whole) KeepsQueues (start 1) tr' (nested s n) := by
  intro n
  induction n with
  | zero =>
    intro _
    have hslot : { s.memory.slots 0 with state := 65537 + 0 } = s.memory.slots 0 := by
      rw [Nat.add_zero, ← completed.state]
    have hself : AsyncThreads.nested s 0 = s := by
      unfold AsyncThreads.nested
      rw [hslot, Memory.setSlot, Function.update_eq_self, List.replicate_zero, ← idle]
    exact ⟨tr, hself.symm ▸ h⟩
  | succ n ih =>
    intro hn
    obtain ⟨tr', hreach⟩ := ih (by omega)
    obtain ⟨mid, hcall, hgo⟩ := completed.nest (show n < 65535 by omega)
    have hkeeps : KeepsQueues (AsyncThreads.nested s n)
        (0, .call (.query (some 0) takes) {}) := rfl
    have hkeeps' : KeepsQueues mid (0, .go {}) := rfl
    exact ⟨_, (hreach.next hkeeps hcall).next hkeeps' hgo⟩

theorem settled_nested (s : AsyncThreads Unit) (n : ℕ) : (AsyncThreads.nested s n).Settled := by
  intro stack hmem f hf
  rw [List.mem_singleton.mp hmem] at hf
  cases n with
  | zero => cases hf
  | succ n =>
    cases hf
    exact .inl rfl

theorem blockHold_nested (s : AsyncThreads Unit) (n : ℕ) :
    (AsyncThreads.nested s n).blockHold 0 = s.blockHold 0 := by
  simp [blockHold, AsyncThreads.nested]

theorem holdsOf_nested (s : AsyncThreads Unit) (n : ℕ) :
    holdsOf ((AsyncThreads.nested s n).memory.slots 0).state = (1 + n) % 2 ^ 16 := by
  simp only [AsyncThreads.nested, Memory.setSlot_slots, Function.update_self, holdsOf, holdBits]
  omega

/-- The result is taken, up to the destructor of the operation. -/
def takesLast : List (ℕ × Choice Unit) :=
  [(0, .call (.query (some 0) takes) {}), (0, .go {}), (0, .answer (.returned 0)), (0, .go {}),
    (0, .go {}), (0, .go {}), (0, .go {})]

theorem beginDone_trace : (execute (step .whole) (start 1) beginDone).map
    (fun last => (last.1.ended, last.1.threads, last.1.blockHold 0)) = some (false, [[]], 1) := by
  decide

theorem beginDone_slot : (execute (step .whole) (start 1) beginDone).map
    (fun last => ((last.1.memory.blocks 0).link, (last.1.memory.slots 0).state,
      (last.1.memory.slots 0).completed, (last.1.memory.slots 0).status,
      (last.1.memory.slots 0).operation)) =
        some ((true, some 0, 1), 65537, true, S_OK, some ()) := by
  decide

theorem takesLast_trace : (execute (step .whole) (start 1) (beginDone ++ takesLast)).map
    (fun last => (last.1.threads, last.1.memory.free, last.1.memory.used, last.1.memory.serial 0,
      last.2.count (.disposed 0))) = some ([[.destroying 0 none, .returns
        (.query (some 0) takes (some 0)) (.code S_OK)]], [], 1, 0, 1) := by
  decide

/-- The sum is not what the low 16 bits show when 65,536 holds are alive, as when `result` calls the
API 65,535 deep, and a slot whose last hold is gone is not yet free while the destructor runs. -/
theorem nested_calls_overrun :
    (¬ ∀ (tr : List Event) (s : AsyncThreads Unit),
      Reaches (step .whole) KeepsQueues (start 1) tr s → s.Settled → ∀ r,
        holdsOf (s.memory.slots r).state =
          s.blockHold r + s.queuedTasks r + s.runningTasks r + s.heldStates r) ∧
    ¬ ∀ (tr : List Event) (s : AsyncThreads Unit),
      Reaches (step .whole) KeepsQueues (start 1) tr s → s.Settled → ∀ r : SlotId,
        r ∈ s.memory.free ↔ (r : ℕ) < s.memory.used ∧ .disposed (s.memory.serial r) ∈ tr := by
  constructor
  · intro hclaim
    obtain ⟨⟨s, tr⟩, hrun, htr⟩ := Option.map_eq_some_iff.mp beginDone_trace
    have hslot := beginDone_slot
    rw [hrun] at hslot
    simp only [Option.map_some, Option.some.injEq, Prod.mk.injEq] at htr hslot
    obtain ⟨hruns, hidle, hblock⟩ := htr
    obtain ⟨hlink, hstate, hdone, hstatus, hoperation⟩ := hslot
    have hcompleted : Completed s := ⟨hruns, hlink, hstate, hdone, hstatus, by
      simp [hoperation]⟩
    obtain ⟨tr', hreach⟩ := hcompleted.nested hidle (reaches_of_execute _ hrun (by decide))
      65535 (le_refl _)
    have hholds := hclaim tr' _ hreach (settled_nested s _) 0
    rw [blockHold_nested, hblock, holdsOf_nested] at hholds
    omega
  · intro hclaim
    obtain ⟨⟨s, tr⟩, hrun, htr⟩ := Option.map_eq_some_iff.mp takesLast_trace
    simp only [Prod.mk.injEq] at htr
    obtain ⟨hthreads, hfree, hused, hserial, hcount⟩ := htr
    have hsettled : s.Settled := by
      intro stack hmem f hf
      rw [hthreads] at hmem
      rw [List.mem_singleton.mp hmem] at hf
      cases hf
      exact .inl rfl
    have hiff := hclaim tr s (reaches_of_execute _ hrun (by decide)) hsettled 0
    have hin : Event.disposed 0 ∈ tr := List.count_pos_iff.mp (by omega)
    rw [hfree, hused, hserial] at hiff
    exact absurd (hiff.mpr ⟨by decide, hin⟩) List.not_mem_nil

end Run

end AsyncThreads

end IW4x.Gdk
