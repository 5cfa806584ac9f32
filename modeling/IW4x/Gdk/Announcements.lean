import IW4x.Gdk.Retirement

/-!
# Announcements and completion routines

`finish` submits one task that announces the operation, and the task calls the completion routine
of the block that the slot has when it runs. So an operation is announced at most once, and its
routine is called as often, provided the block was not retired before the announcement ran.
-/

namespace IW4x.Gdk

open Runs

variable {Op : Type}

/-- The event is that an announcement of operation `k` leaves its port to be run. -/
def Event.announced (k : ℕ) : Event → Bool
  | .ran k' .announce _ => k' = k
  | _ => false

/-- The event is that the completion routine of operation `k` is called. -/
def Event.calls (k : ℕ) : Event → Bool
  | .routine k' _ => k' = k
  | _ => false

/-- The task announces the operation of slot `i`. -/
def Task.announces (i : SlotId) : Task → ℕ
  | .held r .announce => if r = i then 1 else 0
  | _ => 0

/-- The activation is going to submit an announcement of slot `i`. -/
def Frame.publishes (i : SlotId) : Frame → ℕ
  | .publish r _ _ => if r = i then 1 else 0
  | _ => 0

/-- The activation is going to run an announcement of slot `i`. -/
def Frame.announcing (i : SlotId) : Frame → ℕ
  | .run r .announce _ => if r = i then 1 else 0
  | _ => 0

/-- The announcement that the activation is about to run finds the operation not retired, and its
block with the completion routine. -/
def Frame.heard (m : Memory Op) : Frame → Bool
  | .run r .announce _ => !(m.slots r).retired &&
      (m.slots r).block.all fun a => (m.blocks a).callback.isSome
  | _ => true

/-- Whether the operation of slot `i` is completed, as a number. -/
def Memory.flag (m : Memory Op) (i : SlotId) : ℕ := if (m.slots i).completed then 1 else 0

/-- The announcements of slot `i` in the ports. -/
def Memory.waiting (m : Memory Op) (i : SlotId) : ℕ := m.queues.weigh (Task.announces i)

/-- What a step that hands out no slot does to the announcements: it moves those of one slot `r`,
of which `ran` leave their port and `called` call a completion routine. -/
structure AnnounceEffect (m : Memory Op) (old : List Frame) (n : Memory Op) (new : List Frame)
    (ev : List Event) (r : SlotId) (ran called : ℕ) : Prop where
  labels : SameLabels m n
  used : 0 < ran + called → (r : ℕ) < m.used
  announced : ∀ k, ev.countP (Event.announced k) = if m.serial r = k then ran else 0
  calls : ∀ k, ev.countP (Event.calls k) = if m.serial r = k then called else 0
  pending : ∀ i, (if r = i then ran else 0) + n.waiting i + Stacks.weight (Frame.publishes i) new +
    m.flag i ≤ m.waiting i + Stacks.weight (Frame.publishes i) old + n.flag i
  running : (∀ f ∈ old.head?, f.heard m = true) → ∀ i,
    (if r = i then ran else 0) + Stacks.weight (Frame.announcing i) old =
      (if r = i then called else 0) + Stacks.weight (Frame.announcing i) new

theorem weight_publishes_away {fs : List Frame} (h : ∀ f ∈ fs, f.announces = none) (i : SlotId) :
    Stacks.weight (Frame.publishes i) fs = 0 := by
  rw [Stacks.weight_eq_zero_iff]
  intro f hf
  have hnone := h f hf
  cases f <;> first | rfl | cases hnone

theorem weight_announcing_away {fs : List Frame} (h : ∀ f ∈ fs, f.announces = none)
    (i : SlotId) : Stacks.weight (Frame.announcing i) fs = 0 := by
  rw [Stacks.weight_eq_zero_iff]
  intro f hf
  have hnone := h f hf
  cases f with
  | run r w canceled =>
    cases w with
    | announce => cases hnone
    | perform => rfl
    | doWork => rfl
  | _ => rfl

theorem Frame.announces_of_light {f : Frame} (light : f.light) : f.announces = none := by
  have hslot := light.1
  cases f <;> first | rfl | cases hslot

theorem Memory.announces_settle (m : Memory Op) (r : SlotId) (b : BlockId) (q : Query)
    (reply : Reply) : ∀ f ∈ m.settle r b q reply, f.announces = none := by
  simp [Memory.settle, Frame.announces]

theorem Memory.announces_after (m : Memory Op) (r : SlotId) (next : Next) :
    ∀ f ∈ m.after r next, f.announces = none := by
  cases next <;> simp [Memory.after, Memory.settle, Frame.announces]

def Event.mute : Event → Bool
  | .ran _ .announce _ => false
  | .routine _ _ => false
  | _ => true

theorem countP_mute {ev : List Event} (mute : ∀ e ∈ ev, e.mute = true) (k : ℕ) :
    ev.countP (Event.announced k) = 0 ∧ ev.countP (Event.calls k) = 0 := by
  simp only [List.countP_eq_zero]
  constructor
  · intro e he
    have hmute := mute e he
    cases e with
    | ran k' w p => cases w <;> simp [Event.announced, Event.mute] at hmute ⊢
    | _ => simp [Event.announced]
  · intro e he
    have hmute := mute e he
    cases e <;> simp [Event.calls, Event.mute] at hmute ⊢

namespace AnnounceEffect

variable {m n : Memory Op} {old new : List Frame} {ev : List Event}

theorem away (r : SlotId) (labels : SameLabels m n) (waiting : ∀ i, n.waiting i = m.waiting i)
    (flag : ∀ i, m.flag i ≤ n.flag i) (away : ∀ f ∈ old, f.announces = none)
    (away' : ∀ f ∈ new, f.announces = none) (mute : ev.all Event.mute = true) :
    AnnounceEffect m old n new ev r 0 0 := by
  rw [List.all_eq_true] at mute
  constructor
  · exact labels
  · intro h
    exact absurd h (lt_irrefl 0)
  · intro k
    simp [(countP_mute mute k).1]
  · intro k
    simp [(countP_mute mute k).2]
  · intro i
    have hflag := flag i
    rw [weight_publishes_away away, weight_publishes_away away', waiting]
    simpa using hflag
  · intro _ i
    rw [weight_announcing_away away, weight_announcing_away away']

theorem off (r : SlotId) (labels : SameLabels m n) (waiting : ∀ i, n.waiting i = m.waiting i)
    (flag : ∀ i, m.flag i ≤ n.flag i) (off : old.filterMap Frame.announces = [])
    (off' : new.filterMap Frame.announces = []) (mute : ev.all Event.mute = true) :
    AnnounceEffect m old n new ev r 0 0 :=
  away r labels waiting flag (List.filterMap_eq_nil_iff.mp off) (List.filterMap_eq_nil_iff.mp off')
    mute

end AnnounceEffect

inductive AnnounceStep (m : Memory Op) :
    List Frame → Memory Op → List Frame → List Event → Prop
  | same {old n new ev} (r ran called) (effect : AnnounceEffect m old n new ev r ran called) :
      AnnounceStep m old n new ev
  | began {a q r n₀ id o provider context n new provided ev}
      (began : Began m a q r n₀ id o provider context)
      (effect : AnnounceEffect n₀ [] n new ev r 0 0) :
      AnnounceStep m [] n new (.begun (n₀.serial r) a provided (n₀.slots r).ports :: ev)

theorem flag_strip (m : Memory Op) (r i : SlotId) : m.flag i = (m.strip r).flag i := by
  by_cases hi : i = r
  · subst hi; simp [Memory.flag, Memory.strip]
  · simp [Memory.flag, Memory.strip, hi]

theorem flag_hold (m : Memory Op) (r i : SlotId) : m.flag i = (m.hold r).flag i := by
  by_cases hi : i = r
  · subst hi; simp [Memory.flag, Memory.hold]
  · simp [Memory.flag, Memory.hold, hi]

theorem flag_drop (m : Memory Op) (r i : SlotId) : m.flag i = (m.drop r).flag i := by
  by_cases hi : i = r
  · subst hi; simp [Memory.flag, Memory.drop]
  · simp [Memory.flag, Memory.drop, hi]

theorem flag_complete (m : Memory Op) (r : SlotId) (hr : HResult) (size : ℕ) (i : SlotId) :
    m.flag i ≤ (m.complete r hr size).flag i := by
  by_cases hi : i = r
  · subst hi
    simp only [Memory.flag, Memory.complete, Memory.setSlot_slots, Function.update_self, if_true]
    split_ifs <;> omega
  · simp [Memory.flag, Memory.complete, hi]

theorem flag_recycle (m : Memory Op) (r i : SlotId) : m.flag i = (m.recycle r).flag i := by
  by_cases hi : i = r
  · subst hi; simp [Memory.flag, Memory.recycle]
  · simp [Memory.flag, Memory.recycle, hi]

theorem flag_retireSlot (m : Memory Op) (r i : SlotId) :
    m.flag i = (m.retireSlot r).flag i := by
  by_cases hi : i = r
  · subst hi; simp [Memory.flag, retireSlot_slots]
  · simp [Memory.flag, retireSlot_slots, hi]

theorem waiting_retireSlot (m : Memory Op) (r i : SlotId) :
    (m.retireSlot r).waiting i = m.waiting i := by
  simp only [Memory.waiting, retireSlot_queues]

theorem waiting_managed {m : Memory Op} {qs : QueuePool Task} (managed : Managed m.queues qs)
    (i : SlotId) : (m.withQueues qs).waiting i = m.waiting i :=
  managed.weigh (Task.announces i) fun _ => rfl

theorem announce_accepted {m n : Memory Op} {alloc : Bool} {now delay : ℕ} {r : SlotId}
    {p : PortId} {f : Work} (sent : m.submit alloc now r p delay f = .accepted n) (i : SlotId) :
    n.waiting i = m.waiting i + (Task.held r f).announces i ∧ m.flag i = n.flag i := by
  obtain ⟨t, haccepted, rfl, -⟩ := Memory.submit_accepted sent
  exact ⟨QueuePool.weigh_accepted (Task.announces i) haccepted, flag_hold m r i⟩

theorem announce_immediate {m n : Memory Op} {alloc : Bool} {now delay : ℕ} {r : SlotId}
    {p : PortId} {f : Work} (sent : m.submit alloc now r p delay f = .immediate n) (i : SlotId) :
    n.waiting i = m.waiting i ∧ m.flag i = n.flag i := by
  obtain ⟨rfl, -⟩ := Memory.submit_immediate sent
  exact ⟨rfl, flag_hold m r i⟩

section Effects

variable {g : Granularity} {m n : Memory Op} {c : Choice Op} {old new : List Frame}
  {ev : List Event}

attribute [local simp] Frame.announces Event.mute Frame.publishes Frame.announcing Event.announced
  Event.calls Task.announces

/-- A task that leaves its port to be run. -/
theorem AnnounceEffect.takes {ran : List Frame} {p : PortId} {now : ℕ} {t : TaskPort.Taken Task}
    (light : ∀ f ∈ old, f.light) (plain : ∀ f ∈ ran, f.plain)
    (taken : (m.queues.owned p).take now = some t)
    (used : ∀ r f, t.item.callback = .held r f → (r : ℕ) < m.used) :
    ∃ r k, AnnounceEffect m old (m.withQueues (m.queues.setPort p t.port))
      (t.item.callback.frames t.canceled ++ ran) (m.ranEvents p t.item.callback) r k 0 := by
  have haway : ∀ f ∈ old, f.announces = none := fun f hf => Frame.announces_of_light (light f hf)
  have haway' : ∀ f ∈ ran, f.announces = none := fun f hf =>
    Frame.announces_of_light (plain f hf).1
  have hweigh := fun i => QueuePool.weigh_taken (Task.announces i) taken
  have hother : (∀ r, t.item.callback ≠ .held r .announce) →
      ∃ r k, AnnounceEffect m old (m.withQueues (m.queues.setPort p t.port))
        (t.item.callback.frames t.canceled ++ ran) (m.ranEvents p t.item.callback) r k 0 := by
    intro hnot
    refine ⟨0, 0, .away 0 (sameLabels_withQueues _ _) ?_ (fun _ => le_refl _) haway ?_ ?_⟩
    · intro i
      have hi := hweigh i
      simp only [Memory.waiting, Memory.withQueues_queues]
      cases htask : t.item.callback with
      | callback x => simpa [htask] using hi
      | held r w =>
        cases w with
        | announce => exact absurd htask (hnot r)
        | perform => simpa [htask] using hi
        | doWork => simpa [htask] using hi
    · intro f hf
      rcases List.mem_append.mp hf with hf | hf
      · cases htask : t.item.callback with
        | callback x =>
          simp only [htask, Task.frames, List.mem_singleton] at hf
          simp [hf]
        | held r w =>
          simp only [htask, Task.frames, List.mem_singleton] at hf
          cases w with
          | announce => exact absurd htask (hnot r)
          | perform => simp [hf]
          | doWork => simp [hf]
      · exact haway' f hf
    · cases htask : t.item.callback with
      | callback x => rfl
      | held r w =>
        cases w with
        | announce => exact absurd htask (hnot r)
        | perform => rfl
        | doWork => rfl
  by_cases hann : ∃ r, t.item.callback = .held r .announce
  · obtain ⟨r, htask⟩ := hann
    refine ⟨r, 1, ?_⟩
    constructor
    · exact sameLabels_withQueues _ _
    · intro _
      exact used r .announce htask
    · intro k
      simp [htask, Memory.ranEvents, List.countP_cons]
    · intro k
      simp [htask, Memory.ranEvents]
    · intro i
      have hi := hweigh i
      simp only [htask] at hi
      rw [Stacks.weight_append, weight_publishes_away haway, weight_publishes_away haway']
      simp only [Memory.waiting, Memory.withQueues_queues, htask, Task.frames]
      simp only [Task.announces] at hi
      change _ + _ + _ + m.flag i ≤ _ + _ + m.flag i
      simp
      omega
    · intro _ i
      rw [Stacks.weight_append, weight_announcing_away haway, weight_announcing_away haway']
      simp [htask, Task.frames]
  · exact hother fun r hr => hann ⟨r, hr⟩

theorem Effect.announcing (effect : Effect g m c old n new ev)
    (queued : ∀ p (r : SlotId) f, .held r f ∈ (m.queues.owned p).callbacks → (r : ℕ) < m.used)
    (used : ∀ f ∈ old, ∀ r, f.slot = some r → (r : ℕ) < m.used)
    (live : ∀ r : SlotId, (r : ℕ) < m.used →
      (m.slots r).retired = false → (m.slots r).block.isSome = true) :
    AnnounceStep m old n new ev := by
  cases effect with
  | manage kept light plain =>
    exact .same _ _ _ (.away 0 (sameLabels_withQueues _ _) (waiting_managed kept.toManaged)
      (fun _ => le_refl _) (fun f hf => Frame.announces_of_light (light f hf))
      (fun f hf => Frame.announces_of_light (plain f hf).1) rfl)
  | adjusts kept light plain =>
    exact .same _ _ _ (.away 0 (sameLabels_withQueues _ _) (waiting_managed kept)
      (fun _ => le_refl _) (fun f hf => Frame.announces_of_light (light f hf))
      (fun f hf => Frame.announces_of_light (plain f hf).1) rfl)
  | prepare =>
    exact .same _ _ _ (.off 0 ⟨rfl, rfl, fun _ => rfl⟩ (fun _ => rfl) (fun _ => le_refl _) rfl rfl rfl)
  | @took _ ran p now t light plain _ taken =>
    obtain ⟨r, k, heffect⟩ := AnnounceEffect.takes light plain taken fun r f htask => by
      obtain ⟨hperm, -⟩ := TaskPort.take_spec taken
      refine queued p r f ?_
      rw [hperm.mem_iff, htask]
      exact List.mem_cons_self
    exact .same _ _ _ heffect
  | beginAccepted began port sent =>
    have haccepted := announce_accepted sent
    exact .began began (.off _ (sameLabels_submit sent).1 (fun i => by simpa using (haccepted i).1)
      (fun i => (haccepted i).2.le) rfl rfl rfl)
  | beginImmediate began port sent =>
    have himmediate := announce_immediate sent
    exact .began began (.off _ (sameLabels_immediate sent).1 (fun i => (himmediate i).1)
      (fun i => (himmediate i).2.le) rfl rfl rfl)
  | beginRefused began =>
    exact .began began (.off _ (sameLabels_retireSlot _ _) (waiting_retireSlot _ _)
      (fun i => (flag_retireSlot _ _ i).le) rfl rfl rfl)
  | providerBegun began =>
    exact .began began (.off _ (.refl _) (fun _ => rfl) (fun _ => le_refl _) rfl rfl rfl)
  | drops =>
    exact .same _ _ _ (.off 0 (sameLabels_retireSlot _ _) (waiting_retireSlot _ _)
      (fun i => (flag_retireSlot _ _ i).le) rfl rfl rfl)
  | finds =>
    exact .same _ _ _ (.off 0 (sameLabels_hold _ _) (fun _ => rfl) (fun i => (flag_hold _ _ i).le)
      rfl rfl rfl)
  | swaps =>
    exact .same _ _ _ (.off 0 (sameLabels_hold _ _) (fun _ => rfl) (fun i => (flag_hold _ _ i).le)
      rfl rfl rfl)
  | @settles f b q r reply call =>
    have hquiet : f.announces = none := by
      rcases call with rfl | ⟨rfl, -⟩ <;> rfl
    exact .same _ _ _ (.away 0 (.refl _) (fun _ => rfl) (fun _ => le_refl _)
      (fun f hf => (List.mem_singleton.mp hf) ▸ hquiet) (m.announces_settle _ _ _ _) rfl)
  | proceeds _ _ _ quiet quiet' =>
    exact .same _ _ _ (.away 0 (.refl _) (fun _ => rfl) (fun _ => le_refl _)
      (fun f hf => (List.mem_singleton.mp hf) ▸ quiet)
      (fun f hf => (List.mem_singleton.mp hf) ▸ quiet') rfl)
  | provides _ _ _ quiet quiet' =>
    exact .same _ _ _ (.away 0 (.refl _) (fun _ => rfl) (fun _ => le_refl _)
      (fun f hf => (List.mem_singleton.mp hf) ▸ quiet)
      (fun f hf => (List.mem_singleton.mp hf) ▸ quiet') rfl)
  | @announces r canceled a block callback =>
    refine .same r 0 1 ⟨.refl _, ?_, ?_, ?_, ?_, ?_⟩
    · intro _
      exact used _ (List.mem_singleton_self _) r rfl
    · intro k
      simp
    · intro k
      simp [List.countP_cons]
    · intro i
      simp
    · intro _ i
      simp
  | @silent r canceled nobody =>
    refine .same r 0 0 ⟨.refl _, ?_, ?_, ?_, ?_, ?_⟩
    · intro h
      exact absurd h (lt_irrefl 0)
    · intro k
      simp
    · intro k
      simp
    · intro i
      simp
    · intro heard
      -- an announcement that is heard finds its routine
      have hheard := heard _ rfl
      simp only [Frame.heard, Bool.and_eq_true, Bool.not_eq_true'] at hheard
      have hused := used _ (List.mem_singleton_self _) r rfl
      obtain ⟨a, ha⟩ := Option.isSome_iff_exists.mp (live r hused hheard.1)
      have hall := hheard.2
      simp [ha, nobody a ha] at hall
  | scheduleAccepted _ _ sent =>
    have haccepted := announce_accepted sent
    exact .same _ _ _ (.away 0 (sameLabels_submit sent).1 (fun i => by simpa using (haccepted i).1)
      (fun i => (haccepted i).2.le) (List.filterMap_eq_nil_iff.mp rfl)
      (m.announces_settle _ _ _ _) rfl)
  | scheduleImmediate _ _ sent =>
    have himmediate := announce_immediate sent
    refine .same _ _ _ (.away 0 (sameLabels_immediate sent).1 (fun i => (himmediate i).1)
      (fun i => (himmediate i).2.le) (List.filterMap_eq_nil_iff.mp rfl) ?_ rfl)
    intro f hf
    rcases List.mem_cons.mp hf with rfl | hf
    · rfl
    · exact m.announces_settle _ _ _ _ f hf
  | finishesAgain =>
    exact .same _ _ _ (.away 0 (.refl _) (fun _ => rfl) (fun _ => le_refl _) (by simp)
      (m.announces_after _ _) (by simp))
  | finishes =>
    exact .same _ _ _ (.away 0 (sameLabels_complete _ _ _ _) (fun _ => rfl) (flag_complete _ _ _ _)
      (List.filterMap_eq_nil_iff.mp rfl) (m.announces_after _ _) rfl)
  | @finishesBlock r hr size next a first =>
    refine .same r 0 0
      ⟨sameLabels_complete _ _ _ _, ?_, ?_, ?_, ?_, ?_⟩
    · intro h
      exact absurd h (lt_irrefl 0)
    · intro k
      simp
    · intro k
      simp
    · intro i
      by_cases hi : i = r
      · subst hi
        simp [Memory.flag, Memory.complete, Memory.waiting, first]
      · simp [Memory.flag, Memory.complete, Memory.waiting, hi, Ne.symm hi]
    · intro _ i
      simp
  | @publishesNothing r a next qs kept =>
    refine .same r 0 0 ⟨sameLabels_withQueues _ _, ?_, ?_, ?_, ?_, ?_⟩
    · intro h
      exact absurd h (lt_irrefl 0)
    · intro k
      simp
    · intro k
      simp
    · intro i
      rw [waiting_managed kept.toManaged, weight_publishes_away (m.announces_after _ _)]
      change _ + _ + _ + m.flag i ≤ _ + _ + m.flag i
      simp
    · intro _ i
      rw [weight_announcing_away (m.announces_after _ _)]
      simp
  | @publishAccepted r a next q qs p n alloc now callback resolved port sent =>
    have haccepted := announce_accepted sent
    have hwaiting := waiting_managed (m := m) (resolve_steady resolved).toManaged
    refine .same r 0 0
      ⟨(sameLabels_withQueues _ _).trans (sameLabels_submit sent).1, ?_, ?_, ?_, ?_, ?_⟩
    · intro h
      exact absurd h (lt_irrefl 0)
    · intro k
      simp
    · intro k
      simp
    · intro i
      rw [(haccepted i).1, hwaiting, weight_publishes_away (m.announces_after _ _),
        ← (haccepted i).2]
      change _ + _ + _ + m.flag i ≤ _ + _ + m.flag i
      simp
    · intro _ i
      rw [weight_announcing_away (m.announces_after _ _)]
      simp
  | @publishImmediate r a next q qs p n alloc now callback resolved port sent =>
    have himmediate := announce_immediate sent
    have hwaiting := waiting_managed (m := m) (resolve_steady resolved).toManaged
    refine .same r 1 0
      ⟨(sameLabels_withQueues _ _).trans (sameLabels_immediate sent).1, ?_, ?_, ?_, ?_, ?_⟩
    · intro _
      exact used _ (List.mem_singleton_self _) r rfl
    · intro k
      simp [List.countP_cons]
    · intro k
      simp
    · intro i
      rw [(himmediate i).1, hwaiting, Stacks.weight_cons,
        weight_publishes_away (m.announces_after _ _), ← (himmediate i).2]
      change _ + _ + _ + m.flag i ≤ _ + _ + m.flag i
      simp
      omega
    · intro _ i
      simp only [Stacks.weight_cons, weight_announcing_away (m.announces_after _ _)]
      simp
  | retiresAgain =>
    exact .same _ _ _ (.away 0 (.refl _) (fun _ => rfl) (fun _ => le_refl _) (by simp)
      (m.announces_settle _ _ _ _) rfl)
  | retires =>
    refine .same _ _ _ (.away 0 (sameLabels_retireSlot _ _) (waiting_retireSlot _ _)
      (fun i => (flag_retireSlot _ _ i).le) (List.filterMap_eq_nil_iff.mp rfl) ?_ rfl)
    intro f hf
    rcases List.mem_cons.mp hf with rfl | hf
    · rfl
    · exact m.announces_settle _ _ _ _ f hf
  | releases =>
    exact .same _ _ _ (.off 0 (sameLabels_drop _ _) (fun _ => rfl) (fun i => (flag_drop _ _ i).le)
      rfl rfl rfl)
  | releasesLast =>
    exact .same _ _ _ (.off 0 (sameLabels_drop _ _) (fun _ => rfl) (fun i => (flag_drop _ _ i).le)
      rfl rfl rfl)
  | destroys =>
    exact .same _ _ _ (.off 0 (sameLabels_strip _ _) (fun _ => rfl)
      (fun i => (flag_strip _ _ i).le) rfl rfl rfl)
  | destroysNothing =>
    exact .same _ _ _ (.off 0 (sameLabels_strip _ _) (fun _ => rfl)
      (fun i => (flag_strip _ _ i).le) rfl rfl rfl)
  | recycles =>
    exact .same _ _ _ (.off 0 (sameLabels_recycle _ _) (fun _ => rfl)
      (fun i => (flag_recycle _ _ i).le) rfl rfl rfl)
  | _ =>
    exact .same _ _ _ (.off 0 (.refl _) (fun _ => rfl) (fun _ => le_refl _) rfl rfl rfl)

end Effects

theorem Task.announces_le (i : SlotId) (t : Task) : t.announces i ≤ t.holds i := by
  cases t with
  | callback x => exact Nat.zero_le _
  | held r w => cases w <;> simp [announces]

theorem Frame.publishes_le (i : SlotId) (f : Frame) : f.publishes i ≤ f.holds i := by
  cases f <;> simp [publishes, holds, slot]

theorem Frame.announcing_le (i : SlotId) (f : Frame) : f.announcing i ≤ f.holds i := by
  cases f with
  | run r w canceled => cases w <;> simp [announcing, holds, slot]
  | _ => simp [announcing]

namespace AsyncThreads

variable {limit : ℕ} {tr ev : List Event} {s s' : AsyncThreads Op} {i : ℕ} {c : Choice Op}

/-- The ledger of announcements: an operation that is completed has been announced, or is going to
be, at most once. -/
structure Announced (tr : List Event) (s : AsyncThreads Op) : Prop where
  slots : ∀ r : SlotId, (r : ℕ) < s.memory.used →
    tr.countP (Event.announced (s.memory.serial r)) + s.memory.waiting r +
      Stacks.total (Frame.publishes r) s.threads ≤ s.memory.flag r
  past : ∀ k, (∀ r : SlotId, (r : ℕ) < s.memory.used → s.memory.serial r ≠ k) →
    tr.countP (Event.announced k) ≤ 1

/-- The ledger of completion routines: an announcement that was run has called one, or is about
to. -/
structure Called (tr : List Event) (s : AsyncThreads Op) : Prop where
  slots : ∀ r : SlotId, (r : ℕ) < s.memory.used →
    tr.countP (Event.announced (s.memory.serial r)) =
      tr.countP (Event.calls (s.memory.serial r)) + Stacks.total (Frame.announcing r) s.threads
  past : ∀ k, (∀ r : SlotId, (r : ℕ) < s.memory.used → s.memory.serial r ≠ k) →
    tr.countP (Event.announced k) = tr.countP (Event.calls k)

theorem at_serial {m : Memory Op} {r x : SlotId} {n : ℕ} (used : 0 < n → (r : ℕ) < m.used)
    (distinct : ∀ x y : SlotId, (x : ℕ) < m.used → (y : ℕ) < m.used →
      m.serial x = m.serial y → x = y) (hx : (x : ℕ) < m.used) :
    (if m.serial r = m.serial x then n else 0) = if r = x then n else 0 := by
  by_cases hrx : r = x
  · simp [hrx]
  · by_cases hn : 0 < n
    · rw [if_neg hrx, if_neg fun heq => hrx (distinct r x (used hn) hx heq)]
    · have hzero : n = 0 := by omega
      simp [hzero]

theorem at_past {m : Memory Op} {r : SlotId} {n k : ℕ} (used : 0 < n → (r : ℕ) < m.used)
    (past : ∀ r : SlotId, (r : ℕ) < m.used → m.serial r ≠ k) :
    (if m.serial r = k then n else 0) = 0 := by
  by_cases hn : 0 < n
  · rw [if_neg (past r (used hn))]
  · simp only [ite_eq_right_iff]
    intro _
    omega

section Moves

variable {old rest new : List Frame} {n : Memory Op} {r : SlotId} {ran called : ℕ}

theorem Announced.effect (announced : Announced tr s)
    (hstack : s.threads[i]? = some (old ++ rest))
    (distinct : ∀ x y : SlotId, (x : ℕ) < s.memory.used → (y : ℕ) < s.memory.used →
      s.memory.serial x = s.memory.serial y → x = y)
    (effect : AnnounceEffect s.memory old n new ev r ran called) :
    Announced (tr ++ ev) { s with memory := n, threads := s.threads.set i (new ++ rest) } := by
  have hran : 0 < ran → (r : ℕ) < s.memory.used := fun h => effect.used (by omega)
  constructor
  · intro x hx
    have hx : (x : ℕ) < s.memory.used := effect.labels.used ▸ hx
    have hold := announced.slots x hx
    have hpending := effect.pending x
    obtain ⟨hle, htotal⟩ := total_moved (Frame.publishes x) new hstack
    dsimp only
    rw [effect.labels.serial, List.countP_append, effect.announced, at_serial hran distinct hx,
      htotal]
    omega
  · intro k hnot
    have hnot : ∀ r : SlotId, (r : ℕ) < s.memory.used → s.memory.serial r ≠ k := by
      intro x hx
      rw [← effect.labels.serial]
      exact hnot x (effect.labels.used.symm ▸ hx)
    rw [List.countP_append, effect.announced, at_past hran hnot]
    exact announced.past k hnot

theorem Called.effect (ledger : Called tr s) (hstack : s.threads[i]? = some (old ++ rest))
    (distinct : ∀ x y : SlotId, (x : ℕ) < s.memory.used → (y : ℕ) < s.memory.used →
      s.memory.serial x = s.memory.serial y → x = y)
    (heard : ∀ f ∈ old.head?, f.heard s.memory = true)
    (effect : AnnounceEffect s.memory old n new ev r ran called) :
    Called (tr ++ ev) { s with memory := n, threads := s.threads.set i (new ++ rest) } := by
  have hran : 0 < ran → (r : ℕ) < s.memory.used := fun h => effect.used (by omega)
  have hcalled : 0 < called → (r : ℕ) < s.memory.used := fun h => effect.used (by omega)
  constructor
  · intro x hx
    have hx : (x : ℕ) < s.memory.used := effect.labels.used ▸ hx
    have hold := ledger.slots x hx
    have hrunning := effect.running heard x
    obtain ⟨hle, htotal⟩ := total_moved (Frame.announcing x) new hstack
    dsimp only
    rw [effect.labels.serial, List.countP_append, List.countP_append, effect.announced,
      effect.calls, at_serial hran distinct hx, at_serial hcalled distinct hx, htotal]
    omega
  · intro k hnot
    have hnot : ∀ r : SlotId, (r : ℕ) < s.memory.used → s.memory.serial r ≠ k := by
      intro x hx
      rw [← effect.labels.serial]
      exact hnot x (effect.labels.used.symm ▸ hx)
    rw [List.countP_append, List.countP_append, effect.announced, effect.calls, at_past hran hnot,
      at_past hcalled hnot]
    exact ledger.past k hnot

end Moves

section HandOut

variable {a : BlockId} {q : QueueId} {r : SlotId} {n : Memory Op} {id : Option ℕ} {o : Option Op}
  {provider : Option ℕ} {context : ℕ}

/-- A slot that is handed out: nothing of its last operation is left, and nothing is known of its
new one. -/
structure Blank (tr : List Event) (s : AsyncThreads Op) (r : SlotId) (n : Memory Op) : Prop where
  waiting : s.memory.waiting r = 0
  publishes : Stacks.total (Frame.publishes r) s.threads = 0
  announcing : Stacks.total (Frame.announcing r) s.threads = 0
  announced : tr.countP (Event.announced (n.serial r)) = 0
  calls : tr.countP (Event.calls (n.serial r)) = 0

theorem blank_of_began (serials : Serials tr s) (audit : Audit limit s)
    (began : Began s.memory a q r n id o provider context) : Blank tr s r n := by
  have hfresh := audit.sound.began_fresh began
  have hidle : s.count r = 0 := by
    obtain ⟨qs, acquired, -, hacquire, -⟩ := began
    exact (audit.sound.picked_idle (Memory.acquire_some hacquire)).1
  simp only [count, Memory.kept] at hidle
  have hunborn : ∀ e ∈ tr, e.serial ≠ some (n.serial r) := by
    intro e he hserial
    rw [hfresh.serial] at hserial
    exact serials.unborn hserial (le_refl _) he
  constructor
  · have hle := QueuePool.weigh_mono (Task.announces_le r) s.memory.queues
    simp only [Memory.waiting]
    omega
  · have hle := Stacks.total_mono (Frame.publishes_le r) s.threads
    omega
  · have hle := Stacks.total_mono (Frame.announcing_le r) s.threads
    omega
  · rw [List.countP_eq_zero]
    intro e he hannounced
    refine hunborn e he ?_
    cases e with
    | ran k w p => cases w <;> simp_all [Event.announced, Event.serial]
    | _ => simp [Event.announced] at hannounced
  · rw [List.countP_eq_zero]
    intro e he hcalls
    refine hunborn e he ?_
    cases e <;> simp_all [Event.calls, Event.serial]

theorem waiting_began (began : Began s.memory a q r n id o provider context) (x : SlotId) :
    n.waiting x = s.memory.waiting x := by
  obtain ⟨qs, acquired, hresolve, -, rfl⟩ := began
  exact waiting_managed (resolve_steady hresolve).toManaged x

theorem Announced.handOut (announced : Announced tr s) (serials : Serials tr s)
    (audit : Audit limit s) (began : Began s.memory a q r n id o provider context) (p : Bool)
    (ps : Option PortId × Option PortId) :
    Announced (tr ++ [.begun (n.serial r) a p ps]) { s with memory := n } := by
  have hfresh := audit.sound.began_fresh began
  have hblank := blank_of_began serials audit began
  have hcount : ∀ k, (tr ++ [Event.begun (n.serial r) a p ps]).countP (Event.announced k) =
      tr.countP (Event.announced k) := by
    intro k
    simp [List.countP_append, Event.announced]
  constructor
  · intro x hx
    dsimp only
    rw [hcount, waiting_began began]
    by_cases hxr : x = r
    · subst hxr
      rw [hblank.announced, hblank.waiting, hblank.publishes]
      exact Nat.zero_le _
    · have hold := announced.slots x (((hfresh.used x).mp hx).resolve_left hxr)
      simpa only [Memory.serial, Memory.flag, hfresh.others x hxr] using hold
  · intro k hnot
    rw [hcount]
    by_cases hold : (r : ℕ) < s.memory.used ∧ s.memory.serial r = k
    · obtain ⟨hr, rfl⟩ := hold
      have hle := announced.slots r hr
      have hflag : s.memory.flag r ≤ 1 := by
        simp only [Memory.flag]
        split_ifs <;> omega
      omega
    · refine announced.past k fun x hx heq => ?_
      by_cases hxr : x = r
      · exact hold ⟨hxr ▸ hx, hxr ▸ heq⟩
      · refine hnot x ((hfresh.used x).mpr (.inr hx)) ?_
        simpa only [Memory.serial, hfresh.others x hxr] using heq

theorem Called.handOut (ledger : Called tr s) (serials : Serials tr s)
    (audit : Audit limit s) (began : Began s.memory a q r n id o provider context) (p : Bool)
    (ps : Option PortId × Option PortId) :
    Called (tr ++ [.begun (n.serial r) a p ps]) { s with memory := n } := by
  have hfresh := audit.sound.began_fresh began
  have hblank := blank_of_began serials audit began
  have hcount : ∀ k, (tr ++ [Event.begun (n.serial r) a p ps]).countP (Event.announced k) =
      tr.countP (Event.announced k) ∧
      (tr ++ [Event.begun (n.serial r) a p ps]).countP (Event.calls k) =
      tr.countP (Event.calls k) := by
    intro k
    simp [List.countP_append, Event.announced, Event.calls]
  constructor
  · intro x hx
    dsimp only
    rw [(hcount _).1, (hcount _).2]
    by_cases hxr : x = r
    · subst hxr
      rw [hblank.announced, hblank.calls, hblank.announcing]
    · have hold := ledger.slots x (((hfresh.used x).mp hx).resolve_left hxr)
      simpa only [Memory.serial, hfresh.others x hxr] using hold
  · intro k hnot
    rw [(hcount _).1, (hcount _).2]
    by_cases hold : (r : ℕ) < s.memory.used ∧ s.memory.serial r = k
    · obtain ⟨hr, rfl⟩ := hold
      have heq := ledger.slots r hr
      rw [hblank.announcing] at heq
      exact heq
    · refine ledger.past k fun x hx heq => ?_
      by_cases hxr : x = r
      · exact hold ⟨hxr ▸ hx, hxr ▸ heq⟩
      · refine hnot x ((hfresh.used x).mpr (.inr hx)) ?_
        simpa only [Memory.serial, hfresh.others x hxr] using heq

end HandOut

/-- An announcement that the step runs finds the operation not retired, and its block with the
completion routine. -/
def AnnouncesHeard (s : AsyncThreads Op) (input : ℕ × Choice Op) : Prop :=
  ∀ stack ∈ s.threads[input.1]?, ∀ f ∈ stack.head?, f.heard s.memory = true

instance announcesHeard_decidable (s : AsyncThreads Op) (input : ℕ × Choice Op) :
    Decidable (AnnouncesHeard s input) := by
  unfold AnnouncesHeard
  infer_instance

theorem announceStep (accounted : Accounted s) {old rest new : List Frame} {n : Memory Op}
    (hstack : s.threads[i]? = some (old ++ rest))
    (heffect : Effect .whole s.memory c old n new ev) : AnnounceStep s.memory old n new ev := by
  have hsound := accounted.audit.sound
  refine heffect.announcing ?_ ?_ ?_
  · intro p r f hqueued
    have hle := QueuePool.le_weigh (Task.holds r) hqueued
    simp only [Task.holds_held, if_true] at hle
    refine audit_used accounted.audit (.inl ?_)
    simp only [count, Memory.kept]
    omega
  · intro f hf r hr
    exact frame_used accounted.audit (List.mem_of_getElem? hstack) (List.mem_append_left _ hf)
      (.inl hr)
  · intro r hr hlive
    exact (hsound.retired r hr).mp hlive

theorem Announced.step (announced : Announced tr s) (serials : Serials tr s)
    (accounted : Accounted s) (h : AsyncThreads.step .whole s (i, c) = some (s', ev)) :
    Announced (tr ++ ev) s' := by
  rcases step_cases h with ⟨fault, rfl, rfl⟩ | ⟨old, rest, new, n, hstack, heffect, -, rfl⟩
  · have hcount : ∀ k, (tr ++ [Event.ended fault]).countP (Event.announced k) =
        tr.countP (Event.announced k) := by
      intro k
      simp [List.countP_append, Event.announced]
    constructor
    · intro r hr
      rw [hcount]
      exact announced.slots r hr
    · intro k hnot
      rw [hcount]
      exact announced.past k hnot
  cases announceStep accounted hstack heffect with
  | same _ _ _ effect => exact announced.effect hstack serials.distinct effect
  | @began a q r n₀ _ _ _ _ _ _ provided ev' began effect =>
    have hbegun : Announced _ { s with memory := n₀ } :=
      announced.handOut serials accounted.audit began provided (n₀.slots r).ports
    have hdistinct := fresh_distinct serials (accounted.audit.sound.began_fresh began)
    rw [List.append_cons]
    exact hbegun.effect hstack hdistinct effect

theorem Called.step (ledger : Called tr s) (serials : Serials tr s) (accounted : Accounted s)
    (heard : AnnouncesHeard s (i, c))
    (h : AsyncThreads.step .whole s (i, c) = some (s', ev)) : Called (tr ++ ev) s' := by
  rcases step_cases h with ⟨fault, rfl, rfl⟩ | ⟨old, rest, new, n, hstack, heffect, -, rfl⟩
  · have hcount : ∀ k, (tr ++ [Event.ended fault]).countP (Event.announced k) =
        tr.countP (Event.announced k) ∧
        (tr ++ [Event.ended fault]).countP (Event.calls k) = tr.countP (Event.calls k) := by
      intro k
      simp [List.countP_append, Event.announced, Event.calls]
    constructor
    · intro r hr
      rw [(hcount _).1, (hcount _).2]
      exact ledger.slots r hr
    · intro k hnot
      rw [(hcount _).1, (hcount _).2]
      exact ledger.past k hnot
  cases announceStep accounted hstack heffect with
  | same _ _ _ effect =>
    refine ledger.effect hstack serials.distinct ?_ effect
    intro f hf
    refine heard _ hstack f ?_
    rw [List.head?_append, Option.mem_def.mp hf]
    rfl
  | @began a q r n₀ _ _ _ _ _ _ provided ev' began effect =>
    have hbegun : Called _ { s with memory := n₀ } :=
      ledger.handOut serials accounted.audit began provided (n₀.slots r).ports
    have hdistinct := fresh_distinct serials (accounted.audit.sound.began_fresh began)
    rw [List.append_cons]
    exact hbegun.effect hstack hdistinct (by simp) effect

theorem ledgers_start (threads : ℕ) :
    Announced [] (start threads : AsyncThreads Op) ∧ Called [] (start threads : AsyncThreads Op) := by
  constructor <;> constructor <;> simp [start, Memory.start]

/-- Nobody is about to run an announcement. -/
def Announcing (s : AsyncThreads Op) : Prop :=
  ∃ stack ∈ s.threads, ∃ f ∈ stack, ∃ r canceled, f = .run r .announce canceled

theorem Called.settled (ledger : Called tr s) (settled : ¬ s.Announcing) (k : ℕ) :
    tr.countP (Event.announced k) = tr.countP (Event.calls k) := by
  have hnone : ∀ r, Stacks.total (Frame.announcing r) s.threads = 0 := by
    intro r
    rw [Stacks.total_eq_zero_iff]
    intro stack hstack f hf
    cases f with
    | run x w canceled =>
      cases w with
      | announce => exact absurd ⟨stack, hstack, _, hf, x, canceled, rfl⟩ settled
      | perform => rfl
      | doWork => rfl
    | _ => rfl
  by_cases hslot : ∃ r : SlotId, (r : ℕ) < s.memory.used ∧ s.memory.serial r = k
  · obtain ⟨r, hr, rfl⟩ := hslot
    have heq := ledger.slots r hr
    rw [hnone r] at heq
    exact heq
  · exact ledger.past k fun r hr heq => hslot ⟨r, hr, heq⟩

theorem Called.le (ledger : Called tr s) (k : ℕ) :
    tr.countP (Event.calls k) ≤ tr.countP (Event.announced k) := by
  by_cases hslot : ∃ r : SlotId, (r : ℕ) < s.memory.used ∧ s.memory.serial r = k
  · obtain ⟨r, hr, rfl⟩ := hslot
    have heq := ledger.slots r hr
    omega
  · exact (ledger.past k fun r hr heq => hslot ⟨r, hr, heq⟩).ge

theorem Announced.once (announced : Announced tr s) (k : ℕ) :
    tr.countP (Event.announced k) ≤ 1 := by
  by_cases hslot : ∃ r : SlotId, (r : ℕ) < s.memory.used ∧ s.memory.serial r = k
  · obtain ⟨r, hr, rfl⟩ := hslot
    have hle := announced.slots r hr
    have hflag : s.memory.flag r ≤ 1 := by
      simp only [Memory.flag]
      split_ifs <;> omega
    omega
  · exact announced.past k fun r hr heq => hslot ⟨r, hr, heq⟩

theorem routine_block {k : ℕ} {b : BlockId}
    (h : AsyncThreads.step .whole s (i, c) = some (s', ev)) (called : .routine k b ∈ ev) :
    ∃ r, k = s.memory.serial r ∧ (s.memory.slots r).block = some b := by
  rcases step_cases h with ⟨fault, rfl, rfl⟩ | ⟨old, rest, new, n, -, heffect, -, rfl⟩
  · simp at called
  cases heffect with
  | @announces r canceled a block callback =>
    simp only [List.mem_singleton, Event.routine.injEq] at called
    exact ⟨r, called.1, called.2 ▸ block⟩
  | @took _ _ p now t =>
    cases htask : t.item.callback with
    | held r f => simp [htask, Memory.ranEvents] at called
    | callback x => simp [htask, Memory.ranEvents] at called
  | _ => simp at called

/-- The announcement of a retired operation, or of one whose block has lost its routine, ends
without a call. -/
theorem unheard_silent (accounted : Accounted s) (unheard : ¬ AnnouncesHeard s (i, c))
    (h : AsyncThreads.step .whole s (i, c) = some (s', ev)) :
    ∃ r canceled rest, s.threads[i]? = some (.run r .announce canceled :: rest) ∧
      s'.threads[i]? = some (.release r .task :: rest) ∧ ev = [] := by
  simp only [AnnouncesHeard, not_forall] at unheard
  obtain ⟨stack, hstack, f, hf, hunheard⟩ := unheard
  obtain ⟨r, canceled, rfl⟩ : ∃ r canceled, f = .run r .announce canceled := by
    cases f with
    | run r w canceled =>
      cases w with
      | announce => exact ⟨r, canceled, rfl⟩
      | perform => exact absurd rfl hunheard
      | doWork => exact absurd rfl hunheard
    | _ => exact absurd rfl hunheard
  obtain ⟨rest, rfl⟩ : ∃ rest, stack = .run r .announce canceled :: rest := by
    cases stack with
    | nil => cases hf
    | cons x rest => exact ⟨rest, by rw [Option.some.inj hf]⟩
  have hused := frame_used accounted.audit (List.mem_of_getElem? hstack) List.mem_cons_self
    (.inl rfl)
  have hsilent : ∀ a, (s.memory.slots r).block = some a →
      (s.memory.blocks a).callback.isSome = false := by
    intro a ha
    have hlive := (accounted.audit.sound.retired r hused).mpr (by simp [ha])
    simpa [Frame.heard, ha, hlive] using hunheard
  have hstack : s.threads[i]? = some (.run r .announce canceled :: rest) := hstack
  have hgo : ∀ e, s.memory.go e (.run r .announce canceled) =
      some (.next s.memory [.release r .task] []) := by
    intro e
    simp only [Memory.go, Memory.runStep]
    cases hblock : (s.memory.slots r).block with
    | none => rfl
    | some a => simp [hsilent a hblock]
  refine ⟨r, canceled, rest, hstack, ?_⟩
  obtain ⟨hlt, -⟩ := List.getElem?_eq_some_iff.mp hstack
  simp only [AsyncThreads.step] at h
  split at h
  · rename_i stack _ hstack'
    obtain rfl := Option.some.inj (hstack.symm.trans hstack')
    cases c with
    | call x e => simp [move, mayCall, Frame.outside] at h
    | answer a => simp [move, Memory.answer] at h
    | go e =>
      simp only [move, hgo, Option.map_some, Option.some.injEq, Prod.mk.injEq] at h
      obtain ⟨rfl, rfl⟩ := h
      simp [hlt]
  · cases h

/-- What `reaches_announced` carries along a run. -/
theorem reaches_announced {threads : ℕ}
    (h : Reaches (step .whole) AnnouncesHeard (start threads) tr s) :
    Announced tr s ∧ Called tr s ∧
      ∀ k b, .routine k b ∈ tr → ∃ provided ps, .begun k b provided ps ∈ tr := by
  have hall : Accounted s ∧ Serials tr s ∧ Links tr s ∧ Announced tr s ∧ Called tr s ∧
      ∀ k b, .routine k b ∈ tr → ∃ provided ps, .begun k b provided ps ∈ tr := by
    refine h.invariant (P := fun tr s => Accounted s ∧ Serials tr s ∧ Links tr s ∧
      Announced tr s ∧ Called tr s ∧
        ∀ k b, .routine k b ∈ tr → ∃ provided ps, .begun k b provided ps ∈ tr)
      ⟨accounted_start threads, serials_start threads, links_start threads,
        (ledgers_start threads).1, (ledgers_start threads).2, ?_⟩ ?_
    · intro k b hroutine
      cases hroutine
    · rintro tr s ⟨i, c⟩ t ev ⟨haccounted, hserials, hlinks, hannounced, hcalled, hbegun⟩ hheard hstep
      refine ⟨haccounted.step hstep,
        hserials.step haccounted.audit (haccounted.ready i c) hstep,
        hlinks.step hserials haccounted hstep, hannounced.step hserials haccounted hstep,
        hcalled.step hserials haccounted hheard hstep, ?_⟩
      intro k b hroutine
      rcases List.mem_append.mp hroutine with hroutine | hroutine
      · obtain ⟨provided, ps, h⟩ := hbegun k b hroutine
        exact ⟨provided, ps, List.mem_append_left _ h⟩
      · obtain ⟨r, rfl, hblock⟩ := routine_block hstep hroutine
        obtain ⟨provided, ps, h⟩ := hlinks.begun r b hblock
        exact ⟨provided, ps, List.mem_append_left _ h⟩
  exact hall.2.2.2

/-- Whatever ends an operation and whatever the mode of the port: in a run in which every
announcement that is dispatched finds its operation not retired, the completion routine of an
operation whose announcement was dispatched has been called exactly once, with the block the
operation was begun on, when nobody is about to run an announcement any more. An announcement of
any run that comes after its operation was retired calls no routine. -/
theorem announcements_call_routine {threads : ℕ} :
    (∀ tr (s : AsyncThreads Op), Reaches (step .whole) AnnouncesHeard (start threads) tr s →
      ∀ k, tr.countP (Event.calls k) ≤ 1 ∧
        (∀ b, .routine k b ∈ tr → ∃ provided ps, .begun k b provided ps ∈ tr) ∧
        ∀ p, .ran k .announce p ∈ tr → ¬ s.Announcing → tr.countP (Event.calls k) = 1) ∧
    ∀ tr (s : AsyncThreads Op), Reaches (step .whole) always (start threads) tr s →
      ∀ i c s' ev, ¬ AnnouncesHeard s (i, c) → step .whole s (i, c) = some (s', ev) →
        ∃ r canceled rest, s.threads[i]? = some (.run r .announce canceled :: rest) ∧
          s'.threads[i]? = some (.release r .task :: rest) ∧ ev = [] := by
  constructor
  · intro tr s h k
    obtain ⟨hannounced, hcalled, hbegun⟩ := reaches_announced h
    have honce := hannounced.once k
    refine ⟨(hcalled.le k).trans honce, fun b hb => hbegun k b hb, ?_⟩
    intro p hran hnobody
    have hpos : 0 < tr.countP (Event.announced k) :=
      List.countP_pos_iff.mpr ⟨_, hran, by simp [Event.announced]⟩
    rw [← hcalled.settled hnobody k]
    omega
  · intro tr s h i c s' ev hunheard hstep
    exact unheard_silent (reaches_accounted h) hunheard hstep

section Run

/-- An operation with a completion routine is begun on a queue whose completion port has the mode,
and canceled; the announcement is submitted. -/
def cancelPending (c : DispatchMode) : List (ℕ × Choice Unit) :=
  [(0, .call (.createQueue .manual c) {}), (0, .go {}),
    (0, .call (.prepare 0 (some 0) (some 7)) {}), (0, .call (.begin (some 0) 1 ()) {}), (0, .go {}),
    (0, .call (.query (some 0) .cancel) {}), (0, .go {}), (0, .go {}), (0, .go {})]

/-- The immediate port runs the announcement before the operation is retired. -/
def announceFirst : List (ℕ × Choice Unit) :=
  [(0, .go {}), (0, .answer (.returned 0)), (0, .go {}), (0, .go {}), (0, .go {}), (0, .go {}),
    (0, .go {})]

/-- The manual port is dispatched after `cancel` has returned. -/
def announceLast : List (ℕ × Choice Unit) :=
  [(0, .go {}), (0, .go {}), (0, .go {}), (0, .go {}), (0, .call (.work 1) {}), (0, .go {})]

theorem announceFirst_trace :
    (execute (step .whole) (start 1) (cancelPending .immediate ++ announceFirst)).map
        (fun last => (last.2, last.1.threads)) =
      some ([.returned .queue (.flag true), .begun 0 0 false (some 0, some 1),
        .queued 0 .perform 0, .returned (.begin (some 0)) (.code S_OK), .found 0,
        .finished 0 E_ABORT, .queued 0 .announce 1, .ran 0 .announce 1, .routine 0 0, .retired 0,
        .returned (.query (some 0) .cancel (some 0)) (.code S_OK)], [[]]) := by
  decide

theorem announceLast_trace :
    (execute (step .whole) (start 1) (cancelPending .manual ++ announceLast)).map
        (fun last => (last.2, last.1.threads)) =
      some ([.returned .queue (.flag true), .begun 0 0 false (some 0, some 1),
        .queued 0 .perform 0, .returned (.begin (some 0)) (.code S_OK), .found 0,
        .finished 0 E_ABORT, .queued 0 .announce 1, .retired 0,
        .returned (.query (some 0) .cancel (some 0)) (.code S_OK), .ran 0 .announce 1],
        [[.release 0 .task]]) := by
  decide

theorem announceLast_unheard :
    (execute (step .whole) (start 1) (cancelPending .manual ++ announceLast.dropLast)).map
        (fun last => (decide (AnnouncesHeard last.1 (0, (.go {} : Choice Unit))),
          (step .whole last.1 (0, .go {})).isSome)) = some (false, true) := by
  decide

theorem announcements_call_routine_canceled :
    (∃ (s : AsyncThreads Unit) (tr : List Event),
      Reaches (step .whole) AnnouncesHeard (start 1) tr s ∧
        tr.countP (Event.calls 0) = 1 ∧ .finished 0 E_ABORT ∈ tr) ∧
    ∃ (s s' : AsyncThreads Unit) (ev : List Event), step .whole s (0, .go {}) = some (s', ev) ∧
      ∃ r canceled rest, s.threads[0]? = some (.run r .announce canceled :: rest) ∧
        s'.threads[0]? = some (.release r .task :: rest) ∧ ev = [] := by
  constructor
  · obtain ⟨⟨s, tr⟩, hrun, hlast⟩ := Option.map_eq_some_iff.mp announceFirst_trace
    simp only [Prod.mk.injEq] at hlast
    obtain ⟨rfl, hthreads⟩ := hlast
    have h : Reaches (step .whole) AnnouncesHeard (start 1) _ s :=
      reaches_of_execute _ hrun (by decide)
    have hnobody : ¬ s.Announcing := by
      simp [Announcing, hthreads]
    exact ⟨s, _, h, (announcements_call_routine.1 _ s h 0).2.2 1 (by simp) hnobody, by simp⟩
  · obtain ⟨⟨s, tr⟩, hrun, hlast⟩ := Option.map_eq_some_iff.mp announceLast_unheard
    simp only [Prod.mk.injEq, decide_eq_false_iff_not, Option.isSome_iff_exists,
      Prod.exists] at hlast
    obtain ⟨hunheard, s', ev, hstep⟩ := hlast
    exact ⟨s, s', ev, hstep,
      announcements_call_routine.2 tr s (reaches_of_run hrun) 0 _ s' ev hunheard hstep⟩

/-- An operation with a routine that is canceled on a manual port is announced, but its routine is
not called. -/
theorem canceled_routine_is_lost :
    ¬ ∀ (tr : List Event) (s : AsyncThreads Unit), Reaches (step .whole) always (start 1) tr s →
      ∀ k p, .ran k .announce p ∈ tr → ¬ s.Announcing → tr.countP (Event.calls k) = 1 := by
  intro hclaim
  obtain ⟨⟨s, tr⟩, hrun, hlast⟩ := Option.map_eq_some_iff.mp announceLast_trace
  simp only [Prod.mk.injEq] at hlast
  obtain ⟨rfl, hthreads⟩ := hlast
  have hnobody : ¬ s.Announcing := by
    simp [Announcing, hthreads]
  have hone := hclaim _ s (reaches_of_run hrun) 0 1 (by simp) hnobody
  simp [Event.calls] at hone

end Run

end AsyncThreads

end IW4x.Gdk
