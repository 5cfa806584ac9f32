import IW4x.Gdk.Holds

/-!
# Which operation a slot belongs to

Every `acquire` gives the slot the next serial number, so an operation goes by one number for good.
The ledger ties the serials of the slots to the events of the run: an operation is begun once, and
disposed of and put back once, in that order.
-/

namespace IW4x.Gdk

open Runs
open Stacks (none_of_any)

variable {Op : Type}

/-- The operation that an event tells of. -/
def Event.serial : Event → Option ℕ
  | .begun k _ _ _ => some k
  | .found k => some k
  | .provider k _ _ => some k
  | .worked k => some k
  | .queued k _ _ => some k
  | .ran k _ _ => some k
  | .routine k _ => some k
  | .finished k _ => some k
  | .retired k => some k
  | .disposed k => some k
  | .recycled k => some k
  | .returned _ _ => none
  | .ended _ => none

/-- The event tells of a slot that is handed out, let go or put back. -/
def Event.pool : Event → Bool
  | .begun .. => true
  | .disposed _ => true
  | .recycled _ => true
  | _ => false

/-- The fields of a slot that stay from one `acquire` to the next. -/
def AsyncState.label (s : AsyncState Op) :
    ℕ × Option QueueId × ℕ × (Option PortId × Option PortId) :=
  (s.serial, s.queue, s.generation, s.ports)

/-- No slot was handed out. -/
structure SameLabels (m n : Memory Op) : Prop where
  used : n.used = m.used
  acquired : n.acquired = m.acquired
  label : ∀ r, (n.slots r).label = (m.slots r).label

theorem SameLabels.refl (m : Memory Op) : SameLabels m m := ⟨rfl, rfl, fun _ => rfl⟩

theorem SameLabels.serial {m n : Memory Op} (h : SameLabels m n) (r : SlotId) :
    n.serial r = m.serial r := by
  have hlabel := h.label r
  simp only [AsyncState.label, Prod.mk.injEq] at hlabel
  exact hlabel.1

theorem sameLabels_setSlot {m : Memory Op} {r : SlotId} {s : AsyncState Op}
    (label : s.label = (m.slots r).label) : SameLabels m (m.setSlot r s) := by
  refine ⟨rfl, rfl, ?_⟩
  intro i
  by_cases hi : i = r
  · subst hi; simp [label]
  · simp [hi]

theorem sameLabels_hold (m : Memory Op) (r : SlotId) : SameLabels m (m.hold r) :=
  sameLabels_setSlot rfl

theorem sameLabels_drop (m : Memory Op) (r : SlotId) : SameLabels m (m.drop r) := by
  refine ⟨rfl, rfl, ?_⟩
  intro i
  by_cases hi : i = r
  · subst hi; simp [Memory.drop, AsyncState.label]
  · simp [Memory.drop, hi]

theorem sameLabels_complete (m : Memory Op) (r : SlotId) (hr : HResult) (size : ℕ) :
    SameLabels m (m.complete r hr size) :=
  sameLabels_setSlot rfl

theorem sameLabels_strip (m : Memory Op) (r : SlotId) : SameLabels m (m.strip r) :=
  sameLabels_setSlot rfl

theorem sameLabels_withQueues (m : Memory Op) (q : QueuePool Task) :
    SameLabels m (m.withQueues q) := ⟨rfl, rfl, fun _ => rfl⟩

theorem SameLabels.trans {m n o : Memory Op} (h : SameLabels m n) (h' : SameLabels n o) :
    SameLabels m o :=
  ⟨h'.used.trans h.used, h'.acquired.trans h.acquired,
    fun r => (h'.label r).trans (h.label r)⟩

theorem sameLabels_retireSlot (m : Memory Op) (r : SlotId) : SameLabels m (m.retireSlot r) := by
  have hset : SameLabels m (m.setSlot r { m.slots r with retired := true, block := none }) :=
    sameLabels_setSlot rfl
  unfold Memory.retireSlot
  dsimp only
  split
  · exact hset
  · exact ⟨hset.used, hset.acquired, hset.label⟩

theorem sameLabels_recycle (m : Memory Op) (r : SlotId) : SameLabels m (m.recycle r) := by
  refine ⟨rfl, rfl, ?_⟩
  intro i
  by_cases hi : i = r
  · subst hi; simp [Memory.recycle, AsyncState.label]
  · simp [Memory.recycle, hi]

theorem retireSlot_free (m : Memory Op) (r : SlotId) : (m.retireSlot r).free = m.free := by
  unfold Memory.retireSlot
  dsimp only
  split <;> rfl

theorem sameLabels_submit {m n : Memory Op} {alloc : Bool} {now delay : ℕ} {r : SlotId}
    {p : PortId} {f : Work} (sent : m.submit alloc now r p delay f = .accepted n) :
    SameLabels m n ∧ n.free = m.free := by
  obtain ⟨t, -, rfl, -⟩ := Memory.submit_accepted sent
  have hhold : SameLabels m (m.hold r) := sameLabels_setSlot rfl
  exact ⟨hhold.trans (sameLabels_withQueues _ _), rfl⟩

theorem sameLabels_immediate {m n : Memory Op} {alloc : Bool} {now delay : ℕ} {r : SlotId}
    {p : PortId} {f : Work} (sent : m.submit alloc now r p delay f = .immediate n) :
    SameLabels m n ∧ n.free = m.free := by
  obtain ⟨rfl, -⟩ := Memory.submit_immediate sent
  exact ⟨sameLabels_setSlot rfl, rfl⟩

/-- What a step means for the pool. -/
inductive PoolEffect (m : Memory Op) : List Frame → Memory Op → List Frame → List Event → Prop
  | quiet {old n new ev} (labels : SameLabels m n) (free : n.free = m.free)
      (disposals : ∀ i, Stacks.weight (Frame.disposes i) new =
        Stacks.weight (Frame.disposes i) old)
      (events : ∀ e ∈ ev, e.pool = false) : PoolEffect m old n new ev
  | disposed {r owner} (last : holdsOf (m.slots r).state = 1) :
      PoolEffect m [.release r owner] (m.drop r) [.dispose r] [.disposed (m.serial r)]
  | recycled {r} : PoolEffect m [.recycle r] (m.recycle r) [] [.recycled (m.serial r)]
  | began {a q r n₀ id o provider context n new provided ev}
      (began : Began m a q r n₀ id o provider context) (labels : SameLabels n₀ n)
      (free : n.free = n₀.free)
      (disposals : ∀ i, Stacks.weight (Frame.disposes i) new = 0)
      (events : ∀ e ∈ ev, e.pool = false)
      (serials : ∀ e ∈ ev, ∀ k, e.serial = some k → k = n.serial r) :
      PoolEffect m [] n new (.begun (n.serial r) a provided (n₀.slots r).ports :: ev)

section Effects

variable {g : Granularity} {m n : Memory Op} {c : Choice Op} {old new : List Frame}
  {ev : List Event}

attribute [local simp] Frame.disposes Frame.disposing Memory.settle Event.pool Event.serial

theorem Effect.pool (effect : Effect g m c old n new ev) : PoolEffect m old n new ev := by
  cases effect with
  | manage _ light plain =>
    refine .quiet (sameLabels_withQueues _ _) rfl ?_ (none_of_any rfl)
    intro i
    rw [weight_disposes_light light, weight_disposes_light fun f hf => (plain f hf).1]
  | adjusts _ light plain =>
    refine .quiet (sameLabels_withQueues _ _) rfl ?_ (none_of_any rfl)
    intro i
    rw [weight_disposes_light light, weight_disposes_light fun f hf => (plain f hf).1]
  | prepare => exact .quiet ⟨rfl, rfl, fun _ => rfl⟩ rfl (fun _ => rfl) (none_of_any rfl)
  | returns => exact .quiet (.refl _) rfl (fun _ => rfl) (none_of_any rfl)
  | @took _ ran p now t light plain =>
    refine .quiet (sameLabels_withQueues _ _) rfl ?_ ?_
    · intro i
      rw [Stacks.weight_append, weight_disposes_frames, weight_disposes_light light,
        weight_disposes_light fun f hf => (plain f hf).1]
    · cases t.item.callback <;> simp [Memory.ranEvents]
  | @beginAccepted a q r n₀ n' id o p alloc now began port sent =>
    obtain ⟨hlabels, hfree⟩ := sameLabels_submit sent
    rw [← hlabels.serial r]
    exact .began began hlabels hfree (fun _ => rfl) (none_of_any rfl) (by simp)
  | @beginImmediate a q r n₀ n' id o p alloc now began port sent =>
    obtain ⟨hlabels, hfree⟩ := sameLabels_immediate sent
    rw [← hlabels.serial r]
    exact .began began hlabels hfree (fun _ => rfl) (none_of_any rfl) (by simp)
  | @beginRefused a q r n₀ id o began =>
    have hlabels := sameLabels_retireSlot n₀ r
    rw [← hlabels.serial r]
    exact .began began hlabels (retireSlot_free _ _) (fun _ => rfl) (none_of_any rfl) (by simp)
  | providerBegun began => exact .began began (.refl _) rfl (fun _ => rfl) (none_of_any rfl) (by simp)
  | failsBegin => exact .quiet (.refl _) rfl (fun _ => rfl) (none_of_any rfl)
  | cleanedFailed => exact .quiet (.refl _) rfl (fun _ => rfl) (none_of_any rfl)
  | drops =>
    exact .quiet (sameLabels_retireSlot _ _) (retireSlot_free _ _) (fun _ => rfl) (none_of_any rfl)
  | finds => exact .quiet (sameLabels_hold _ _) rfl (fun _ => rfl) (none_of_any rfl)
  | swaps => exact .quiet (sameLabels_hold _ _) rfl (fun _ => rfl) (none_of_any rfl)
  | @settles f b q r reply call =>
    have hslot : f.slot = some r := by
      rcases call with rfl | ⟨rfl, -⟩ <;> rfl
    refine .quiet (.refl _) rfl ?_ (none_of_any rfl)
    intro i
    rw [Stacks.weight_cons _ f, Frame.disposes_of_slot hslot]
    simp
  | proceeds slot slot' =>
    refine .quiet (.refl _) rfl ?_ (none_of_any rfl)
    intro i
    simp only [Stacks.weight_cons, Frame.disposes_of_slot slot, Frame.disposes_of_slot slot']
  | provides slot slot' =>
    refine .quiet (.refl _) rfl ?_ (none_of_any rfl)
    intro i
    simp only [Stacks.weight_cons, Frame.disposes_of_slot slot, Frame.disposes_of_slot slot']
  | works => exact .quiet (.refl _) rfl (fun _ => rfl) (none_of_any rfl)
  | announces => exact .quiet (.refl _) rfl (fun _ => rfl) (none_of_any rfl)
  | silent => exact .quiet (.refl _) rfl (fun _ => rfl) (none_of_any rfl)
  | scheduleAccepted _ _ sent =>
    obtain ⟨hlabels, hfree⟩ := sameLabels_submit sent
    exact .quiet hlabels hfree (fun _ => rfl) (none_of_any rfl)
  | scheduleImmediate _ _ sent =>
    obtain ⟨hlabels, hfree⟩ := sameLabels_immediate sent
    exact .quiet hlabels hfree (fun _ => rfl) (none_of_any rfl)
  | finishesAgain =>
    refine .quiet (.refl _) rfl ?_ (none_of_any rfl)
    intro i
    rw [weight_disposes_after]
    simp
  | finishes =>
    refine .quiet (sameLabels_complete _ _ _ _) rfl ?_ (none_of_any rfl)
    intro i
    rw [weight_disposes_after]
    simp
  | finishesBlock => exact .quiet (sameLabels_complete _ _ _ _) rfl (fun _ => rfl) (none_of_any rfl)
  | publishesNothing =>
    refine .quiet (sameLabels_withQueues _ _) rfl ?_ (none_of_any rfl)
    intro i
    rw [weight_disposes_after]
    simp
  | publishAccepted _ _ _ sent =>
    obtain ⟨hlabels, hfree⟩ := sameLabels_submit sent
    refine .quiet ((sameLabels_withQueues _ _).trans hlabels) hfree ?_ (none_of_any rfl)
    intro i
    rw [weight_disposes_after]
    simp
  | publishImmediate _ _ _ sent =>
    obtain ⟨hlabels, hfree⟩ := sameLabels_immediate sent
    refine .quiet ((sameLabels_withQueues _ _).trans hlabels) hfree ?_ (none_of_any rfl)
    intro i
    rw [Stacks.weight_cons, weight_disposes_after]
    simp
  | retiresAgain => exact .quiet (.refl _) rfl (fun _ => rfl) (none_of_any rfl)
  | retires =>
    exact .quiet (sameLabels_retireSlot _ _) (retireSlot_free _ _) (fun _ => rfl) (none_of_any rfl)
  | releases => exact .quiet (sameLabels_drop _ _) rfl (fun _ => rfl) (none_of_any rfl)
  | releasesLast last => exact .disposed last
  | destroys => exact .quiet (sameLabels_strip _ _) rfl (fun _ => rfl) (none_of_any rfl)
  | destroysNothing => exact .quiet (sameLabels_strip _ _) rfl (fun _ => rfl) (none_of_any rfl)
  | destroyed => exact .quiet (.refl _) rfl (fun _ => rfl) (none_of_any rfl)
  | cleansNothing => exact .quiet (.refl _) rfl (fun _ => rfl) (none_of_any rfl)
  | cleans => exact .quiet (.refl _) rfl (fun _ => rfl) (none_of_any rfl)
  | cleaned => exact .quiet (.refl _) rfl (fun _ => rfl) (none_of_any rfl)
  | recycles => exact .recycled

/-- A step tells of slots in use, or of one that it has handed out. -/
theorem Effect.about (effect : Effect g m c old n new ev) {P : SlotId → Prop}
    (touched : ∀ f ∈ old, ∀ r, f.slot = some r ∨ f.disposing = some r ∨ f.begins = some r →
      P r)
    (queued : ∀ p r f, .held r f ∈ (m.queues.owned p).callbacks → P r)
    (found : ∀ a r, m.find (some a) = some r → P r)
    (swapped : c.certain → ∀ b q r t, old = [.findSwap b q r t (m.slots r).state] →
      tokenOf (m.slots r).state = t → P r) :
    ∀ e ∈ ev, ∀ k, e.serial = some k →
      (∃ r, P r ∧ m.serial r = k) ∨ ∃ a ps, ∃ provided, .begun k a provided ps ∈ ev := by
  have hone : ∀ {r : SlotId}, P r → (∀ e ∈ ev, e.serial = some (m.serial r)) →
      ∀ e ∈ ev, ∀ k, e.serial = some k → (∃ r, P r ∧ m.serial r = k) ∨
        ∃ a ps, ∃ provided, .begun k a provided ps ∈ ev := by
    intro r huse hev e he k hk
    rw [hev e he, Option.some.injEq] at hk
    exact .inl ⟨r, huse, hk⟩
  have hold : ∀ {f : Frame} {r : SlotId}, old = [f] →
      f.slot = some r ∨ f.disposing = some r ∨ f.begins = some r → P r := by
    rintro f r rfl h
    exact touched f (List.mem_singleton_self f) r h
  cases effect with
  | manage => simp
  | adjusts => simp
  | prepare => simp
  | returns => simp
  | @took _ ran p now t _ _ _ taken =>
    obtain ⟨hperm, -⟩ := TaskPort.take_spec taken
    intro e he k hk
    cases hx : t.item.callback with
    | callback x => simp [hx, Memory.ranEvents] at he
    | held r f =>
      simp only [hx, Memory.ranEvents, List.mem_singleton] at he
      subst he
      simp only [Event.serial, Option.some.injEq] at hk
      refine .inl ⟨r, queued p r f ?_, hk⟩
      rw [hperm.mem_iff, hx]
      exact List.mem_cons_self
  | @beginAccepted a q r n₀ =>
    intro e he k hk
    refine .inr ⟨a, (n₀.slots r).ports, false, ?_⟩
    have hk' : k = n₀.serial r := by
      simp only [List.mem_cons, List.not_mem_nil, or_false] at he
      rcases he with rfl | rfl <;> simpa using hk.symm
    simp [hk']
  | @beginImmediate a q r n₀ =>
    intro e he k hk
    refine .inr ⟨a, (n₀.slots r).ports, false, ?_⟩
    have hk' : k = n₀.serial r := by
      simp only [List.mem_cons, List.not_mem_nil, or_false] at he
      rcases he with rfl | rfl | rfl <;> simpa using hk.symm
    simp [hk']
  | @beginRefused a q r n₀ =>
    intro e he k hk
    refine .inr ⟨a, (n₀.slots r).ports, false, ?_⟩
    have hk' : k = n₀.serial r := by
      simp only [List.mem_cons, List.not_mem_nil, or_false] at he
      rcases he with rfl | rfl <;> simpa using hk.symm
    simp [hk']
  | @providerBegun a q r n₀ =>
    intro e he k hk
    refine .inr ⟨a, (n.slots r).ports, true, ?_⟩
    have hk' : k = n.serial r := by
      simp only [List.mem_cons, List.not_mem_nil, or_false] at he
      rcases he with rfl | rfl <;> simpa using hk.symm
    simp [hk']
  | failsBegin => exact hone (hold rfl (.inr (.inr rfl))) (by simp)
  | cleanedFailed => simp
  | drops => exact hone (hold rfl (.inr (.inr rfl))) (by simp)
  | @finds a q r _ _ _ whole => exact hone (found a r whole) (by simp)
  | @swaps b q r t certain mine => exact hone (swapped certain b q r t rfl mine) (by simp)
  | settles => simp
  | proceeds => simp
  | provides slot => exact hone (hold rfl (.inl slot)) (by simp)
  | works => exact hone (hold rfl (.inl rfl)) (by simp)
  | announces => exact hone (hold rfl (.inl rfl)) (by simp)
  | silent => simp
  | scheduleAccepted => exact hone (hold rfl (.inl rfl)) (by simp)
  | scheduleImmediate => exact hone (hold rfl (.inl rfl)) (by simp)
  | finishesAgain => simp
  | finishes => exact hone (hold rfl (.inl rfl)) (by simp)
  | finishesBlock => exact hone (hold rfl (.inl rfl)) (by simp)
  | publishesNothing => simp
  | publishAccepted => exact hone (hold rfl (.inl rfl)) (by simp)
  | publishImmediate => exact hone (hold rfl (.inl rfl)) (by simp)
  | retiresAgain => simp
  | retires => exact hone (hold rfl (.inl rfl)) (by simp)
  | releases => simp
  | releasesLast => exact hone (hold rfl (.inl rfl)) (by simp)
  | destroys => simp
  | destroysNothing => simp
  | destroyed => simp
  | cleansNothing => simp
  | cleans => exact hone (hold rfl (.inr (.inl rfl))) (by simp)
  | cleaned => simp
  | recycles => exact hone (hold rfl (.inr (.inl rfl))) (by simp)

end Effects

namespace AsyncThreads

variable {limit : ℕ} {g : Granularity} {s s' : AsyncThreads Op} {i : ℕ} {c : Choice Op}
  {tr ev : List Event}

/-- How many activations dispose of slot `r`. -/
def disposals (s : AsyncThreads Op) (r : SlotId) : ℕ := Stacks.total (Frame.disposes r) s.threads

/-- The event begins operation `k`. -/
def begins (k : ℕ) : Event → Bool
  | .begun k' _ _ _ => k' = k
  | _ => false

/-- The ledger of operations. -/
structure Serials (tr : List Event) (s : AsyncThreads Op) : Prop where
  slots : ∀ r : SlotId, (r : ℕ) < s.memory.used → s.memory.serial r < s.memory.acquired
  distinct : ∀ r r' : SlotId, (r : ℕ) < s.memory.used → (r' : ℕ) < s.memory.used →
    s.memory.serial r = s.memory.serial r' → r = r'
  bounded : ∀ e ∈ tr, ∀ k, e.serial = some k → k < s.memory.acquired
  begun : ∀ k, k < s.memory.acquired → tr.countP (begins k) = 1
  disposed : ∀ r : SlotId, (r : ℕ) < s.memory.used →
    tr.count (.disposed (s.memory.serial r)) = s.memory.free.count r + s.disposals r
  recycled : ∀ r : SlotId, (r : ℕ) < s.memory.used →
    tr.count (.recycled (s.memory.serial r)) = s.memory.free.count r
  past : ∀ k, k < s.memory.acquired →
    (∀ r : SlotId, (r : ℕ) < s.memory.used → s.memory.serial r ≠ k) →
    tr.count (.disposed k) = 1 ∧ tr.count (.recycled k) = 1

theorem Serials.unborn (serials : Serials tr s) {e : Event} {k : ℕ} (he : e.serial = some k)
    (hk : s.memory.acquired ≤ k) : e ∉ tr := by
  intro hmem
  have := serials.bounded e hmem k he
  omega

theorem count_quiet {e : Event} (he : e.pool = true) (events : ∀ e ∈ ev, e.pool = false) :
    ev.count e = 0 := by
  rw [List.count_eq_zero]
  intro hmem
  rw [events e hmem] at he
  cases he

theorem countP_quiet (k : ℕ) (events : ∀ e ∈ ev, e.pool = false) :
    ev.countP (begins k) = 0 := by
  rw [List.countP_eq_zero]
  intro e hmem hbegins
  have hpool := events e hmem
  cases e with
  | begun => cases hpool
  | _ => cases hbegins

theorem audit_used (audit : Audit limit s) {r : SlotId}
    (busy : 0 < s.count r ∨ 0 < s.disposals r) : (r : ℕ) < s.memory.used :=
  audit.sound.used busy

theorem Audit.place (audit : Audit limit s) {r : SlotId} (hr : (r : ℕ) < s.memory.used) :
    s.memory.free.count r + s.disposals r = if s.count r = 0 then 1 else 0 := by
  have howned := audit.sound.owned r
  by_cases hzero : s.count r = 0
  · rw [if_pos hr, if_pos (by simpa only [count] using hzero)] at howned
    simpa [hzero, disposals] using howned
  · rw [if_pos hr, if_neg (by simpa only [count] using hzero)] at howned
    simpa [hzero, disposals] using howned

/-- What a step tells of is a slot in use, or the slot that the step has handed out. -/
theorem about_used (audit : Audit limit s) (ready : Ready limit g s i c) {old rest new : List Frame}
    {n : Memory Op} (hstack : s.threads[i]? = some (old ++ rest))
    (heffect : Effect g s.memory c old n new ev) :
    ∀ e ∈ ev, ∀ k, e.serial = some k →
      (∃ r : SlotId, (r : ℕ) < s.memory.used ∧ s.memory.serial r = k) ∨
        ∃ a ps, ∃ provided, .begun k a provided ps ∈ ev := by
  have hmem := List.mem_of_getElem? hstack
  refine heffect.about (P := fun r => (r : ℕ) < s.memory.used) ?_ ?_ ?_ ?_
  · intro f hf r hr
    have hle := Stacks.weight_le_total (Frame.holds r) hmem
    have hle' := Stacks.weight_le_total (Frame.disposes r) hmem
    have hf' := Stacks.le_weight (Frame.holds r) (List.mem_append_left rest hf)
    have hf'' := Stacks.le_weight (Frame.disposes r) (List.mem_append_left rest hf)
    rcases hr with hr | hr | hr
    · simp only [Frame.holds, hr, if_true] at hf'
      exact audit_used audit (.inl (by simp only [count]; omega))
    · simp only [Frame.disposes, hr, if_true] at hf''
      exact audit_used audit (.inr (by simp only [disposals]; omega))
    · exact audit.begins _ hmem f (List.mem_append_left rest hf) r hr
  · intro p r f hqueued
    have hle := QueuePool.le_weigh (Task.holds r) hqueued
    simp only [Task.holds_held, if_true] at hle
    refine audit_used audit (.inl ?_)
    simp only [count, Memory.kept]
    omega
  · intro a r hfind
    obtain ⟨hblock, -⟩ := audit.sound.find_linked hfind
    refine audit_used audit (.inl ?_)
    simp only [count, Memory.kept, hblock, Option.isSome_some, if_true]
    omega
  · rintro certain b q r t rfl htoken
    exact audit_used audit (.inl (ready.swap certain r ⟨rest, b, q, t, hstack, htoken⟩).1)

/-- A step that hands out no slot and lets go of none. -/
theorem Serials.quiet (serials : Serials tr s) (labels : SameLabels s.memory s'.memory)
    (free : s'.memory.free = s.memory.free) (disposals : ∀ r, s'.disposals r = s.disposals r)
    (events : ∀ e ∈ ev, e.pool = false)
    (about : ∀ e ∈ ev, ∀ k, e.serial = some k → k < s.memory.acquired) :
    Serials (tr ++ ev) s' := by
  constructor
  · intro r hr
    rw [labels.serial, labels.acquired]
    exact serials.slots r (labels.used ▸ hr)
  · intro r r' hr hr' heq
    rw [labels.serial, labels.serial] at heq
    exact serials.distinct r r' (labels.used ▸ hr) (labels.used ▸ hr') heq
  · intro e he k hk
    rw [labels.acquired]
    rcases List.mem_append.mp he with he | he
    · exact serials.bounded e he k hk
    · exact about e he k hk
  · intro k hk
    rw [List.countP_append, countP_quiet k events, Nat.add_zero]
    exact serials.begun k (labels.acquired ▸ hk)
  · intro r hr
    rw [List.count_append, count_quiet rfl events, labels.serial, free, disposals, Nat.add_zero]
    exact serials.disposed r (labels.used ▸ hr)
  · intro r hr
    rw [List.count_append, count_quiet rfl events, labels.serial, free, Nat.add_zero]
    exact serials.recycled r (labels.used ▸ hr)
  · intro k hk hnot
    rw [List.count_append, List.count_append, count_quiet rfl events, count_quiet rfl events]
    refine serials.past k (labels.acquired ▸ hk) fun r hr => ?_
    rw [← labels.serial r]
    exact hnot r (labels.used.symm ▸ hr)

/-- The last hold on slot `r` is let go, and its disposal begins. -/
theorem Serials.letGo (serials : Serials tr s) {r : SlotId} (hr : (r : ℕ) < s.memory.used)
    (labels : SameLabels s.memory s'.memory) (free : s'.memory.free = s.memory.free)
    (disposals : ∀ x, s'.disposals x = s.disposals x + if r = x then 1 else 0) :
    Serials (tr ++ [.disposed (s.memory.serial r)]) s' := by
  constructor
  · intro x hx
    rw [labels.serial, labels.acquired]
    exact serials.slots x (labels.used ▸ hx)
  · intro x x' hx hx' heq
    rw [labels.serial, labels.serial] at heq
    exact serials.distinct x x' (labels.used ▸ hx) (labels.used ▸ hx') heq
  · intro e he k hk
    rw [labels.acquired]
    rcases List.mem_append.mp he with he | he
    · exact serials.bounded e he k hk
    · rw [List.mem_singleton.mp he] at hk
      cases hk
      exact serials.slots r hr
  · intro k hk
    rw [List.countP_append]
    exact serials.begun k (labels.acquired ▸ hk)
  · intro x hx
    have hx := labels.used ▸ hx
    have hold := serials.disposed x hx
    rw [List.count_append, labels.serial, free, disposals, hold, List.count_singleton]
    by_cases hrx : r = x
    · subst hrx
      simp
      omega
    · have hne : s.memory.serial r ≠ s.memory.serial x :=
        fun heq => hrx (serials.distinct r x hr hx heq)
      simp [hrx, hne]
  · intro x hx
    rw [List.count_append, labels.serial, free]
    simpa using serials.recycled x (labels.used ▸ hx)
  · intro k hk hnot
    have hne : s.memory.serial r ≠ k := by
      rw [← labels.serial r]
      exact hnot r (labels.used.symm ▸ hr)
    have hpast := serials.past k (labels.acquired ▸ hk) fun x hx => by
      rw [← labels.serial x]
      exact hnot x (labels.used.symm ▸ hx)
    simpa [List.count_append, hne] using hpast

/-- The disposal of slot `r` ends, and the slot is free. -/
theorem Serials.putBack (serials : Serials tr s) {r : SlotId} (hr : (r : ℕ) < s.memory.used)
    (labels : SameLabels s.memory s'.memory) (free : s'.memory.free = r :: s.memory.free)
    (disposals : ∀ x, s.disposals x = s'.disposals x + if r = x then 1 else 0) :
    Serials (tr ++ [.recycled (s.memory.serial r)]) s' := by
  constructor
  · intro x hx
    rw [labels.serial, labels.acquired]
    exact serials.slots x (labels.used ▸ hx)
  · intro x x' hx hx' heq
    rw [labels.serial, labels.serial] at heq
    exact serials.distinct x x' (labels.used ▸ hx) (labels.used ▸ hx') heq
  · intro e he k hk
    rw [labels.acquired]
    rcases List.mem_append.mp he with he | he
    · exact serials.bounded e he k hk
    · rw [List.mem_singleton.mp he] at hk
      cases hk
      exact serials.slots r hr
  · intro k hk
    rw [List.countP_append]
    exact serials.begun k (labels.acquired ▸ hk)
  · intro x hx
    have hold := serials.disposed x (labels.used ▸ hx)
    have hx' := disposals x
    rw [List.count_append, labels.serial, free, hold, List.count_cons]
    by_cases hrx : r = x
    · subst hrx
      simp at hx' ⊢
      omega
    · simp [hrx] at hx' ⊢
      omega
  · intro x hx
    have hx := labels.used ▸ hx
    rw [List.count_append, labels.serial, free, serials.recycled x hx, List.count_singleton,
      List.count_cons]
    by_cases hrx : r = x
    · subst hrx
      simp
    · have hne : s.memory.serial r ≠ s.memory.serial x :=
        fun heq => hrx (serials.distinct r x hr hx heq)
      simp [hrx, hne]
  · intro k hk hnot
    have hne : s.memory.serial r ≠ k := by
      rw [← labels.serial r]
      exact hnot r (labels.used.symm ▸ hr)
    have hpast := serials.past k (labels.acquired ▸ hk) fun x hx => by
      rw [← labels.serial x]
      exact hnot x (labels.used.symm ▸ hx)
    simpa [List.count_append, hne] using hpast

variable (s') in
/-- A free slot, or one that was never used, is handed out to a new operation. -/
theorem Serials.handOut (serials : Serials tr s) {r : SlotId} {n₀ : Memory Op}
    (fresh : Sound.Fresh s.memory r n₀) (idle : s.disposals r = 0) (labels : SameLabels n₀ s'.memory)
    (free : s'.memory.free = n₀.free) (disposals : ∀ x, s'.disposals x = s.disposals x)
    {a : BlockId} {provided : Bool} {ps : Option PortId × Option PortId}
    (events : ∀ e ∈ ev, e.pool = false)
    (about : ∀ e ∈ ev, ∀ k, e.serial = some k → k = s'.memory.serial r) :
    Serials (tr ++ .begun (s'.memory.serial r) a provided ps :: ev) s' := by
  have hserial : s'.memory.serial r = s.memory.acquired := by
    rw [labels.serial, fresh.serial]
  have hothers : ∀ x, x ≠ r → s'.memory.serial x = s.memory.serial x := by
    intro x hx
    rw [labels.serial]
    simp only [Memory.serial, fresh.others x hx]
  have hacquired : s'.memory.acquired = s.memory.acquired + 1 := by
    rw [labels.acquired, fresh.acquired]
  have hused : ∀ x : SlotId, (x : ℕ) < s'.memory.used → x ≠ r → (x : ℕ) < s.memory.used := by
    intro x hx hne
    rw [labels.used] at hx
    exact ((fresh.used x).mp hx).resolve_left hne
  have hrused : (r : ℕ) < s'.memory.used := by
    rw [labels.used]
    exact (fresh.used r).mpr (.inl rfl)
  have hcount : ∀ e : Event, e.pool = true → (∀ k a p ps, e ≠ .begun k a p ps) →
      (tr ++ .begun (s'.memory.serial r) a provided ps :: ev).count e = tr.count e := by
    intro e he hne
    rw [List.count_append, List.count_cons, count_quiet he events]
    simp [Ne.symm (hne _ a provided ps)]
  have hunborn : ∀ e : Event, e.serial = some s.memory.acquired → tr.count e = 0 := fun e he =>
    List.count_eq_zero.mpr (serials.unborn he (le_refl _))
  constructor
  · intro x hx
    rw [hacquired]
    by_cases hxr : x = r
    · subst hxr
      omega
    · rw [hothers x hxr]
      have := serials.slots x (hused x hx hxr)
      omega
  · intro x x' hx hx' heq
    by_cases hxr : x = r
    · by_cases hxr' : x' = r
      · rw [hxr, hxr']
      · have := serials.slots x' (hused x' hx' hxr')
        rw [hothers x' hxr', hxr, hserial] at heq
        omega
    · have := serials.slots x (hused x hx hxr)
      by_cases hxr' : x' = r
      · rw [hothers x hxr, hxr', hserial] at heq
        omega
      · rw [hothers x hxr, hothers x' hxr'] at heq
        exact serials.distinct x x' (hused x hx hxr) (hused x' hx' hxr') heq
  · intro e he k hk
    rw [hacquired]
    rcases List.mem_append.mp he with he | he
    · have := serials.bounded e he k hk
      omega
    · rcases List.mem_cons.mp he with rfl | he
      · cases hk
        omega
      · have := about e he k hk
        omega
  · intro k hk
    rw [List.countP_append, List.countP_cons, countP_quiet k events, hserial]
    by_cases hka : k = s.memory.acquired
    · have hzero : tr.countP (begins k) = 0 := by
        rw [List.countP_eq_zero]
        intro e he hbegins
        cases e <;> simp [begins] at hbegins
        subst hbegins
        exact serials.unborn rfl hka.ge he
      rw [hzero, Nat.zero_add]
      simp [begins, hka]
    · have hone := serials.begun k (by omega)
      simp [hone, begins, Ne.symm hka]
  · intro x hx
    rw [hcount _ rfl (by simp), free, disposals]
    by_cases hxr : x = r
    · subst hxr
      rw [hserial, hunborn _ rfl, fresh.taken, idle]
    · rw [hothers x hxr, fresh.free x hxr]
      exact serials.disposed x (hused x hx hxr)
  · intro x hx
    rw [hcount _ rfl (by simp), free]
    by_cases hxr : x = r
    · subst hxr
      rw [hserial, hunborn _ rfl, fresh.taken]
    · rw [hothers x hxr, fresh.free x hxr]
      exact serials.recycled x (hused x hx hxr)
  · intro k hk hnot
    rw [hcount _ rfl (by simp), hcount _ rfl (by simp)]
    have hka : k ≠ s.memory.acquired := fun heq => hnot r hrused (hserial.trans heq.symm)
    by_cases hold : (r : ℕ) < s.memory.used ∧ s.memory.serial r = k
    · obtain ⟨hr, rfl⟩ := hold
      rw [serials.disposed r hr, serials.recycled r hr, fresh.idle hr, idle]
      exact ⟨rfl, rfl⟩
    · refine serials.past k (by omega) fun x hx heq => ?_
      by_cases hxr : x = r
      · exact hold ⟨hxr ▸ hx, hxr ▸ heq⟩
      · refine hnot x ?_ ((hothers x hxr).trans heq)
        rw [labels.used]
        exact (fresh.used x).mpr (.inr hx)

theorem Serials.step (serials : Serials tr s) (audit : Audit limit s)
    (ready : Ready limit g s i c) (h : step g s (i, c) = some (s', ev)) :
    Serials (tr ++ ev) s' := by
  rcases step_cases h with ⟨fault, rfl, rfl⟩ | ⟨old, rest, new, n, hstack, heffect, -, rfl⟩
  · exact serials.quiet (.refl _) rfl (fun _ => rfl) (by simp [Event.pool])
      (by simp [Event.serial])
  have habout := about_used audit ready hstack heffect
  have hdisposals := fun r => total_moved (Frame.disposes r) new hstack
  have hmem := List.mem_of_getElem? hstack
  cases heffect.pool with
  | quiet labels free same events =>
    refine serials.quiet labels free ?_ events ?_
    · intro r
      have hr := hdisposals r
      rw [same r] at hr
      simp only [disposals]
      omega
    · intro e he k hk
      rcases habout e he k hk with ⟨r, hr, rfl⟩ | ⟨a, ps, provided, hbegun⟩
      · exact serials.slots r hr
      · have hpool := events _ hbegun
        cases hpool
  | @disposed r owner last =>
    have hle := Stacks.weight_le_total (Frame.holds r) hmem
    have hr : (r : ℕ) < s.memory.used := by
      refine audit_used audit (.inl ?_)
      simp only [count]
      simp [Frame.holds, Frame.slot] at hle
      omega
    refine serials.letGo hr (sameLabels_drop _ _) rfl ?_
    intro x
    have hx := (hdisposals x).2
    simp only [disposals]
    rw [hx]
    simp [Frame.disposes, Frame.disposing]
  | @recycled r =>
    have hle := Stacks.weight_le_total (Frame.disposes r) hmem
    have hr : (r : ℕ) < s.memory.used := by
      refine audit_used audit (.inr ?_)
      simp only [disposals]
      simp [Frame.disposes, Frame.disposing] at hle
      omega
    refine serials.putBack hr (sameLabels_recycle _ _) rfl ?_
    intro x
    have hx := hdisposals x
    simp only [disposals]
    simp [Frame.disposes, Frame.disposing] at hx ⊢
    omega
  | @began a q r n₀ id o provider context _ _ provided ev' began labels free none events about =>
    have hfresh := audit.sound.began_fresh began
    refine serials.handOut { s with memory := n, threads := s.threads.set i (new ++ rest) } hfresh
      ?_ labels free ?_ events about
    · obtain ⟨qs, acquired, -, hacquire, -⟩ := began
      exact (audit.sound.picked_idle (Memory.acquire_some hacquire)).2
    · intro x
      have hx := (hdisposals x).2
      rw [none x] at hx
      simpa [disposals] using hx

theorem serials_start (threads : ℕ) : Serials [] (start threads : AsyncThreads Op) := by
  constructor <;> simp [start, Memory.start]

theorem reaches_serials {ok : AsyncThreads Op → ℕ × Choice Op → Prop} {threads : ℕ}
    (h : Reaches (step .whole) ok (start threads) tr s) : Serials tr s := by
  have hboth : Accounted s ∧ Serials tr s := by
    refine h.invariant (P := fun tr s => Accounted s ∧ Serials tr s)
      ⟨accounted_start threads, serials_start threads⟩ ?_
    rintro tr s ⟨i, c⟩ t ev ⟨haccounted, hserials⟩ - hstep
    exact ⟨haccounted.step hstep, hserials.step haccounted.audit (haccounted.ready i c) hstep⟩
  exact hboth.2

end AsyncThreads

end IW4x.Gdk
