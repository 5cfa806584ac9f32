import IW4x.Gdk.HoldAccounts

/-!
# The calls of a provider

The slot of an operation owes its provider a cleanup from `provider_begin` on: first the slot
itself does, and once `dispose` has stripped it the activation that disposes of it. What a slot
owes and the cleanups that were made add up to one for an operation that has a provider.
-/

namespace IW4x.Gdk

open Runs

variable {Op : Type}

/-- The activation is going to call the provider of slot `i` for its cleanup. -/
def Frame.owes (i : SlotId) : Frame → ℕ
  | .destroying r (some _) => if r = i then 1 else 0
  | .cleaning r (some _) => if r = i then 1 else 0
  | _ => 0

/-- The activation disposes of slot `i` and has stripped it. -/
def Frame.stripped (i : SlotId) : Frame → ℕ
  | .destroying r _ => if r = i then 1 else 0
  | .cleaning r _ => if r = i then 1 else 0
  | .cleaned r => if r = i then 1 else 0
  | .recycle r => if r = i then 1 else 0
  | _ => 0

theorem Frame.owes_le (i : SlotId) (f : Frame) : f.owes i ≤ f.disposes i := by
  cases f with
  | destroying r p => cases p <;> simp [owes, disposes, disposing]
  | cleaning r p => cases p <;> simp [owes, disposes, disposing]
  | _ => exact Nat.zero_le _

theorem Frame.stripped_le (i : SlotId) (f : Frame) : f.stripped i ≤ f.disposes i := by
  cases f <;> simp [stripped, disposes, disposing]

/-- The event is a cleanup of operation `k`. -/
def Event.cleansUp (k : ℕ) : Event → Bool
  | .provider k' .cleanup _ => k' = k
  | _ => false

/-- The event begins operation `k`, with a provider. -/
def Event.provides (k : ℕ) : Event → Bool
  | .begun k' _ true _ => k' = k
  | _ => false

/-- A cleanup comes after every other call of the same operation's provider. -/
def CleanupLast (e e' : Event) : Prop :=
  ∀ k b op b', e = .provider k .cleanup b → e' ≠ .provider k op b'

/-- No slot was handed out, and none got or lost a provider. -/
structure SameProviders (m n : Memory Op) : Prop extends SameLabels m n where
  provider : ∀ i, (n.slots i).provider = (m.slots i).provider

theorem SameProviders.refl (m : Memory Op) : SameProviders m m := ⟨.refl m, fun _ => rfl⟩

theorem sameProviders_setSlot {m : Memory Op} {r : SlotId} {s : AsyncState Op}
    (label : s.label = (m.slots r).label) (provider : s.provider = (m.slots r).provider) :
    SameProviders m (m.setSlot r s) := by
  refine ⟨sameLabels_setSlot label, ?_⟩
  intro i
  by_cases hi : i = r
  · subst hi; simp [provider]
  · simp [hi]

theorem sameProviders_hold (m : Memory Op) (r : SlotId) : SameProviders m (m.hold r) :=
  sameProviders_setSlot rfl rfl

theorem sameProviders_drop (m : Memory Op) (r : SlotId) : SameProviders m (m.drop r) := by
  refine ⟨sameLabels_drop m r, ?_⟩
  intro i
  by_cases hi : i = r
  · subst hi; simp [Memory.drop]
  · simp [Memory.drop, hi]

theorem sameProviders_complete (m : Memory Op) (r : SlotId) (hr : HResult) (size : ℕ) :
    SameProviders m (m.complete r hr size) :=
  sameProviders_setSlot rfl rfl

theorem sameProviders_retireSlot (m : Memory Op) (r : SlotId) :
    SameProviders m (m.retireSlot r) := by
  refine ⟨sameLabels_retireSlot m r, ?_⟩
  intro i
  unfold Memory.retireSlot
  by_cases hi : i = r
  · subst hi
    dsimp only
    split <;> simp [Memory.setBlock]
  · dsimp only
    split <;> simp [Memory.setBlock, hi]

theorem sameProviders_recycle (m : Memory Op) (r : SlotId) : SameProviders m (m.recycle r) := by
  refine ⟨⟨rfl, rfl, ?_⟩, ?_⟩ <;> intro i <;> by_cases hi : i = r
  · subst hi; simp [Memory.recycle, AsyncState.label]
  · simp [Memory.recycle, hi]
  · subst hi; simp [Memory.recycle]
  · simp [Memory.recycle, hi]

theorem sameProviders_withQueues (m : Memory Op) (q : QueuePool Task) :
    SameProviders m (m.withQueues q) := ⟨sameLabels_withQueues m q, fun _ => rfl⟩

theorem SameProviders.trans {m n o : Memory Op} (h : SameProviders m n)
    (h' : SameProviders n o) : SameProviders m o :=
  ⟨h.toSameLabels.trans h'.toSameLabels, fun i => (h'.provider i).trans (h.provider i)⟩

theorem sameProviders_submit {m n : Memory Op} {alloc : Bool} {now delay : ℕ} {r : SlotId}
    {p : PortId} {f : Work} (sent : m.submit alloc now r p delay f = .accepted n) :
    SameProviders m n ∧ n.free = m.free := by
  obtain ⟨t, -, rfl, -⟩ := Memory.submit_accepted sent
  exact ⟨(sameProviders_hold m r).trans (sameProviders_withQueues _ _), rfl⟩

theorem sameProviders_immediate {m n : Memory Op} {alloc : Bool} {now delay : ℕ} {r : SlotId}
    {p : PortId} {f : Work} (sent : m.submit alloc now r p delay f = .immediate n) :
    SameProviders m n ∧ n.free = m.free := by
  obtain ⟨rfl, -⟩ := Memory.submit_immediate sent
  exact ⟨sameProviders_hold m r, rfl⟩

/-- What a step means for the providers. -/
inductive ProviderEffect (m : Memory Op) : List Frame → Memory Op → List Frame → List Event → Prop
  | quiet {old n new ev} (same : SameProviders m n)
      (owes : ∀ i, Stacks.weight (Frame.owes i) new = Stacks.weight (Frame.owes i) old)
      (gone : ∀ i, n.free.count i + Stacks.weight (Frame.stripped i) new =
        m.free.count i + Stacks.weight (Frame.stripped i) old)
      (cleanups : ∀ k, ev.countP (Event.cleansUp k) = 0)
      (begins : ∀ k, ev.countP (Event.provides k) = 0)
      (calls : ∀ k op b, .provider k op b ∈ ev →
        ∃ r, m.serial r = k ∧ (m.slots r).provider.isSome = true) : ProviderEffect m old n new ev
  | strips {r f} (left : f = .destroying r (m.slots r).provider ∨
      f = .cleaning r (m.slots r).provider) : ProviderEffect m [.dispose r] (m.strip r) [f] []
  | cleans {r x} : ProviderEffect m [.cleaning r (some x)] m [.cleaned r]
      [.provider (m.serial r) .cleanup none]
  | began {a q r n₀ id o provider context n new provided ev}
      (began : Began m a q r n₀ id o provider context) (same : SameProviders n₀ n)
      (has : provided = provider.isSome) (free : n.free = n₀.free)
      (owes : ∀ i, Stacks.weight (Frame.owes i) new = 0)
      (stripped : ∀ i, Stacks.weight (Frame.stripped i) new = 0)
      (cleanups : ∀ k, ev.countP (Event.cleansUp k) = 0)
      (begins : ∀ k, ev.countP (Event.provides k) = 0)
      (calls : ∀ k op b, .provider k op b ∈ ev → k = n.serial r) :
      ProviderEffect m [] n new (.begun (n.serial r) a provided (n₀.slots r).ports :: ev)

theorem weight_owes_away {fs : List Frame} (h : ∀ f ∈ fs, f.disposing = none) (i : SlotId) :
    Stacks.weight (Frame.owes i) fs = 0 := by
  rw [Stacks.weight_eq_zero_iff]
  intro f hf
  have hle := f.owes_le i
  simpa [Frame.disposes, h f hf] using hle

theorem weight_stripped_away {fs : List Frame} (h : ∀ f ∈ fs, f.disposing = none) (i : SlotId) :
    Stacks.weight (Frame.stripped i) fs = 0 := by
  rw [Stacks.weight_eq_zero_iff]
  intro f hf
  have hle := f.stripped_le i
  simpa [Frame.disposes, h f hf] using hle

theorem Memory.disposing_settle (m : Memory Op) (r : SlotId) (b : BlockId) (q : Query)
    (reply : Reply) : ∀ f ∈ m.settle r b q reply, f.disposing = none := by
  simp [Memory.settle, Frame.disposing]

theorem Memory.disposing_after (m : Memory Op) (r : SlotId) (next : Next) :
    ∀ f ∈ m.after r next, f.disposing = none := by
  cases next <;> simp [Memory.after, Memory.settle, Frame.disposing]

theorem Task.disposing_frames (t : Task) (canceled : Bool) :
    ∀ f ∈ t.frames canceled, f.disposing = none := by
  cases t <;> simp [Task.frames, Frame.disposing]

theorem ProviderEffect.away {m n : Memory Op} {old new : List Frame} {ev : List Event}
    (same : SameProviders m n) (free : n.free = m.free) (away : ∀ f ∈ old, f.disposing = none)
    (away' : ∀ f ∈ new, f.disposing = none) (cleanups : ∀ k, ev.countP (Event.cleansUp k) = 0)
    (begins : ∀ k, ev.countP (Event.provides k) = 0)
    (calls : ∀ k op b, .provider k op b ∈ ev →
      ∃ r, m.serial r = k ∧ (m.slots r).provider.isSome = true) :
    ProviderEffect m old n new ev := by
  refine .quiet same ?_ ?_ cleanups begins calls
  · intro i
    rw [weight_owes_away away, weight_owes_away away']
  · intro i
    rw [weight_stripped_away away, weight_stripped_away away', free]

def Event.unprovided : Event → Bool
  | .begun .. => false
  | .provider .. => false
  | _ => true

theorem Event.quiet_of_unprovided {e : Event} (h : e.unprovided = true) (k : ℕ) :
    e.cleansUp k = false ∧ e.provides k = false := by
  cases e <;> first | exact ⟨rfl, rfl⟩ | cases h

theorem ProviderEffect.still {m n : Memory Op} {old new : List Frame} {ev : List Event}
    (same : SameProviders m n) (free : n.free = m.free) (away : ∀ f ∈ old, f.disposing = none)
    (away' : ∀ f ∈ new, f.disposing = none) (still : ev.all Event.unprovided = true) :
    ProviderEffect m old n new ev := by
  rw [List.all_eq_true] at still
  refine .away same free away away' ?_ ?_ ?_
  · intro k
    rw [List.countP_eq_zero]
    intro e he
    rw [(Event.quiet_of_unprovided (still e he) k).1]
    exact Bool.false_ne_true
  · intro k
    rw [List.countP_eq_zero]
    intro e he
    rw [(Event.quiet_of_unprovided (still e he) k).2]
    exact Bool.false_ne_true
  · intro k op b he
    cases still _ he

theorem ProviderEffect.stands {m n : Memory Op} {old new : List Frame} {ev : List Event}
    (same : SameProviders m n) (free : n.free = m.free) (off : old.filterMap Frame.disposing = [])
    (off' : new.filterMap Frame.disposing = []) (still : ev.all Event.unprovided = true) :
    ProviderEffect m old n new ev :=
  .still same free (List.filterMap_eq_nil_iff.mp off) (List.filterMap_eq_nil_iff.mp off') still

section Effects

variable {g : Granularity} {m n : Memory Op} {c : Choice Op} {old new : List Frame}
  {ev : List Event}

attribute [local simp] Frame.disposing Frame.owes Frame.stripped Event.cleansUp Event.provides

theorem Effect.providers (effect : Effect g m c old n new ev)
    (succeeds : ∀ r b hr, old = [.beginning r b] → c = .answer (.code hr) → failed hr = true →
      (m.slots r).provider.isSome = false) : ProviderEffect m old n new ev := by
  cases effect with
  | manage _ light plain =>
    exact .still (sameProviders_withQueues _ _) rfl (fun f hf => (light f hf).2)
      (fun f hf => (plain f hf).1.2) rfl
  | adjusts _ light plain =>
    exact .still (sameProviders_withQueues _ _) rfl (fun f hf => (light f hf).2)
      (fun f hf => (plain f hf).1.2) rfl
  | prepare =>
    exact .stands ⟨⟨rfl, rfl, fun _ => rfl⟩, fun _ => rfl⟩ rfl rfl rfl rfl
  | returns => exact .stands (.refl _) rfl rfl rfl rfl
  | @took _ ran p now t light plain =>
    have hframes : ∀ f ∈ t.item.callback.frames t.canceled ++ ran, f.disposing = none := by
      intro f hf
      rcases List.mem_append.mp hf with hf | hf
      · exact Task.disposing_frames _ _ f hf
      · exact (plain f hf).1.2
    refine .away (sameProviders_withQueues _ _) rfl (fun f hf => (light f hf).2) hframes ?_ ?_ ?_ <;>
      cases t.item.callback <;> simp [Memory.ranEvents]
  | @beginAccepted a q r n₀ n' id o p alloc now began port sent =>
    obtain ⟨hsame, hfree⟩ := sameProviders_submit sent
    rw [← hsame.serial r]
    exact .began began hsame rfl hfree (by simp) (by simp) (by simp) (by simp) (by simp)
  | @beginImmediate a q r n₀ n' id o p alloc now began port sent =>
    obtain ⟨hsame, hfree⟩ := sameProviders_immediate sent
    rw [← hsame.serial r]
    exact .began began hsame rfl hfree (by simp) (by simp) (by simp) (by simp) (by simp)
  | @beginRefused a q r n₀ id o began =>
    have hsame := sameProviders_retireSlot n₀ r
    rw [← hsame.serial r]
    exact .began began hsame rfl (retireSlot_free _ _) (by simp) (by simp) (by simp) (by simp)
      (by simp)
  | providerBegun began =>
    refine .began began (.refl _) rfl rfl (by simp) (by simp) (by simp) (by simp) ?_
    intro k op b hcall
    rw [List.mem_singleton, Event.provider.injEq] at hcall
    exact hcall.1
  | @failsBegin r b hr said fails provided =>
    have hnone := succeeds r b hr rfl said fails
    rw [provided] at hnone
    cases hnone
  | cleanedFailed => exact .stands (.refl _) rfl rfl rfl rfl
  | drops =>
    exact .stands (sameProviders_retireSlot _ _) (retireSlot_free _ _) rfl rfl rfl
  | finds => exact .stands (sameProviders_hold _ _) rfl rfl rfl rfl
  | swaps => exact .stands (sameProviders_hold _ _) rfl rfl rfl rfl
  | @settles f b q r reply call =>
    have hslot : f.slot = some r := by
      rcases call with rfl | ⟨rfl, -⟩ <;> rfl
    exact .still (.refl _) rfl (by simpa using Frame.disposing_of_slot hslot)
      (Memory.disposing_settle _ _ _ _ _) rfl
  | proceeds slot slot' =>
    exact .still (.refl _) rfl (by simpa using Frame.disposing_of_slot slot)
      (by simpa using Frame.disposing_of_slot slot') rfl
  | @provides f f' r op slot slot' _ _ _ _ provided work =>
    refine .away (.refl _) rfl (by simpa using Frame.disposing_of_slot slot)
      (by simpa using Frame.disposing_of_slot slot') ?_ (by simp) ?_
    · intro k
      cases op <;> simp at work ⊢
    · intro k op' b hcall
      rw [List.mem_singleton, Event.provider.injEq] at hcall
      exact ⟨r, hcall.1.symm, provided⟩
  | works => exact .stands (.refl _) rfl rfl rfl rfl
  | announces => exact .stands (.refl _) rfl rfl rfl rfl
  | silent => exact .stands (.refl _) rfl rfl rfl rfl
  | scheduleAccepted _ _ sent =>
    obtain ⟨hsame, hfree⟩ := sameProviders_submit sent
    exact .still hsame hfree (List.filterMap_eq_nil_iff.mp rfl)
      (Memory.disposing_settle _ _ _ _ _) rfl
  | scheduleImmediate _ _ sent =>
    obtain ⟨hsame, hfree⟩ := sameProviders_immediate sent
    exact .still hsame hfree (List.filterMap_eq_nil_iff.mp rfl) (by simp [Memory.settle]) rfl
  | finishesAgain =>
    exact .still (.refl _) rfl (List.filterMap_eq_nil_iff.mp rfl)
      (Memory.disposing_after _ _ _) rfl
  | finishes =>
    exact .still (sameProviders_complete _ _ _ _) rfl (List.filterMap_eq_nil_iff.mp rfl)
      (Memory.disposing_after _ _ _) rfl
  | finishesBlock =>
    exact .stands (sameProviders_complete _ _ _ _) rfl rfl rfl rfl
  | publishesNothing =>
    exact .still (sameProviders_withQueues _ _) rfl (List.filterMap_eq_nil_iff.mp rfl)
      (Memory.disposing_after _ _ _) rfl
  | publishAccepted _ _ _ sent =>
    obtain ⟨hsame, hfree⟩ := sameProviders_submit sent
    exact .still ((sameProviders_withQueues _ _).trans hsame) hfree (List.filterMap_eq_nil_iff.mp rfl)
      (Memory.disposing_after _ _ _) rfl
  | publishImmediate _ _ _ sent =>
    obtain ⟨hsame, hfree⟩ := sameProviders_immediate sent
    refine .still ((sameProviders_withQueues _ _).trans hsame) hfree
      (List.filterMap_eq_nil_iff.mp rfl) ?_ rfl
    intro f hf
    rcases List.mem_cons.mp hf with rfl | hf
    · rfl
    · exact Memory.disposing_after _ _ _ f hf
  | retiresAgain =>
    exact .still (.refl _) rfl (List.filterMap_eq_nil_iff.mp rfl)
      (Memory.disposing_settle _ _ _ _ _) rfl
  | retires =>
    exact .still (sameProviders_retireSlot _ _) (retireSlot_free _ _)
      (List.filterMap_eq_nil_iff.mp rfl) (by simp [Memory.settle]) rfl
  | releases =>
    exact .stands (sameProviders_drop _ _) rfl rfl rfl rfl
  | releasesLast =>
    refine .quiet (sameProviders_drop _ _) (by simp) ?_ (by simp) (by simp) (by simp)
    intro i
    simp [Memory.drop]
  | destroys => exact .strips (.inl rfl)
  | destroysNothing => exact .strips (.inr rfl)
  | @destroyed r provider =>
    refine .quiet (.refl _) ?_ (by simp) (by simp) (by simp) (by simp)
    intro i
    cases provider <;> simp
  | cleansNothing => exact .quiet (.refl _) (by simp) (by simp) (by simp) (by simp) (by simp)
  | cleans => exact .cleans
  | cleaned => exact .quiet (.refl _) (by simp) (by simp) (by simp) (by simp) (by simp)
  | @recycles r =>
    refine .quiet (sameProviders_recycle _ _) (by simp) ?_ (by simp) (by simp) (by simp)
    intro i
    simp [Memory.recycle, List.count_cons]

end Effects

namespace AsyncThreads

variable {s s' : AsyncThreads Op} {i : ℕ} {c : Choice Op} {tr ev : List Event}

/-- A provider's `begin` call does not fail, as long as the slot still has the provider. -/
def BeginsSucceed (s : AsyncThreads Op) (input : ℕ × Choice Op) : Prop :=
  ∀ rest r b hr, s.threads[input.1]? = some (.beginning r b :: rest) →
    input.2 = .answer (.code hr) → failed hr = true → (s.memory.slots r).provider.isSome = false

/-- The cleanups that slot `r` still owes. -/
def owes (s : AsyncThreads Op) (r : SlotId) : ℕ :=
  (if (s.memory.slots r).provider.isSome then 1 else 0) + Stacks.total (Frame.owes r) s.threads

/-- The activations that dispose of slot `r` after stripping it, and the places of the slot on the
free list. -/
def gone (s : AsyncThreads Op) (r : SlotId) : ℕ :=
  s.memory.free.count r + Stacks.total (Frame.stripped r) s.threads

structure Providers (tr : List Event) (s : AsyncThreads Op) : Prop where
  owed : ∀ r : SlotId, (r : ℕ) < s.memory.used →
    tr.countP (Event.cleansUp (s.memory.serial r)) + s.owes r =
      tr.countP (Event.provides (s.memory.serial r))
  kept : ∀ r, (s.memory.slots r).provider.isSome = true →
    (r : ℕ) < s.memory.used ∧ s.gone r = 0
  past : ∀ k, k < s.memory.acquired →
    (∀ r : SlotId, (r : ℕ) < s.memory.used → s.memory.serial r ≠ k) →
      tr.countP (Event.cleansUp k) = tr.countP (Event.provides k)
  order : tr.Pairwise CleanupLast

theorem owes_disposals (r : SlotId) :
    Stacks.total (Frame.owes r) s.threads ≤ s.disposals r :=
  Stacks.total_mono (Frame.owes_le r) s.threads

theorem stripped_disposals (r : SlotId) :
    Stacks.total (Frame.stripped r) s.threads ≤ s.disposals r :=
  Stacks.total_mono (Frame.stripped_le r) s.threads

theorem Serials.provides_le (serials : Serials tr s) {k : ℕ} (hk : k < s.memory.acquired) :
    tr.countP (Event.provides k) ≤ 1 := by
  rw [← serials.begun k hk]
  refine List.countP_mono_left ?_
  intro e _ he
  cases e with
  | begun k' b provided ps =>
    cases provided
    · cases he
    · exact he
  | _ => cases he

theorem Providers.not_cleaned (providers : Providers tr s) (serials : Serials tr s) {r : SlotId}
    (hr : (r : ℕ) < s.memory.used) (owed : 0 < s.owes r) (b : Option BlockId) :
    .provider (s.memory.serial r) .cleanup b ∉ tr := by
  intro hmem
  have hledger := providers.owed r hr
  have hone := serials.provides_le (serials.slots r hr)
  have hcleaned : 0 < tr.countP (Event.cleansUp (s.memory.serial r)) :=
    List.countP_pos_iff.mpr ⟨_, hmem, by simp [Event.cleansUp]⟩
  omega

theorem pairwise_of_no_cleanup (cleanups : ∀ k, ev.countP (Event.cleansUp k) = 0) :
    ev.Pairwise CleanupLast := by
  refine List.pairwise_of_forall_mem_list ?_
  rintro e he e' - k b op b' rfl
  have hnone := List.countP_eq_zero.mp (cleanups k) _ he
  simp [Event.cleansUp] at hnone

/-- A step that calls no provider for its cleanup, and begins no operation. -/
theorem Providers.quiet (providers : Providers tr s) (serials : Serials tr s)
    (same : SameProviders s.memory s'.memory)
    (owes : ∀ r, Stacks.total (Frame.owes r) s'.threads = Stacks.total (Frame.owes r) s.threads)
    (gone : ∀ r, s'.gone r = s.gone r) (cleanups : ∀ k, ev.countP (Event.cleansUp k) = 0)
    (begins : ∀ k, ev.countP (Event.provides k) = 0)
    (calls : ∀ k op b, .provider k op b ∈ ev →
      ∃ r, s.memory.serial r = k ∧ (s.memory.slots r).provider.isSome = true) :
    Providers (tr ++ ev) s' := by
  constructor
  · intro r hr
    have hledger := providers.owed r (same.used ▸ hr)
    simp only [AsyncThreads.owes] at hledger ⊢
    rw [List.countP_append, List.countP_append, cleanups, begins, same.serial, same.provider, owes]
    exact hledger
  · intro r hprovider
    rw [same.provider] at hprovider
    rw [gone, same.used]
    exact providers.kept r hprovider
  · intro k hk hnot
    rw [List.countP_append, List.countP_append, cleanups, begins]
    refine providers.past k (same.acquired ▸ hk) ?_
    intro r hr
    rw [← same.serial r]
    exact hnot r (same.used.symm ▸ hr)
  · rw [List.pairwise_append]
    refine ⟨providers.order, ?_, ?_⟩
    · exact pairwise_of_no_cleanup cleanups
    · rintro e he e' he' k b op b' rfl rfl
      obtain ⟨r, rfl, hprovider⟩ := calls k op b' he'
      refine providers.not_cleaned serials (providers.kept r hprovider).1 ?_ b he
      simp [AsyncThreads.owes, hprovider]

/-- The slot is stripped: what it owed is owed by the activation. -/
theorem Providers.strip (providers : Providers tr s) {r : SlotId}
    (memory : s'.memory = s.memory.strip r)
    (owes : ∀ x, Stacks.total (Frame.owes x) s'.threads = Stacks.total (Frame.owes x) s.threads +
      if r = x ∧ (s.memory.slots r).provider.isSome then 1 else 0)
    (stripped : ∀ x, x ≠ r →
      Stacks.total (Frame.stripped x) s'.threads = Stacks.total (Frame.stripped x) s.threads) :
    Providers tr s' := by
  have hlabels : SameLabels s.memory s'.memory := memory ▸ sameLabels_strip s.memory r
  have hself : (s'.memory.slots r).provider = none := by
    rw [memory]
    simp [Memory.strip]
  have hother : ∀ x, x ≠ r → s'.memory.slots x = s.memory.slots x := by
    intro x hx
    rw [memory]
    simp [Memory.strip, hx]
  constructor
  · intro x hx
    have hledger := providers.owed x (hlabels.used ▸ hx)
    rw [hlabels.serial, ← hledger]
    simp only [AsyncThreads.owes]
    rw [owes x]
    by_cases hxr : x = r
    · subst hxr
      simp [hself]
      omega
    · simp [hother x hxr, Ne.symm hxr]
  · intro x hprovider
    have hxr : x ≠ r := by
      rintro rfl
      rw [hself] at hprovider
      cases hprovider
    rw [hother x hxr] at hprovider
    obtain ⟨hused, hgone⟩ := providers.kept x hprovider
    refine ⟨hlabels.used ▸ hused, ?_⟩
    simp only [gone] at hgone ⊢
    rw [stripped x hxr, memory]
    exact hgone
  · intro k hk hnot
    refine providers.past k (hlabels.acquired ▸ hk) ?_
    intro x hx
    rw [← hlabels.serial x]
    exact hnot x (hlabels.used.symm ▸ hx)
  · exact providers.order

/-- The activation that disposes of the slot calls the provider for its cleanup. -/
theorem Providers.clean (providers : Providers tr s) (serials : Serials tr s) {r : SlotId}
    (hr : (r : ℕ) < s.memory.used) (memory : s'.memory = s.memory)
    (owes : ∀ x, Stacks.total (Frame.owes x) s.threads = Stacks.total (Frame.owes x) s'.threads +
      if r = x then 1 else 0)
    (gone : ∀ x, s'.gone x = s.gone x) :
    Providers (tr ++ [.provider (s.memory.serial r) .cleanup none]) s' := by
  have howes : ∀ x, s.owes x = s'.owes x + if r = x then 1 else 0 := by
    intro x
    simp only [AsyncThreads.owes]
    rw [owes x, memory]
    omega
  constructor
  · intro x hx
    rw [memory] at hx ⊢
    have hledger := providers.owed x hx
    rw [List.countP_append, List.countP_append, List.countP_singleton, List.countP_singleton,
      ← hledger, howes x]
    by_cases hxr : r = x
    · subst hxr
      simp [Event.cleansUp, Event.provides]
      omega
    · have hne : s.memory.serial r ≠ s.memory.serial x := fun heq =>
        hxr (serials.distinct r x hr hx heq)
      simp [Event.cleansUp, Event.provides, hxr, hne]
  · intro x hprovider
    rw [memory] at hprovider ⊢
    rw [gone]
    exact providers.kept x hprovider
  · intro k hk hnot
    rw [memory] at hk hnot
    have hne : s.memory.serial r ≠ k := hnot r hr
    rw [List.countP_append, List.countP_append, List.countP_singleton, List.countP_singleton,
      providers.past k hk hnot]
    simp [Event.cleansUp, Event.provides, hne]
  · rw [List.pairwise_append]
    refine ⟨providers.order, List.pairwise_singleton _ _, ?_⟩
    rintro e he e' he' k b op b' rfl rfl
    rw [List.mem_singleton, Event.provider.injEq] at he'
    obtain ⟨rfl, -⟩ := he'
    have hr' := howes r
    rw [if_pos rfl] at hr'
    exact providers.not_cleaned serials hr (by omega) b he

theorem countP_unborn (serials : Serials tr s) {P : Event → Bool}
    (about : ∀ e, P e = true → e.serial = some s.memory.acquired) : tr.countP P = 0 := by
  rw [List.countP_eq_zero]
  intro e he hp
  exact serials.unborn (about e hp) (le_refl _) he

variable (s') in
/-- A slot is handed out: it owes a cleanup from now on if there is a provider. -/
theorem Providers.handOut (providers : Providers tr s) (serials : Serials tr s) {r : SlotId}
    {n₀ : Memory Op} (fresh : Sound.Fresh s.memory r n₀) (idle : s.disposals r = 0)
    (same : SameProviders n₀ s'.memory) (free : s'.memory.free = n₀.free)
    (owes : ∀ x, Stacks.total (Frame.owes x) s'.threads = Stacks.total (Frame.owes x) s.threads)
    (stripped : ∀ x,
      Stacks.total (Frame.stripped x) s'.threads = Stacks.total (Frame.stripped x) s.threads)
    {a : BlockId} {provided : Bool} {ps : Option PortId × Option PortId}
    (own : (n₀.slots r).provider.isSome = provided)
    (cleanups : ∀ k, ev.countP (Event.cleansUp k) = 0)
    (begins : ∀ k, ev.countP (Event.provides k) = 0)
    (calls : ∀ k op b, .provider k op b ∈ ev → k = s'.memory.serial r) :
    Providers (tr ++ .begun (s'.memory.serial r) a provided ps :: ev) s' := by
  have hserial : s'.memory.serial r = s.memory.acquired := by
    rw [same.serial, fresh.serial]
  have hacquired : s'.memory.acquired = s.memory.acquired + 1 := by
    rw [same.acquired, fresh.acquired]
  have hrused : (r : ℕ) < s'.memory.used := by
    rw [same.used]
    exact (fresh.used r).mpr (.inl rfl)
  have hused : ∀ x : SlotId, x ≠ r → ((x : ℕ) < s'.memory.used ↔ (x : ℕ) < s.memory.used) := by
    intro x hx
    rw [same.used, fresh.used x]
    simp [hx]
  have hserials : ∀ x, x ≠ r → s'.memory.serial x = s.memory.serial x := by
    intro x hx
    rw [same.serial]
    simp only [Memory.serial, fresh.others x hx]
  have hprovider : ∀ x, x ≠ r →
      (s'.memory.slots x).provider = (s.memory.slots x).provider := by
    intro x hx
    rw [same.provider, fresh.others x hx]
  have howes := owes_disposals (s := s) r
  have hstripped := stripped_disposals (s := s) r
  have hcleaned : tr.countP (Event.cleansUp s.memory.acquired) = 0 := by
    refine countP_unborn serials ?_
    intro e he
    cases e with
    | provider k op b =>
      cases op <;> simp [Event.cleansUp] at he
      simp [Event.serial, he]
    | _ => cases he
  have hprovided : tr.countP (Event.provides s.memory.acquired) = 0 := by
    refine countP_unborn serials ?_
    intro e he
    cases e with
    | begun k b p ps =>
      cases p <;> simp [Event.provides] at he
      simp [Event.serial, he]
    | _ => cases he
  have hnew : ∀ k, (Event.begun (s'.memory.serial r) a provided ps :: ev).countP
      (Event.cleansUp k) = 0 := by
    intro k
    rw [List.countP_cons, cleanups]
    simp [Event.cleansUp]
  have hbegin : ∀ k, (Event.begun (s'.memory.serial r) a provided ps :: ev).countP
      (Event.provides k) = if provided = true ∧ s.memory.acquired = k then 1 else 0 := by
    intro k
    rw [List.countP_cons, begins, hserial]
    cases provided <;> simp [Event.provides]
  constructor
  · intro x hx
    rw [List.countP_append, List.countP_append, hnew, hbegin]
    by_cases hxr : x = r
    · subst hxr
      simp only [AsyncThreads.owes]
      rw [hserial, hcleaned, hprovided, owes x, same.provider, own]
      cases provided <;> simp <;> omega
    · have hslot := serials.slots x ((hused x hxr).mp hx)
      have hledger := providers.owed x ((hused x hxr).mp hx)
      simp only [AsyncThreads.owes] at hledger ⊢
      have hold : ¬ (provided = true ∧ s.memory.acquired = s.memory.serial x) := fun h => by omega
      rw [hserials x hxr, owes x, hprovider x hxr, if_neg hold]
      omega
  · intro x hx
    by_cases hxr : x = r
    · subst hxr
      refine ⟨hrused, ?_⟩
      simp only [gone]
      rw [free, fresh.taken, stripped x]
      omega
    · rw [hprovider x hxr] at hx
      obtain ⟨hlt, hgone⟩ := providers.kept x hx
      refine ⟨(hused x hxr).mpr hlt, ?_⟩
      simp only [gone] at hgone ⊢
      rw [free, fresh.free x hxr, stripped x]
      exact hgone
  · intro k hk hnot
    have hka : k ≠ s.memory.acquired := fun heq => hnot r hrused (hserial.trans heq.symm)
    have hother : ¬ (provided = true ∧ s.memory.acquired = k) := fun h => by omega
    rw [List.countP_append, List.countP_append, hnew, hbegin, if_neg hother]
    by_cases hold : (r : ℕ) < s.memory.used ∧ s.memory.serial r = k
    · obtain ⟨hr, rfl⟩ := hold
      have hnone : (s.memory.slots r).provider.isSome = false := by
        by_contra hsome
        have hgone := (providers.kept r (Bool.eq_true_of_not_eq_false hsome)).2
        have hfree := fresh.idle hr
        simp only [gone] at hgone
        omega
      have hledger := providers.owed r hr
      simp only [AsyncThreads.owes, hnone] at hledger
      simp at hledger
      omega
    · refine providers.past k (by omega) fun x hx heq => ?_
      by_cases hxr : x = r
      · exact hold ⟨hxr ▸ hx, hxr ▸ heq⟩
      · exact hnot x ((hused x hxr).mpr hx) ((hserials x hxr).trans heq)
  · rw [List.pairwise_append]
    refine ⟨providers.order, pairwise_of_no_cleanup hnew, ?_⟩
    rintro e he e' he' k b op b' rfl rfl
    rcases List.mem_cons.mp he' with hbegun | he'
    · cases hbegun
    · have hk := calls k op b' he'
      rw [hserial] at hk
      exact serials.unborn rfl hk.ge he

theorem began_provider {m n : Memory Op} {a : BlockId} {q : QueueId} {r : SlotId} {id : Option ℕ}
    {o : Option Op} {provider : Option ℕ} {context : ℕ}
    (began : Began m a q r n id o provider context) : (n.slots r).provider = provider := by
  obtain ⟨qs, acquired, -, hacquire, rfl⟩ := began
  have hacquired := Memory.acquire_some hacquire
  cases provider <;> simp [Memory.describe, hacquired.slots]

theorem Providers.step (providers : Providers tr s) (serials : Serials tr s)
    (accounted : Accounted s) (succeed : BeginsSucceed s (i, c))
    (h : step .whole s (i, c) = some (s', ev)) : Providers (tr ++ ev) s' := by
  rcases step_cases h with ⟨fault, rfl, rfl⟩ | ⟨old, rest, new, n, hstack, heffect, -, rfl⟩
  · exact providers.quiet serials (.refl _) (fun _ => rfl) (fun _ => rfl)
      (by simp [Event.cleansUp]) (by simp [Event.provides]) (by simp)
  have howes := fun x => total_moved (Frame.owes x) new hstack
  have hstripped := fun x => total_moved (Frame.stripped x) new hstack
  have hmem := List.mem_of_getElem? hstack
  have heffect' : ProviderEffect s.memory old n new ev := by
    refine heffect.providers ?_
    intro r b hr hbeginning hanswer hfails
    rw [hbeginning] at hstack
    exact succeed rest r b hr hstack hanswer hfails
  cases heffect' with
  | quiet same owes gone cleanups begins calls =>
    refine providers.quiet serials same ?_ ?_ cleanups begins calls
    · intro x
      have hx := howes x
      rw [owes x] at hx
      dsimp only
      omega
    · intro x
      have hx := hstripped x
      have hgone := gone x
      simp only [AsyncThreads.gone]
      omega
  | @strips r f left =>
    rw [List.append_nil]
    refine providers.strip rfl ?_ ?_
    · intro x
      have hx := (howes x).2
      dsimp only
      rw [hx]
      cases hp : (s.memory.slots r).provider <;> rcases left with rfl | rfl <;>
        simp [Frame.owes, hp]
    · intro x hxr
      have hx := (hstripped x).2
      dsimp only
      rw [hx]
      rcases left with rfl | rfl <;> simp [Frame.stripped, Ne.symm hxr]
  | @cleans r x =>
    have hr : (r : ℕ) < s.memory.used := by
      have hle := Stacks.weight_le_total (Frame.disposes r) hmem
      refine audit_used accounted.audit (.inr ?_)
      simp only [disposals]
      simp [Frame.disposes, Frame.disposing] at hle
      omega
    refine providers.clean serials hr rfl ?_ ?_
    · intro y
      have hy := howes y
      simp [Frame.owes] at hy ⊢
      omega
    · intro y
      have hy := hstripped y
      simp only [AsyncThreads.gone]
      simp [Frame.stripped] at hy ⊢
      omega
  | @began a q r n₀ id o provider context _ _ provided ev' began same has free owes stripped
      cleanups begins calls =>
    have hfresh := accounted.audit.sound.began_fresh began
    refine providers.handOut { s with memory := n, threads := s.threads.set i (new ++ rest) }
      serials hfresh ?_ same free ?_ ?_ ?_ cleanups begins calls
    · obtain ⟨qs, acquired, -, hacquire, -⟩ := began
      exact (accounted.audit.sound.picked_idle (Memory.acquire_some hacquire)).2
    · intro x
      have hx := (howes x).2
      rw [owes x] at hx
      simpa using hx
    · intro x
      have hx := (hstripped x).2
      rw [stripped x] at hx
      simpa using hx
    · rw [began_provider began, has]

theorem providers_start (threads : ℕ) : Providers [] (start threads : AsyncThreads Op) := by
  constructor <;> simp [start, Memory.start, AsyncState.fresh]

theorem reaches_providers {threads : ℕ}
    (h : Reaches (step .whole) BeginsSucceed (start threads) tr s) : Providers tr s := by
  have hboth : Accounted s ∧ Serials tr s ∧ Providers tr s := by
    refine h.invariant (P := fun tr s => Accounted s ∧ Serials tr s ∧ Providers tr s)
      ⟨accounted_start threads, serials_start threads, providers_start threads⟩ ?_
    rintro tr s ⟨i, c⟩ t ev ⟨haccounted, hserials, hproviders⟩ hsucceed hstep
    exact ⟨haccounted.step hstep, hserials.step haccounted.audit (haccounted.ready i c) hstep,
      hproviders.step hserials haccounted hsucceed hstep⟩
  exact hboth.2.2

/-- The slot of an operation that is back in the pool owes nothing. -/
theorem Providers.settled (providers : Providers tr s) (serials : Serials tr s)
    (accounted : Accounted s) {k : ℕ} (hk : .recycled k ∈ tr) :
    tr.countP (Event.cleansUp k) = tr.countP (Event.provides k) := by
  have hacquired := serials.bounded _ hk k rfl
  by_cases hslot : ∃ r : SlotId, (r : ℕ) < s.memory.used ∧ s.memory.serial r = k
  · obtain ⟨r, hr, rfl⟩ := hslot
    have hfree : 0 < s.memory.free.count r := by
      rw [← serials.recycled r hr]
      exact List.count_pos_iff.mpr hk
    have hplace := accounted.audit.place hr
    have howes := owes_disposals (s := s) r
    have hnone : (s.memory.slots r).provider.isSome = false := by
      by_contra hsome
      have hgone := (providers.kept r (Bool.eq_true_of_not_eq_false hsome)).2
      simp only [gone] at hgone
      omega
    have hledger := providers.owed r hr
    simp only [owes, hnone] at hledger
    simp at hledger
    split_ifs at hplace <;> omega
  · push Not at hslot
    exact providers.past k hacquired hslot

/-- In every run in which no provider's `begin` call fails: an operation that was begun with a
provider has at most one cleanup call, it has had one when its slot is back in the pool, and no
other call of its provider comes after it. -/
theorem provider_cleaned_once {threads : ℕ}
    (h : Reaches (step .whole) BeginsSucceed (start threads) tr s) {k : ℕ} {b : BlockId}
    {ps : Option PortId × Option PortId} (begun : .begun k b true ps ∈ tr) :
    tr.countP (Event.cleansUp k) ≤ 1 ∧
    (.recycled k ∈ tr → tr.countP (Event.cleansUp k) = 1) ∧
    ∀ before b' after, tr = before ++ .provider k .cleanup b' :: after →
      ∀ op b'', .provider k op b'' ∉ after := by
  have hproviders := reaches_providers h
  have hserials := reaches_serials h
  have haccounted := reaches_accounted h
  have hk := hserials.bounded _ begun k rfl
  have hprovided : tr.countP (Event.provides k) = 1 := by
    have hle := hserials.provides_le hk
    have hpos : 0 < tr.countP (Event.provides k) :=
      List.countP_pos_iff.mpr ⟨_, begun, by simp [Event.provides]⟩
    omega
  refine ⟨?_, ?_, ?_⟩
  · by_cases hslot : ∃ r : SlotId, (r : ℕ) < s.memory.used ∧ s.memory.serial r = k
    · obtain ⟨r, hr, rfl⟩ := hslot
      have hledger := hproviders.owed r hr
      omega
    · push Not at hslot
      have hpast := hproviders.past k hk hslot
      omega
  · intro hrecycled
    rw [hproviders.settled hserials haccounted hrecycled, hprovided]
  · rintro before b' after rfl op b'' hcall
    have horder := (List.pairwise_append.mp hproviders.order).2.1
    exact List.rel_of_pairwise_cons horder hcall k b' op b'' rfl rfl

/-- Whether a provider's `begin` call succeeds is seen from the activation on top. -/
def Frame.succeeds (m : Memory Op) : Choice Op → Frame → Bool
  | .answer (.code hr), .beginning r _ => !(failed hr && (m.slots r).provider.isSome)
  | _, _ => true

theorem beginsSucceed_iff (s : AsyncThreads Op) (input : ℕ × Choice Op) :
    BeginsSucceed s input ↔
      ((s.threads[input.1]?.bind List.head?).all (Frame.succeeds s.memory input.2)) = true := by
  constructor
  · intro h
    cases hstack : s.threads[input.1]? with
    | none => rfl
    | some stack =>
      cases stack with
      | nil => rfl
      | cons f rest =>
        simp only [Option.bind_some, List.head?_cons, Option.all_some]
        cases hc : input.2 with
        | answer a =>
          cases a with
          | code hr =>
            cases f with
            | beginning r b =>
              have hnone := h rest r b hr hstack hc
              cases hfails : failed hr with
              | false => simp [Frame.succeeds, hfails]
              | true => simp [Frame.succeeds, hnone hfails]
            | _ => rfl
          | _ => rfl
        | _ => rfl
  · rintro h rest r b hr hstack hanswer hfails
    simpa [hstack, hanswer, Frame.succeeds, hfails] using h

instance (s : AsyncThreads Op) (input : ℕ × Choice Op) : Decidable (BeginsSucceed s input) :=
  decidable_of_iff _ (beginsSucceed_iff s input).symm

section Run

/-- A queue is made, and an operation is begun with a provider. -/
def beginProvider : List (ℕ × Choice Unit) :=
  [(0, .call (.createQueue .manual .manual) {}), (0, .go {}),
    (0, .call (.prepare 0 (some 0) none) {}),
    (0, .call (.providerBegin (some 0) 7 none (some 3)) {})]

def providerCanceled : List (ℕ × Choice Unit) :=
  [(0, .answer (.code S_OK)), (0, .go {}), (0, .call (.query (some 0) .cancel) {}), (0, .go {}),
    (0, .go {}), (0, .go {}), (0, .go {}), (0, .go {}), (0, .go {}), (0, .go {}), (0, .go {}),
    (0, .answer (.code S_OK)), (0, .go {})]

/-- The provider's `begin` call fails. -/
def providerFails : List (ℕ × Choice Unit) :=
  [(0, .answer (.code E_FAIL)), (0, .answer (.code S_OK)), (0, .go {}), (0, .go {}), (0, .go {}),
    (0, .go {}), (0, .answer (.code S_OK)), (0, .go {})]

theorem providerCanceled_trace :
    (execute (step .whole) (start 1) (beginProvider ++ providerCanceled)).map
      (fun last => (last.2.contains (.begun 0 0 true (some 0, some 1)),
        last.2.contains (.recycled 0))) = some (true, true) := by
  decide

/-- An operation that is canceled gives its slot back after one cleanup. -/
theorem provider_cleaned_once_canceled :
    ∃ (s : AsyncThreads Unit) (tr : List Event),
      Reaches (step .whole) BeginsSucceed (start 1) tr s ∧ tr.countP (Event.cleansUp 0) = 1 := by
  obtain ⟨⟨s, tr⟩, hrun, htr⟩ := Option.map_eq_some_iff.mp providerCanceled_trace
  have h : Reaches (step .whole) BeginsSucceed (start 1) tr s :=
    reaches_of_execute _ hrun (by decide)
  simp only [Prod.mk.injEq, List.contains_iff_mem] at htr
  exact ⟨s, tr, h, (provider_cleaned_once h htr.1).2.1 htr.2⟩

theorem providerFails_trace :
    (execute (step .whole) (start 1) (beginProvider ++ providerFails)).map
      (fun last => (last.2.contains (.begun 0 0 true (some 0, some 1)),
        last.2.countP (Event.cleansUp 0))) = some (true, 2) := by
  decide

/-- It is not so where the provider's `begin` call fails: `provider_begin` calls for the cleanup
itself and leaves the provider in the slot, and `dispose` calls again. -/
theorem failed_begin_cleans_twice :
    ¬ ∀ (tr : List Event) (s : AsyncThreads Unit), Reaches (step .whole) always (start 1) tr s →
      ∀ k b ps, .begun k b true ps ∈ tr → tr.countP (Event.cleansUp k) ≤ 1 := by
  intro hclaim
  obtain ⟨⟨s, tr⟩, hrun, htr⟩ := Option.map_eq_some_iff.mp providerFails_trace
  simp only [Prod.mk.injEq, List.contains_iff_mem] at htr
  have hle := hclaim tr s (reaches_of_run hrun) 0 0 (some 0, some 1) htr.1
  omega

end Run

end AsyncThreads

end IW4x.Gdk
