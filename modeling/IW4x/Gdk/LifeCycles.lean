import IW4x.Lib.Objects
import IW4x.Gdk.Completions
import IW4x.Gdk.Providers

/-!
# The life of an operation

Seen from outside, an operation is an object with five flags: it is begun, finished, retired, disposed
of and recycled, each at most once. Which events there can be while it has which flags makes up its life
cycle. The slots, the holds on them and the threads that share them are nothing but a way to keep it:
every run of the threads is a run of a world of such objects, and the slot of an operation has its flags.
-/

namespace IW4x.Gdk

open Runs
open Objects

variable {Op : Type}

/-! ## The life cycle -/

/-- How far an operation has come. -/
structure Life where
  begun : Bool := false
  finished : Bool := false
  retired : Bool := false
  disposed : Bool := false
  recycled : Bool := false
  deriving DecidableEq, Repr

namespace Life

/-- What may happen to an operation. A provider is given the block until the operation is retired, and
is called for the cleanup only while the operation is disposed of. -/
def allows (l : Life) : Event → Bool
  | .begun .. => !l.begun
  | .found _ => l.begun && !l.retired
  | .provider _ .cleanup b => l.disposed && !l.recycled && b.isNone
  | .provider _ _ b => l.begun && !l.disposed && (b.isSome == !l.retired)
  | .worked _ => l.begun && !l.disposed
  | .queued .. => l.begun && !l.disposed
  | .ran .. => l.begun && !l.disposed
  | .routine .. => l.begun && !l.retired
  | .finished .. => l.begun && !l.disposed && !l.finished
  | .retired _ => l.begun && !l.retired
  | .disposed _ => l.retired && !l.disposed
  | .recycled _ => l.disposed && !l.recycled
  | .returned .. => true
  | .ended _ => true

def after (l : Life) : Event → Life
  | .begun .. => { l with begun := true }
  | .finished .. => { l with finished := true }
  | .retired _ => { l with retired := true }
  | .disposed _ => { l with disposed := true }
  | .recycled _ => { l with recycled := true }
  | _ => l

/-- The world of operations. -/
def protocol : Protocol ℕ Life Event where
  about := Event.serial
  allows := allows
  after := after

end Life

/-- The event is one of those that leave an operation as far as it is, and it fits slot `r`. -/
def Event.notes (m : Memory Op) (r : SlotId) : Event → Prop
  | .found k => k = m.serial r ∧ (m.slots r).block.isSome = true
  | .routine k _ => k = m.serial r ∧ (m.slots r).block.isSome = true
  | .provider k op b => k = m.serial r ∧ op ≠ .cleanup ∧ b = (m.slots r).block
  | .worked k => k = m.serial r
  | .queued k _ _ => k = m.serial r
  | .ran k _ _ => k = m.serial r
  | _ => False

/-- What is noted of an operation, it allows: it is not disposed of, and it is retired if and only if
its block has let go of it. -/
theorem Event.notes_allowed {m : Memory Op} {r : SlotId} {l : Life} (begun : l.begun = true)
    (disposed : l.disposed = false) (retired : l.retired = !(m.slots r).block.isSome) {e : Event}
    (notes : e.notes m r) :
    e.serial = some (m.serial r) ∧ l.allows e = true ∧ l.after e = l := by
  cases e with
  | found k =>
    obtain ⟨rfl, hblock⟩ := notes
    exact ⟨rfl, by simp [Life.allows, begun, retired, hblock], rfl⟩
  | routine k b =>
    obtain ⟨rfl, hblock⟩ := notes
    exact ⟨rfl, by simp [Life.allows, begun, retired, hblock], rfl⟩
  | provider k op b =>
    obtain ⟨rfl, hop, rfl⟩ := notes
    refine ⟨rfl, ?_, rfl⟩
    cases op with
    | cleanup => exact absurd rfl hop
    | _ => simp [Life.allows, begun, disposed, retired]
  | worked k =>
    obtain rfl := notes
    exact ⟨rfl, by simp [Life.allows, begun, disposed], rfl⟩
  | queued k f p =>
    obtain rfl := notes
    exact ⟨rfl, by simp [Life.allows, begun, disposed], rfl⟩
  | ran k f p =>
    obtain rfl := notes
    exact ⟨rfl, by simp [Life.allows, begun, disposed], rfl⟩
  | _ => cases notes

/-! ## What a step does to the lives -/

/-- No slot was handed out or put back, and no operation has come further. -/
structure SameLives (m n : Memory Op) : Prop extends SameOutcomes m n where
  naming : ∀ r, (n.slots r).naming = (m.slots r).naming
  free : n.free = m.free

theorem SameLives.refl (m : Memory Op) : SameLives m m := ⟨.refl m, fun _ => rfl, rfl⟩

theorem SameLives.trans {m n o : Memory Op} (h : SameLives m n) (h' : SameLives n o) :
    SameLives m o :=
  ⟨h.toSameOutcomes.trans h'.toSameOutcomes, fun r => (h'.naming r).trans (h.naming r),
    h'.free.trans h.free⟩

theorem sameLives_hold (m : Memory Op) (r : SlotId) : SameLives m (m.hold r) :=
  ⟨sameOutcomes_hold m r, naming_setSlot rfl, rfl⟩

theorem sameLives_drop (m : Memory Op) (r : SlotId) : SameLives m (m.drop r) :=
  ⟨sameOutcomes_drop m r, naming_drop m r, rfl⟩

theorem sameLives_strip (m : Memory Op) (r : SlotId) : SameLives m (m.strip r) :=
  ⟨sameOutcomes_setSlot rfl rfl, naming_setSlot rfl, rfl⟩

theorem sameLives_withQueues (m : Memory Op) (q : QueuePool Task) :
    SameLives m (m.withQueues q) :=
  ⟨sameOutcomes_withQueues m q, fun _ => rfl, rfl⟩

theorem sameLives_submit {m n : Memory Op} {alloc : Bool} {now delay : ℕ} {r : SlotId}
    {p : PortId} {f : Work} (sent : m.submit alloc now r p delay f = .accepted n) :
    SameLives m n := by
  obtain ⟨t, -, rfl, -⟩ := Memory.submit_accepted sent
  exact (sameLives_hold m r).trans (sameLives_withQueues _ _)

theorem sameLives_immediate {m n : Memory Op} {alloc : Bool} {now delay : ℕ} {r : SlotId}
    {p : PortId} {f : Work} (sent : m.submit alloc now r p delay f = .immediate n) :
    SameLives m n := by
  obtain ⟨rfl, -⟩ := Memory.submit_immediate sent
  exact sameLives_hold m r

/-- Something has a hold on slot `r`: an activation, a queued task, or the block that a look-up has
found. -/
inductive Touched (m : Memory Op) (old : List Frame) (r : SlotId) : Prop
  | frame {f : Frame} (mem : f ∈ old) (slot : f.slot = some r)
  | queued {p : PortId} {f : Work} (mem : .held r f ∈ (m.queues.owned p).callbacks)
  | found {a : BlockId} (block : (m.slots r).block = some a)

/-- What a step means for the lives of the operations. -/
inductive LifeEffect (m : Memory Op) : List Frame → Memory Op → List Frame → List Event → Prop
  | notes {old n new ev r} (touched : Touched m old r) (same : SameLives m n)
      (disposals : ∀ i, Stacks.weight (Frame.disposes i) new =
        Stacks.weight (Frame.disposes i) old)
      (events : ∀ e ∈ ev, e.notes m r) : LifeEffect m old n new ev
  | silent {old n new ev} (same : SameLives m n)
      (disposals : ∀ i, Stacks.weight (Frame.disposes i) new =
        Stacks.weight (Frame.disposes i) old)
      (events : ∀ e ∈ ev, e.serial = none) : LifeEffect m old n new ev
  | cleans {r x} : LifeEffect m [.cleaning r (some x)] m [.cleaned r]
      [.provider (m.serial r) .cleanup none]
  | finishes {r hr size next new} (first : (m.slots r).completed = false)
      (disposals : ∀ i, Stacks.weight (Frame.disposes i) new = 0) :
      LifeEffect m [.finish r hr size next] (m.complete r hr size) new [.finished (m.serial r) hr]
  | retires {old r new} (holds : ∃ f ∈ old, f.slot = some r ∨ f.begins = some r)
      (live : (m.slots r).retired = false)
      (disposals : ∀ i, Stacks.weight (Frame.disposes i) new =
        Stacks.weight (Frame.disposes i) old) :
      LifeEffect m old (m.retireSlot r) new [.retired (m.serial r)]
  | disposed {r owner} (last : holdsOf (m.slots r).state = 1) :
      LifeEffect m [.release r owner] (m.drop r) [.dispose r] [.disposed (m.serial r)]
  | recycled {r} : LifeEffect m [.recycle r] (m.recycle r) [] [.recycled (m.serial r)]
  | began {a q r n₀ id o provider context n new provided ps ev}
      (began : Began m a q r n₀ id o provider context) (same : SameLives n₀ n)
      (disposals : ∀ i, Stacks.weight (Frame.disposes i) new = 0)
      (events : ∀ e ∈ ev, e.notes n₀ r) :
      LifeEffect m [] n new (.begun (n₀.serial r) a provided ps :: ev)
  | refused {a q r n₀ id o provider context new provided ps}
      (began : Began m a q r n₀ id o provider context)
      (disposals : ∀ i, Stacks.weight (Frame.disposes i) new = 0) :
      LifeEffect m [] (n₀.retireSlot r) new
        [.begun (n₀.serial r) a provided ps, .retired (n₀.serial r)]

theorem began_block {m n : Memory Op} {a : BlockId} {q : QueueId} {r : SlotId} {id : Option ℕ}
    {o : Option Op} {provider : Option ℕ} {context : ℕ}
    (began : Began m a q r n id o provider context) : (n.slots r).block = some a := by
  obtain ⟨qs, acquired, -, hacquire, rfl⟩ := began
  have hacquired := Memory.acquire_some hacquire
  simp [Memory.describe, hacquired.slots]

section Effects

variable {m n : Memory Op} {c : Choice Op} {old new : List Frame} {ev : List Event}

attribute [local simp] Frame.disposes Frame.disposing Memory.settle Event.notes

theorem disposals_of_slot {f : Frame} {r : SlotId} (slot : f.slot = some r)
    (none : ∀ i, Stacks.weight (Frame.disposes i) new = 0) (i : SlotId) :
    Stacks.weight (Frame.disposes i) new = Stacks.weight (Frame.disposes i) [f] := by
  rw [none i, Stacks.weight_cons, Frame.disposes_of_slot slot, Stacks.weight_nil]

theorem disposals_of_slots {f f' : Frame} {r : SlotId} (slot : f.slot = some r)
    (slot' : f'.slot = some r) (i : SlotId) :
    Stacks.weight (Frame.disposes i) [f'] = Stacks.weight (Frame.disposes i) [f] := by
  simp only [Stacks.weight_cons, Frame.disposes_of_slot slot, Frame.disposes_of_slot slot']

theorem Effect.lives (effect : Effect .whole m c old n new ev) (whole : ∀ f ∈ old, ¬ f.finds)
    (linked : ∀ a r, m.find (some a) = some r → (m.slots r).block = some a)
    (succeeds : ∀ r b hr, old = [.beginning r b] → c = .answer (.code hr) → failed hr = true →
      (m.slots r).provider.isSome = false) : LifeEffect m old n new ev := by
  cases effect with
  | manage _ light plain =>
    refine .silent (sameLives_withQueues _ _) ?_ (by simp)
    intro i
    rw [weight_disposes_light light, weight_disposes_light fun f hf => (plain f hf).1]
  | adjusts _ light plain =>
    refine .silent (sameLives_withQueues _ _) ?_ (by simp)
    intro i
    rw [weight_disposes_light light, weight_disposes_light fun f hf => (plain f hf).1]
  | prepare =>
    exact .silent ⟨⟨⟨rfl, rfl, fun _ => rfl⟩, fun _ => rfl⟩, fun _ => rfl, rfl⟩ (fun _ => rfl)
      (by simp)
  | returns => exact .silent (.refl _) (fun _ => rfl) (by simp [Event.serial])
  | @took _ ran p now t light plain _ taken =>
    have hdisposals : ∀ i, Stacks.weight (Frame.disposes i)
        (t.item.callback.frames t.canceled ++ ran) = Stacks.weight (Frame.disposes i) old := by
      intro i
      rw [Stacks.weight_append, weight_disposes_frames, weight_disposes_light light,
        weight_disposes_light fun f hf => (plain f hf).1]
    cases hx : t.item.callback with
    | callback x =>
      rw [hx] at hdisposals
      exact .silent (sameLives_withQueues _ _) hdisposals (by simp [Memory.ranEvents])
    | held r f =>
      obtain ⟨hperm, -⟩ := TaskPort.take_spec taken
      rw [hx] at hdisposals
      refine .notes (r := r) (.queued (p := p) (f := f) ?_) (sameLives_withQueues _ _) hdisposals
        (by simp [Memory.ranEvents])
      rw [hperm.mem_iff, hx]
      exact List.mem_cons_self
  | beginAccepted began port sent =>
    exact .began began (sameLives_submit sent) (fun _ => rfl) (by simp)
  | beginImmediate began port sent =>
    exact .began began (sameLives_immediate sent) (fun _ => rfl) (by simp)
  | beginRefused began => exact .refused began fun _ => rfl
  | providerBegun began =>
    exact .began began (.refl _) (fun _ => rfl) (by simp [began_block began])
  | failsBegin said fails provided =>
    rw [succeeds _ _ _ rfl said fails] at provided
    cases provided
  | cleanedFailed => exact .silent (.refl _) (fun _ => rfl) (by simp)
  | drops live => exact .retires ⟨_, List.mem_singleton_self _, .inr rfl⟩ live fun _ => rfl
  | @finds a q r _ _ _ found =>
    have hblock := linked a r found
    exact .notes (.found hblock) (sameLives_hold _ _) (fun _ => rfl) (by simp [hblock])
  | swaps => exact absurd trivial (whole _ (List.mem_singleton_self _))
  | @settles f b q r reply call =>
    have hslot : f.slot = some r := by
      rcases call with rfl | ⟨rfl, -⟩ <;> rfl
    exact .silent (.refl _) (disposals_of_slot hslot fun _ => by simp) (by simp)
  | proceeds slot slot' =>
    exact .silent (.refl _)
      (disposals_of_slots slot slot') (by simp)
  | provides slot slot' _ _ _ _ _ work =>
    exact .notes (.frame List.mem_cons_self slot) (.refl _)
      (disposals_of_slots slot slot') (by simp [work.2])
  | works =>
    exact .notes (.frame List.mem_cons_self rfl) (.refl _) (fun _ => rfl) (by simp)
  | announces block =>
    exact .notes (.frame List.mem_cons_self rfl) (.refl _) (fun _ => rfl) (by simp [block])
  | silent => exact .silent (.refl _) (fun _ => rfl) (by simp)
  | scheduleAccepted _ _ sent =>
    exact .notes (.frame List.mem_cons_self rfl) (sameLives_submit sent) (fun _ => rfl) (by simp)
  | scheduleImmediate _ _ sent =>
    exact .notes (.frame List.mem_cons_self rfl) (sameLives_immediate sent) (fun _ => rfl)
      (by simp)
  | finishesAgain =>
    exact .silent (.refl _) (disposals_of_slot rfl fun i => weight_disposes_after _ _ i)
      (by simp)
  | finishes first => exact .finishes first fun i => weight_disposes_after _ _ i
  | finishesBlock first => exact .finishes first fun _ => rfl
  | publishesNothing =>
    exact .silent (sameLives_withQueues _ _)
      (disposals_of_slot rfl fun i => weight_disposes_after _ _ i) (by simp)
  | publishAccepted _ _ _ sent =>
    exact .notes (.frame List.mem_cons_self rfl)
      ((sameLives_withQueues _ _).trans (sameLives_submit sent))
      (disposals_of_slot rfl fun i => weight_disposes_after _ _ i) (by simp)
  | publishImmediate _ _ _ sent =>
    refine .notes (.frame List.mem_cons_self rfl)
      ((sameLives_withQueues _ _).trans (sameLives_immediate sent))
      (disposals_of_slot rfl ?_) (by simp)
    intro i
    rw [Stacks.weight_cons, weight_disposes_after]
    simp
  | retiresAgain => exact .silent (.refl _) (fun _ => rfl) (by simp)
  | retires live =>
    exact .retires ⟨_, List.mem_singleton_self _, .inl rfl⟩ live fun _ => rfl
  | releases => exact .silent (sameLives_drop _ _) (fun _ => rfl) (by simp)
  | releasesLast last => exact .disposed last
  | destroys => exact .silent (sameLives_strip _ _) (fun _ => rfl) (by simp)
  | destroysNothing => exact .silent (sameLives_strip _ _) (fun _ => rfl) (by simp)
  | destroyed => exact .silent (.refl _) (fun _ => rfl) (by simp)
  | cleansNothing => exact .silent (.refl _) (fun _ => rfl) (by simp)
  | cleans => exact .cleans
  | cleaned => exact .silent (.refl _) (fun _ => rfl) (by simp)
  | recycles => exact .recycled

end Effects

/-! ## The slots and the world -/

namespace AsyncThreads

variable {s s' : AsyncThreads Op} {i : ℕ} {c : Choice Op} {tr ev : List Event} {w : ℕ → Life}

/-- How far the operation has come that slot `r` belongs to. -/
def life (s : AsyncThreads Op) (r : SlotId) : Life where
  begun := true
  finished := (s.memory.slots r).completed
  retired := (s.memory.slots r).retired
  disposed := decide (0 < s.memory.free.count r + s.disposals r)
  recycled := decide (0 < s.memory.free.count r)

@[simp] theorem life_begun (r : SlotId) : (s.life r).begun = true := rfl

/-- The world tells of every operation how far it has come. An operation whose slot was handed out
again is one that was recycled. -/
structure Lives (s : AsyncThreads Op) (w : ℕ → Life) : Prop where
  slots : ∀ r : SlotId, (r : ℕ) < s.memory.used → w (s.memory.serial r) = s.life r
  past : ∀ k, k < s.memory.acquired →
    (∀ r : SlotId, (r : ℕ) < s.memory.used → s.memory.serial r ≠ k) → (w k).recycled = true
  unborn : ∀ k, s.memory.acquired ≤ k → w k = {}

theorem lives_start (threads : ℕ) : Lives (start threads : AsyncThreads Op) fun _ => {} where
  slots := fun r hr => by simp [start, Memory.start] at hr
  past := fun k hk => by simp [start, Memory.start] at hk
  unborn := fun _ _ => rfl

theorem life_congr {x : SlotId}
    (completed : (s'.memory.slots x).completed = (s.memory.slots x).completed)
    (retired : (s'.memory.slots x).retired = (s.memory.slots x).retired)
    (free : s'.memory.free.count x = s.memory.free.count x)
    (disposals : s'.disposals x = s.disposals x) : s'.life x = s.life x := by
  simp only [life, completed, retired, free, disposals]

theorem life_of_same (same : SameLives s.memory s'.memory) {x : SlotId}
    (disposals : s'.disposals x = s.disposals x) : s'.life x = s.life x := by
  have houtcome := same.outcome x
  have hnaming := same.naming x
  simp only [AsyncState.outcome, AsyncState.naming, Prod.mk.injEq] at houtcome hnaming
  exact life_congr houtcome.1 hnaming.2.1 (by rw [same.free]) disposals

/-- A step that hands out no slot, and after which no operation but that of slot `r` has come
further. -/
theorem Lives.moved (lives : Lives s w) (serials : Serials tr s) {r : SlotId}
    (hr : (r : ℕ) < s.memory.used) (labels : SameLabels s.memory s'.memory)
    (others : ∀ x, x ≠ r → s'.life x = s.life x) :
    Lives s' (Function.update w (s.memory.serial r) (s'.life r)) := by
  constructor
  · intro x hx
    have hx : (x : ℕ) < s.memory.used := labels.used ▸ hx
    rw [labels.serial]
    by_cases hxr : x = r
    · rw [hxr, Function.update_self]
    · have hne : s.memory.serial x ≠ s.memory.serial r := fun heq =>
        hxr (serials.distinct x r hx hr heq)
      rw [Function.update_of_ne hne, others x hxr]
      exact lives.slots x hx
  · intro k hk hnot
    have hnot : ∀ x : SlotId, (x : ℕ) < s.memory.used → s.memory.serial x ≠ k := by
      intro x hx
      rw [← labels.serial x]
      exact hnot x (labels.used.symm ▸ hx)
    rw [Function.update_of_ne (hnot r hr).symm]
    exact lives.past k (labels.acquired ▸ hk) hnot
  · intro k hk
    have hk : s.memory.acquired ≤ k := labels.acquired ▸ hk
    have hlt := serials.slots r hr
    rw [Function.update_of_ne (by omega)]
    exact lives.unborn k hk

theorem Lives.still (lives : Lives s w) (labels : SameLabels s.memory s'.memory)
    (same : ∀ x, s'.life x = s.life x) : Lives s' w := by
  constructor
  · intro x hx
    rw [labels.serial, same]
    exact lives.slots x (labels.used ▸ hx)
  · intro k hk hnot
    refine lives.past k (labels.acquired ▸ hk) fun x hx => ?_
    rw [← labels.serial x]
    exact hnot x (labels.used.symm ▸ hx)
  · intro k hk
    exact lives.unborn k (labels.acquired ▸ hk)

/-- A slot that was free, or never used, is handed out to a new operation. -/
theorem Lives.handOut (lives : Lives s w) (serials : Serials tr s) {r : SlotId} {n₀ : Memory Op}
    (fresh : Sound.Fresh s.memory r n₀) (labels : SameLabels n₀ s'.memory)
    (others : ∀ x, x ≠ r → s'.life x = s.life x) :
    Lives s' (Function.update w (n₀.serial r) (s'.life r)) := by
  have hserial : ∀ x, x ≠ r → s'.memory.serial x = s.memory.serial x := by
    intro x hx
    rw [labels.serial]
    simp only [Memory.serial, fresh.others x hx]
  have hused : ∀ x : SlotId, (x : ℕ) < s'.memory.used ↔ x = r ∨ (x : ℕ) < s.memory.used := by
    intro x
    rw [labels.used]
    exact fresh.used x
  constructor
  · intro x hx
    by_cases hxr : x = r
    · rw [hxr, labels.serial, Function.update_self]
    · have hx := ((hused x).mp hx).resolve_left hxr
      have hlt := serials.slots x hx
      rw [hserial x hxr, fresh.serial, Function.update_of_ne (by omega), others x hxr]
      exact lives.slots x hx
  · intro k hk hnot
    have hne : k ≠ n₀.serial r := by
      rw [← labels.serial r]
      exact (hnot r ((hused r).mpr (.inl rfl))).symm
    rw [labels.acquired, fresh.acquired] at hk
    rw [fresh.serial] at hne
    rw [fresh.serial, Function.update_of_ne hne]
    by_cases hold : (r : ℕ) < s.memory.used ∧ s.memory.serial r = k
    · -- the operation that the slot belonged to was recycled
      obtain ⟨hr, rfl⟩ := hold
      rw [lives.slots r hr]
      simp [life, fresh.idle hr]
    · refine lives.past k (by omega) fun x hx heq => ?_
      by_cases hxr : x = r
      · subst hxr
        exact hold ⟨hx, heq⟩
      · exact hnot x ((hused x).mpr (.inr hx)) ((hserial x hxr).trans heq)
  · intro k hk
    rw [labels.acquired, fresh.acquired] at hk
    rw [fresh.serial, Function.update_of_ne (by omega)]
    exact lives.unborn k (by omega)

theorem life_held (accounted : Accounted s) {r : SlotId} (held : s.count r ≠ 0) :
    (r : ℕ) < s.memory.used ∧ (s.life r).disposed = false := by
  have hr : (r : ℕ) < s.memory.used := audit_used accounted.audit (.inl (by omega))
  have hplace := accounted.audit.place hr
  rw [if_neg held] at hplace
  exact ⟨hr, by simp [life, hplace]⟩

theorem life_disposing (accounted : Accounted s) {r : SlotId} (disposing : 0 < s.disposals r) :
    (r : ℕ) < s.memory.used ∧ s.disposals r = 1 ∧ s.memory.free.count r = 0 := by
  have hr := audit_used accounted.audit (.inr disposing)
  have hplace := accounted.audit.place hr
  split_ifs at hplace <;> omega

theorem count_of_slot {old rest : List Frame} (hstack : s.threads[i]? = some (old ++ rest))
    {f : Frame} (hf : f ∈ old) {r : SlotId} (slot : f.slot = some r) : s.count r ≠ 0 := by
  have hle := Stacks.weight_le_total (Frame.holds r) (List.mem_of_getElem? hstack)
  have hone := Stacks.le_weight (Frame.holds r) (List.mem_append_left rest hf)
  simp only [Frame.holds, slot, if_true] at hone
  simp only [count]
  omega

theorem count_of_block {r : SlotId} {a : BlockId} (block : (s.memory.slots r).block = some a) :
    s.count r ≠ 0 := by
  simp only [count, Memory.kept, block, Option.isSome_some, if_true]
  omega

theorem count_of_touched {old rest : List Frame} (hstack : s.threads[i]? = some (old ++ rest))
    {r : SlotId} (touched : Touched s.memory old r) : s.count r ≠ 0 := by
  cases touched with
  | frame mem slot => exact count_of_slot hstack mem slot
  | queued mem =>
    have hle := QueuePool.le_weigh (Task.holds r) mem
    simp only [Task.holds_held, if_true] at hle
    simp only [AsyncThreads.count, Memory.kept]
    omega
  | found block => exact count_of_block block

theorem life_retired (accounted : Accounted s) {r : SlotId} (hr : (r : ℕ) < s.memory.used) :
    (s.life r).retired = !(s.memory.slots r).block.isSome := by
  have hflag := accounted.audit.sound.retired r hr
  change (s.memory.slots r).retired = _
  cases hblock : (s.memory.slots r).block.isSome with
  | true => exact hflag.mpr hblock
  | false =>
    by_contra hnot
    rw [hflag.mp (by simpa using hnot)] at hblock
    cases hblock

theorem course_one {l l' : Life} {e : Event} (allowed : l.allows e = true) (after : l.after e = l') :
    Life.protocol.course l [e] = some l' := by
  have hnext : Life.protocol.next l e = some (l.after e) := if_pos allowed
  rw [Protocol.course_cons, hnext, Option.bind_some, Protocol.course_nil, after]

theorem Lives.advance (lives : Lives s w) (serials : Serials tr s) {r : SlotId}
    (hr : (r : ℕ) < s.memory.used) (labels : SameLabels s.memory s'.memory)
    (others : ∀ x, x ≠ r → s'.life x = s.life x)
    (about : ∀ e ∈ ev, e.serial = some (s.memory.serial r))
    (course : Life.protocol.course (s.life r) ev = some (s'.life r)) :
    ∃ w', Life.protocol.run w ev = some w' ∧ Lives s' w' := by
  refine ⟨_, Protocol.run_single _ about ?_, lives.moved serials hr labels others⟩
  rw [lives.slots r hr]
  exact course

theorem life_began (accounted : Accounted s) {a : BlockId} {q : QueueId} {r : SlotId}
    {id : Option ℕ} {o : Option Op} {provider : Option ℕ} {context : ℕ}
    (began : Began s.memory a q r s'.memory id o provider context)
    (disposals : ∀ x, s'.disposals x = s.disposals x) :
    s'.life r = { begun := true } ∧ ∀ x, x ≠ r → s'.life x = s.life x := by
  have hfresh := accounted.audit.sound.began_fresh began
  constructor
  · have hidle : s'.disposals r = 0 := by
      obtain ⟨qs, acquired, -, hacquire, -⟩ := began
      rw [disposals]
      exact (accounted.audit.sound.picked_idle (Memory.acquire_some hacquire)).2
    simp [life, began_completed began, hfresh.retired, hfresh.taken, hidle]
  · intro x hx
    refine life_congr ?_ ?_ (hfresh.free x hx) (disposals x) <;> rw [hfresh.others x hx]

variable (s') in
theorem Lives.begin (lives : Lives s w) (serials : Serials tr s) (accounted : Accounted s)
    {a : BlockId} {q : QueueId} {r : SlotId} {id : Option ℕ} {o : Option Op} {provider : Option ℕ}
    {context : ℕ} (began : Began s.memory a q r s'.memory id o provider context)
    (disposals : ∀ x, s'.disposals x = s.disposals x) (provided : Bool)
    (ps : Option PortId × Option PortId) :
    ∃ w', Life.protocol.run w [.begun (s'.memory.serial r) a provided ps] = some w' ∧
      Lives s' w' ∧ Serials (tr ++ [.begun (s'.memory.serial r) a provided ps]) s' := by
  have hfresh := accounted.audit.sound.began_fresh began
  obtain ⟨hlife, hothers⟩ := life_began accounted began disposals
  refine ⟨_, Protocol.run_single _ (k := s'.memory.serial r) (x := s'.life r) ?_ ?_,
    lives.handOut serials hfresh (.refl _) hothers, ?_⟩
  · intro e he
    rw [List.mem_singleton.mp he]
    rfl
  · rw [lives.unborn _ hfresh.serial.ge, hlife]
    exact course_one rfl rfl
  · refine serials.handOut s' hfresh ?_ (.refl _) rfl disposals (by simp) (by simp)
    obtain ⟨qs, acquired, -, hacquire, -⟩ := began
    exact (accounted.audit.sound.picked_idle (Memory.acquire_some hacquire)).2

theorem Lives.clean (lives : Lives s w) (serials : Serials tr s) (accounted : Accounted s)
    {r : SlotId} (disposing : 0 < s.disposals r) (memory : s'.memory = s.memory)
    (disposals : ∀ x, s'.disposals x = s.disposals x) :
    ∃ w', Life.protocol.run w [.provider (s.memory.serial r) .cleanup none] = some w' ∧
      Lives s' w' := by
  obtain ⟨hused, hone, hfree⟩ := life_disposing accounted disposing
  have hlives := fun x => life_of_same (x := x) (memory ▸ .refl s.memory) (disposals x)
  refine lives.advance serials hused (memory ▸ .refl _) (fun x _ => hlives x)
    (by simp [Event.serial]) (course_one ?_ (hlives r).symm)
  simp [Life.allows, life, hone, hfree]

theorem Lives.finish (lives : Lives s w) (serials : Serials tr s) (accounted : Accounted s)
    {r : SlotId} (held : s.count r ≠ 0) (first : (s.memory.slots r).completed = false)
    (hr : HResult) {size : ℕ} (memory : s'.memory = s.memory.complete r hr size)
    (disposals : ∀ x, s'.disposals x = s.disposals x) :
    ∃ w', Life.protocol.run w [.finished (s.memory.serial r) hr] = some w' ∧ Lives s' w' := by
  obtain ⟨hused, hdisposed⟩ := life_held accounted held
  have hfinished : (s.life r).finished = false := first
  refine lives.advance serials hused (memory ▸ sameLabels_complete _ _ _ _) ?_
    (by simp [Event.serial]) (course_one (by simp [Life.allows, hdisposed, hfinished]) ?_)
  · intro x hx
    refine life_congr ?_ ?_ ?_ (disposals x) <;> rw [memory]
    · simp [complete_slots, hx]
    · simp [complete_slots, hx]
    · rfl
  · simp only [Life.after, life, memory, disposals, complete_slots, Function.update_self]
    rfl

theorem Lives.retire (lives : Lives s w) (serials : Serials tr s) {r : SlotId}
    (hused : (r : ℕ) < s.memory.used) (live : (s.memory.slots r).retired = false)
    (memory : s'.memory = s.memory.retireSlot r)
    (disposals : ∀ x, s'.disposals x = s.disposals x) :
    ∃ w', Life.protocol.run w [.retired (s.memory.serial r)] = some w' ∧ Lives s' w' := by
  have hretired : (s.life r).retired = false := live
  refine lives.advance serials hused (memory ▸ sameLabels_retireSlot _ _) ?_
    (by simp [Event.serial]) (course_one (by simp [Life.allows, hretired]) ?_)
  · intro x hx
    refine life_congr ?_ ?_ ?_ (disposals x) <;> rw [memory]
    · simp [retireSlot_slots, hx]
    · simp [retireSlot_slots, hx]
    · rw [retireSlot_free]
  · simp only [Life.after, life, memory, disposals, retireSlot_slots, retireSlot_free,
      Function.update_self]

/-- The last hold on slot `r` is let go: that of the block went before. -/
theorem Lives.letGo (lives : Lives s w) (serials : Serials tr s) (accounted : Accounted s)
    {r : SlotId} (held : 0 < Stacks.total (Frame.holds r) s.threads)
    (last : holdsOf (s.memory.slots r).state = 1) (memory : s'.memory = s.memory.drop r)
    (disposals : ∀ x, s'.disposals x = s.disposals x + if r = x then 1 else 0) :
    ∃ w', Life.protocol.run w [.disposed (s.memory.serial r)] = some w' ∧ Lives s' w' := by
  have hcount : s.count r ≠ 0 := by
    simp only [count]
    omega
  obtain ⟨hused, hdisposed⟩ := life_held accounted hcount
  have hretired : (s.life r).retired = true := by
    have hword := accounted.audit.sound.holdsOf_state r
    have hbound := accounted.audit.sound.bound r
    have hflag := accounted.audit.sound.retired r hused
    by_contra hnot
    have hblock := hflag.mp (by simpa [life] using hnot)
    simp only [Memory.kept, hblock, if_true] at hword hbound
    omega
  have hslots : s'.memory.slots = Function.update s.memory.slots r
      { s.memory.slots r with state := subHold (s.memory.slots r).state } := by
    rw [memory]
    rfl
  have hfree : s'.memory.free = s.memory.free := by
    rw [memory]
    rfl
  refine lives.advance serials hused (memory ▸ sameLabels_drop _ _) ?_
    (by simp [Event.serial]) (course_one (by simp [Life.allows, hdisposed, hretired]) ?_)
  · intro x hx
    refine life_congr ?_ ?_ (by rw [hfree]) ?_
    · simp [hslots, hx]
    · simp [hslots, hx]
    · rw [disposals, if_neg (Ne.symm hx), Nat.add_zero]
  · simp only [Life.after, life, hslots, hfree, disposals, Function.update_self, if_true]
    simp

/-- The disposal of slot `r` ends, and the slot is free. -/
theorem Lives.putBack (lives : Lives s w) (serials : Serials tr s) (accounted : Accounted s)
    {r : SlotId} (disposing : 0 < s.disposals r) (memory : s'.memory = s.memory.recycle r)
    (disposals : ∀ x, s.disposals x = s'.disposals x + if r = x then 1 else 0) :
    ∃ w', Life.protocol.run w [.recycled (s.memory.serial r)] = some w' ∧ Lives s' w' := by
  obtain ⟨hused, hone, hfree⟩ := life_disposing accounted disposing
  have hslots : s'.memory.slots = Function.update s.memory.slots r
      { s.memory.slots r with state := 0, token := 0 } := by
    rw [memory]
    rfl
  have hfree' : s'.memory.free = r :: s.memory.free := by
    rw [memory]
    rfl
  refine lives.advance serials hused (memory ▸ sameLabels_recycle _ _) ?_
    (by simp [Event.serial]) (course_one (by simp [Life.allows, life, hone, hfree]) ?_)
  · intro x hx
    refine life_congr ?_ ?_ ?_ ?_
    · simp [hslots, hx]
    · simp [hslots, hx]
    · rw [hfree', List.count_cons_of_ne (Ne.symm hx)]
    · rw [disposals x, if_neg (Ne.symm hx), Nat.add_zero]
  · simp [Life.after, life, hslots, hfree', hone, hfree]

/-- Every step is one that the world accepts. -/
theorem Lives.step (lives : Lives s w) (serials : Serials tr s) (accounted : Accounted s)
    (succeed : BeginsSucceed s (i, c)) (h : step .whole s (i, c) = some (s', ev)) :
    ∃ w', Life.protocol.run w ev = some w' ∧ Lives s' w' := by
  rcases step_cases h with ⟨fault, rfl, rfl⟩ | ⟨old, rest, new, n, hstack, heffect, -, rfl⟩
  · refine ⟨w, Protocol.run_silent _ ?_ w, lives.still (.refl _) fun _ => rfl⟩
    intro e he
    rw [List.mem_singleton.mp he]
    rfl
  have hmem := List.mem_of_getElem? hstack
  have hmoved : ∀ x, Stacks.weight (Frame.disposes x) old ≤ s.disposals x ∧
      disposals { s with memory := n, threads := s.threads.set i (new ++ rest) } x =
        s.disposals x - Stacks.weight (Frame.disposes x) old +
          Stacks.weight (Frame.disposes x) new := fun x => total_moved _ new hstack
  have hsame : (∀ x, Stacks.weight (Frame.disposes x) new = Stacks.weight (Frame.disposes x) old) →
      ∀ x, disposals { s with memory := n, threads := s.threads.set i (new ++ rest) } x =
        s.disposals x := by
    intro heq x
    have hx := hmoved x
    rw [heq x] at hx
    omega
  have hlife : LifeEffect s.memory old n new ev := by
    refine heffect.lives ?_ ?_ ?_
    · exact fun f hf => accounted.whole _ hmem f (List.mem_append_left _ hf)
    · exact fun a r hfind => (accounted.audit.sound.find_linked hfind).1
    · intro r b hr hbeginning hanswer hfails
      rw [hbeginning] at hstack
      exact succeed rest r b hr hstack hanswer hfails
  cases hlife with
  | notes touched same disposals events =>
    rename_i r
    have hheld := count_of_touched hstack touched
    obtain ⟨hr, hdisposed⟩ := life_held accounted hheld
    have hlives := fun x => life_of_same (x := x) same (hsame disposals x)
    have hallowed := fun e he =>
      Event.notes_allowed (life_begun r) hdisposed (life_retired accounted hr) (events e he)
    refine lives.advance serials hr same.toSameLabels (fun x _ => hlives x)
      (fun e he => (hallowed e he).1) ?_
    rw [hlives r]
    exact Protocol.course_still _ fun e he => (hallowed e he).2
  | silent same disposals events =>
    exact ⟨w, Protocol.run_silent _ events w, lives.still same.toSameLabels fun x =>
      life_of_same same (hsame disposals x)⟩
  | @cleans r x =>
    have hdisposing : 0 < s.disposals r := by
      have hle := (hmoved r).1
      simp [Frame.disposes, Frame.disposing] at hle
      omega
    exact lives.clean serials accounted hdisposing rfl (hsame fun _ => rfl)
  | @finishes r hr size next _ first disposals =>
    have hslot : (Frame.finish r hr size next).slot = some r := rfl
    exact lives.finish serials accounted (count_of_slot hstack List.mem_cons_self hslot) first hr rfl
      (hsame (disposals_of_slot hslot disposals))
  | retires holds live disposals =>
    obtain ⟨f, hf, hr⟩ := holds
    have hused := frame_used accounted.audit hmem (List.mem_append_left _ hf) hr
    exact lives.retire serials hused live rfl (hsame disposals)
  | @disposed r owner last =>
    have hle := Stacks.weight_le_total (Frame.holds r) hmem
    refine lives.letGo serials accounted ?_ last rfl ?_
    · simp [Frame.holds, Frame.slot] at hle
      omega
    · intro x
      rw [(hmoved x).2]
      simp [Frame.disposes, Frame.disposing]
  | @recycled r =>
    refine lives.putBack serials accounted ?_ rfl ?_
    · have hle := (hmoved r).1
      simp [Frame.disposes, Frame.disposing] at hle
      omega
    · intro x
      have hx := hmoved x
      simp [Frame.disposes, Frame.disposing] at hx ⊢
      omega
  | @began a q r n₀ id o provider context _ _ provided ps ev' began same disposals events =>
    -- the slot is handed out first, and what the step notes besides is of the new operation
    let s₀ : AsyncThreads Op := { s with memory := n₀, threads := s.threads.set i (new ++ rest) }
    have hnone : ∀ x, s₀.disposals x = s.disposals x := hsame disposals
    obtain ⟨w₀, hrun, hlives, hserials⟩ := lives.begin s₀ serials accounted began hnone provided ps
    have hlife : s₀.life r = { begun := true } := (life_began accounted began hnone).1
    have hr : (r : ℕ) < s₀.memory.used :=
      ((accounted.audit.sound.began_fresh began).used r).mpr (.inl rfl)
    let s₁ : AsyncThreads Op := { s with memory := n, threads := s.threads.set i (new ++ rest) }
    have hthen : ∀ x, s₁.life x = s₀.life x := fun x => life_of_same same rfl
    have hallowed := fun e he => Event.notes_allowed (l := s₀.life r) (by rw [hlife])
      (by rw [hlife]) (by rw [hlife, began_block began]; rfl) (events e he)
    obtain ⟨w', hrun', hlives'⟩ := hlives.advance hserials hr same.toSameLabels
      (fun x _ => hthen x) (fun e he => (hallowed e he).1)
      ((Protocol.course_still _ fun e he => (hallowed e he).2).trans (by rw [hthen r]))
    refine ⟨w', ?_, hlives'⟩
    rw [← List.singleton_append, Protocol.run_append, hrun, Option.bind_some]
    exact hrun'
  | @refused a q r n₀ id o provider context _ provided ps began disposals =>
    let s₀ : AsyncThreads Op := { s with memory := n₀, threads := s.threads.set i (new ++ rest) }
    have hnone : ∀ x, s₀.disposals x = s.disposals x := hsame disposals
    obtain ⟨w₀, hrun, hlives, hserials⟩ := lives.begin s₀ serials accounted began hnone provided ps
    have hfresh := accounted.audit.sound.began_fresh began
    let s₁ : AsyncThreads Op := { s with
      memory := n₀.retireSlot r, threads := s.threads.set i (new ++ rest) }
    have hretire : ∃ w', Life.protocol.run w₀ [.retired (s₀.memory.serial r)] = some w' ∧
        Lives s₁ w' :=
      hlives.retire hserials ((hfresh.used r).mpr (.inl rfl)) hfresh.retired rfl fun _ => rfl
    obtain ⟨w', hrun', hlives'⟩ := hretire
    refine ⟨w', ?_, hlives'⟩
    rw [← List.singleton_append, Protocol.run_append, hrun, Option.bind_some]
    exact hrun'

/-- In every run in which no provider fails to begin, what happens to an operation follows its life
cycle, whatever the threads do in between: it is begun once, and from then on it may be found until it is
retired, and worked on until it is disposed of; it is finished at most once, retired once, after that
disposed of once, and then recycled. Its provider is called with the block until it is retired and with
none after that, and for the cleanup only while it is disposed of. As far as an operation has come, so
far its slot says that it has. -/
theorem life_cycles {threads : ℕ}
    (h : Reaches (step .whole) BeginsSucceed (start threads) tr s) :
    ∃ w : ℕ → Life, (∀ k, Life.protocol.course {} (Life.protocol.share k tr) = some (w k)) ∧
      Lives s w := by
  have hrun : Accounted s ∧ Serials tr s ∧
      ∃ w, Life.protocol.run (fun _ => {}) tr = some w ∧ Lives s w := by
    refine h.invariant (P := fun tr s => Accounted s ∧ Serials tr s ∧
      ∃ w, Life.protocol.run (fun _ => {}) tr = some w ∧ Lives s w)
      ⟨accounted_start threads, serials_start threads, _, rfl, lives_start threads⟩ ?_
    rintro tr s ⟨i, c⟩ t ev ⟨haccounted, hserials, w, hrun, hlives⟩ hsucceed hstep
    obtain ⟨w', hrun', hlives'⟩ := hlives.step hserials haccounted hsucceed hstep
    refine ⟨haccounted.step hstep, hserials.step haccounted.audit (haccounted.ready i c) hstep, w',
      ?_, hlives'⟩
    rw [Protocol.run_append, hrun, Option.bind_some]
    exact hrun'
  obtain ⟨-, -, w, hrun, hlives⟩ := hrun
  exact ⟨w, (Protocol.run_eq_some_iff _ _ _ _).mp hrun, hlives⟩

section Run

theorem providerCanceled_course :
    (execute (step .whole) (start 1) (beginProvider ++ providerCanceled)).map
      (fun last => Life.protocol.course {} (Life.protocol.share 0 last.2)) =
        some (some ⟨true, true, true, true, true⟩) := by
  decide

/-- An operation that is canceled goes through the whole of its life. -/
theorem life_cycles_canceled :
    ∃ (s : AsyncThreads Unit) (tr : List Event) (w : ℕ → Life),
      Reaches (step .whole) BeginsSucceed (start 1) tr s ∧ Lives s w ∧
        w 0 = ⟨true, true, true, true, true⟩ := by
  obtain ⟨⟨s, tr⟩, hrun, htr⟩ := Option.map_eq_some_iff.mp providerCanceled_course
  have h : Reaches (step .whole) BeginsSucceed (start 1) tr s :=
    reaches_of_execute _ hrun (by decide)
  obtain ⟨w, hcourse, hlives⟩ := life_cycles h
  rw [hcourse 0, Option.some.injEq] at htr
  exact ⟨s, tr, w, h, hlives, htr⟩

end Run

end AsyncThreads

end IW4x.Gdk
