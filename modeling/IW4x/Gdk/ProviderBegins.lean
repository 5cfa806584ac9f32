import IW4x.Lib.Notes
import IW4x.Gdk.Providers
import IW4x.Gdk.Retirement

/-!
# The slot under `provider_begin`

`provider_begin` has no hold of its own while the provider runs. It works on the slot that `acquire`
gave it, and the hold of the block keeps that slot until the operation is retired. So a `begin` call
that fails finds its slot again unless the operation was retired meanwhile and nothing else held it.

Notes are taken of the events so far and of the operation that each activation of `provider_begin` has
begun, as the slot does not tell once it is handed out again.
-/

namespace IW4x.Gdk

open Runs

variable {Op : Type}

/-- The slot that `provider_begin` is about to read, after its provider has failed. -/
def Frame.touches : Choice Op → Frame → Option SlotId
  | .answer (.code hr), .beginning r _ => if failed hr then some r else none
  | .go _, .dropping r _ _ => some r
  | _, _ => none

/-- `provider_begin` is about to retire its slot. -/
def Frame.drops : Frame → Bool
  | .dropping .. => true
  | _ => false

theorem Frame.begins_of_touches {c : Choice Op} {f : Frame} {r : SlotId}
    (h : f.touches c = some r) : f.begins = some r := by
  cases c with
  | call x e => cases h
  | answer a =>
    cases a <;> cases f <;> simp [touches] at h
    simp [begins, h.2]
  | go e =>
    cases f <;> simp [touches] at h
    simp [begins, h]

/-- What is written down of a run: its events, and for every thread the operations of its activations
of `provider_begin`, the last one first. -/
structure BeginNotes where
  past : List Event
  begun : ℕ → List ℕ

namespace AsyncThreads

/-- The slots of the thread's activations of `provider_begin`, the last one first. -/
def beginning (s : AsyncThreads Op) (i : ℕ) : List SlotId :=
  ((s.threads[i]?).getD []).filterMap Frame.begins

/-- A new activation has begun the operation of its slot, and one that is gone is forgotten. -/
def follow (before after : List SlotId) (serial : SlotId → ℕ) (ks : List ℕ) : List ℕ :=
  if after.length < before.length then ks.tail
  else if before.length < after.length then (after.head?.map serial).toList ++ ks
  else ks

def noteBegins (s : AsyncThreads Op) (input : ℕ × Choice Op) (t : AsyncThreads Op) (ev : List Event)
    (notes : BeginNotes) : BeginNotes where
  past := notes.past ++ ev
  begun := Function.update notes.begun input.1
    (follow (s.beginning input.1) (t.beginning input.1) t.memory.serial (notes.begun input.1))

def beginStep : Step (Noted (AsyncThreads Op) BeginNotes) (ℕ × Choice Op) Event :=
  noting (step .whole) noteBegins

def beginStart (threads : ℕ) : Noted (AsyncThreads Op) BeginNotes :=
  ⟨start threads, ⟨[], fun _ => []⟩⟩

/-- The holds on slot `r` other than that of its block: of the queued tasks, of the tasks that run and
of the calls that have found it. -/
def otherHolds (s : AsyncThreads Op) (r : SlotId) : ℕ :=
  s.memory.queues.weigh (Task.holds r) + Stacks.total (Frame.holds r) s.threads

/-- Where `provider_begin` reads the slot of operation `k`, the count of `k` has not been zero, the slot
is still that of `k`, and it has a provider; and once `provider_begin` has dropped the operation it was
retired exactly once. -/
def BeginsSafely (s : Noted (AsyncThreads Op) BeginNotes) (input : ℕ × Choice Op) : Prop :=
  ∀ f rest r, s.state.threads[input.1]? = some (f :: rest) → f.touches input.2 = some r →
    ∃ k, (s.notes.begun input.1).head? = some k ∧ .disposed k ∉ s.notes.past ∧
      s.state.memory.serial r = k ∧ (s.state.memory.slots r).provider.isSome = true ∧
      (f.drops = true → ∀ t ev, beginStep s input = some (t, ev) →
        t.notes.past.count (.retired k) = 1)

/-- Where `provider_begin` reads the slot of operation `k`, nobody has retired `k`, or a task or a call
still holds the slot of `k`. -/
def BeginsHeld (s : Noted (AsyncThreads Op) BeginNotes) (input : ℕ × Choice Op) : Prop :=
  ∀ f rest r, s.state.threads[input.1]? = some (f :: rest) → f.touches input.2 = some r →
    ∃ k, (s.notes.begun input.1).head? = some k ∧
      (.retired k ∉ s.notes.past ∨ s.state.memory.serial r = k ∧ 0 < s.state.otherHolds r)

end AsyncThreads

/-! ## The activations of `provider_begin` -/

theorem Memory.begins_settle (m : Memory Op) (r : SlotId) (b : BlockId) (q : Query) (reply : Reply) :
    (m.settle r b q reply).filterMap Frame.begins = [] := rfl

theorem Memory.begins_after (m : Memory Op) (r : SlotId) (next : Next) :
    (m.after r next).filterMap Frame.begins = [] := by
  cases next <;> rfl

theorem Task.begins_frames (t : Task) (canceled : Bool) :
    (t.frames canceled).filterMap Frame.begins = [] := by
  cases t <;> rfl

theorem begins_plain {fs : List Frame} (plain : ∀ f ∈ fs, f.plain) :
    fs.filterMap Frame.begins = [] :=
  List.filterMap_eq_nil_iff.mpr fun f hf => (plain f hf).2.1

section Effects

variable {g : Granularity} {m n : Memory Op} {c : Choice Op} {old new : List Frame}
  {ev : List Event}

/-- What a step does to the activations of `provider_begin` on top of the stack. -/
theorem Effect.beginning (effect : Effect g m c old n new ev) :
    new.filterMap Frame.begins = [] ∨ (∃ r, old.filterMap Frame.begins = [r] ∧
      new.filterMap Frame.begins = [r] ∧ n = m) ∨
    ∃ a q r id provider context ps ev', old = [] ∧ new = [.beginning r a] ∧
      Began m a q r n id none (some provider) context ∧ ev = .begun (n.serial r) a true ps :: ev' := by
  cases effect with
  | manage _ _ plain => exact .inl (begins_plain plain)
  | adjusts _ _ plain => exact .inl (begins_plain plain)
  | took _ plain =>
    left
    rw [List.filterMap_append, Task.begins_frames, begins_plain plain, List.append_nil]
  | @providerBegun a q r n id provider context began =>
    exact .inr (.inr ⟨a, q, r, id, provider, context, _, _, rfl, rfl, began, rfl⟩)
  | failsBegin => exact .inr (.inl ⟨_, rfl, rfl, rfl⟩)
  | cleanedFailed => exact .inr (.inl ⟨_, rfl, rfl, rfl⟩)
  | settles => exact .inl (Memory.begins_settle _ _ _ _ _)
  | proceeds _ slot' =>
    left
    rw [List.filterMap_cons_none (Frame.begins_of_slot slot'), List.filterMap_nil]
  | provides _ slot' =>
    left
    rw [List.filterMap_cons_none (Frame.begins_of_slot slot'), List.filterMap_nil]
  | finishesAgain => exact .inl (Memory.begins_after _ _ _)
  | finishes => exact .inl (Memory.begins_after _ _ _)
  | publishesNothing => exact .inl (Memory.begins_after _ _ _)
  | publishAccepted => exact .inl (Memory.begins_after _ _ _)
  | publishImmediate =>
    left
    rw [List.filterMap_cons_none rfl, Memory.begins_after]
  | _ => exact .inl rfl

/-- An operation is retired where its slot does not say that it is. -/
theorem Effect.retired_once (effect : Effect g m c old n new ev) {k : ℕ} :
    ev.count (.retired k) ≤ 1 ∧ (.retired k ∈ ev →
      (∃ f ∈ old, ∃ r, (f.slot = some r ∨ f.begins = some r) ∧ m.serial r = k ∧
        (m.slots r).retired = false) ∨ ∃ a p ps, .begun k a p ps ∈ ev) := by
  cases effect with
  | @drops r b hr live =>
    refine ⟨List.count_le_length, fun hmem => .inl ⟨_, List.mem_cons_self, r, .inr rfl, ?_, live⟩⟩
    simpa using (List.mem_singleton.mp hmem).symm
  | @retires r b q reply live =>
    refine ⟨List.count_le_length, fun hmem => .inl ⟨_, List.mem_cons_self, r, .inl rfl, ?_, live⟩⟩
    simpa using (List.mem_singleton.mp hmem).symm
  | @beginRefused a q r n₀ id o began =>
    refine ⟨?_, fun hmem => .inr ⟨a, false, (n₀.slots r).ports, ?_⟩⟩
    · rw [List.count_cons_of_ne (by simp)]
      exact List.count_le_length
    · have hk : k = n₀.serial r := by simpa using hmem
      rw [hk]
      exact List.mem_cons_self
  | @took _ ran p now t => cases t.item.callback <;> simp [Memory.ranEvents]
  | _ => simp

/-- What a step does to the providers: none, or one is taken out, or a slot is handed out. -/
theorem Effect.provider (effect : Effect g m c old n new ev) :
    (SameProviders m n ∧ ∀ k b ps, .begun k b true ps ∉ ev) ∨
    (∃ r, old = [.dispose r] ∧ n = m.strip r ∧ ev = []) ∨
    ∃ a q r n₀ id o provider context ps ev', Began m a q r n₀ id o provider context ∧
      SameProviders n₀ n ∧ ev = .begun (n.serial r) a provider.isSome ps :: ev' ∧
      ∀ k b ps, .begun k b true ps ∉ ev' := by
  have hnone : ∀ {ev : List Event}, (∀ k, ev.countP (Event.provides k) = 0) →
      ∀ k b ps, .begun k b true ps ∉ ev := by
    intro ev hcount k b ps hmem
    have hnot := List.countP_eq_zero.mp (hcount k) _ hmem
    simp [Event.provides] at hnot
  by_cases hfails : ∃ r b, old = [.beginning r b]
  · obtain ⟨r, b, hold⟩ := hfails
    left
    subst hold
    cases effect with
    | manage => exact ⟨sameProviders_withQueues _ _, by simp⟩
    | adjusts => exact ⟨sameProviders_withQueues _ _, by simp⟩
    | @took _ ran p now t =>
      refine ⟨sameProviders_withQueues _ _, ?_⟩
      cases t.item.callback <;> simp [Memory.ranEvents]
    | failsBegin => exact ⟨.refl _, by simp⟩
    | settles call => rcases call with h | ⟨h, -⟩ <;> cases h
    | proceeds slot => cases slot
    | provides slot => cases slot
  · have heffect := effect.providers fun r b _ hold _ _ => absurd ⟨r, b, hold⟩ hfails
    cases heffect with
    | quiet same _ _ _ begins => exact .inl ⟨same, hnone begins⟩
    | strips => exact .inr (.inl ⟨_, rfl, rfl, rfl⟩)
    | cleans => exact .inl ⟨.refl _, by simp⟩
    | @began a q r n₀ id o provider context _ _ provided ev' began same has _ _ _ _ begins =>
      subst has
      exact .inr (.inr ⟨a, q, r, n₀, id, o, provider, context, _, ev', began, same, rfl,
        hnone begins⟩)

end Effects

namespace AsyncThreads

variable {s s' : AsyncThreads Op} {i : ℕ} {c : Choice Op} {tr ev : List Event}

theorem beginning_of_stack {stack : List Frame} (hstack : s.threads[i]? = some stack) :
    s.beginning i = stack.filterMap Frame.begins := by
  rw [beginning, hstack, Option.getD_some]

theorem beginning_of_ne {j : ℕ} (hne : j ≠ i) (h : step .whole s (i, c) = some (s', ev)) :
    s'.beginning j = s.beginning j := by
  rcases step_cases h with ⟨fault, rfl, rfl⟩ | ⟨old, rest, new, n, hstack, -, -, rfl⟩
  · rfl
  · simp only [beginning, List.getElem?_set_ne (Ne.symm hne)]

/-- A thread goes on in its activations of `provider_begin`, leaves the last one or begins another
operation. -/
theorem beginning_step (accounted : Accounted s) (h : step .whole s (i, c) = some (s', ev)) :
    s'.beginning i = s.beginning i ∨ (∃ r, s.beginning i = r :: s'.beginning i) ∨
      ∃ r b ps, s'.beginning i = r :: s.beginning i ∧ (r : ℕ) < s'.memory.used ∧
        .begun (s'.memory.serial r) b true ps ∈ ev := by
  rcases step_top h with ⟨fault, rfl, rfl⟩ | ⟨old, rest, new, n, hstack, heffect, -, hold, rfl⟩
  · exact .inl rfl
  have hbefore := beginning_of_stack hstack
  obtain ⟨hlt, -⟩ := List.getElem?_eq_some_iff.mp hstack
  have hafter : beginning { s with memory := n, threads := s.threads.set i (new ++ rest) } i =
      (new ++ rest).filterMap Frame.begins := beginning_of_stack (by simp [hlt])
  rw [hbefore, hafter, List.filterMap_append, List.filterMap_append]
  rcases heffect.beginning with hnone | ⟨r, hr, hr', -⟩ |
    ⟨a, q, r, id, provider, context, ps, ev', rfl, rfl, began, rfl⟩
  · rw [hnone]
    rcases hold with rfl | ⟨f, rfl⟩
    · exact .inl rfl
    · cases hf : f.begins with
      | none => simp [hf]
      | some r => simp [hf]
  · rw [hr, hr']
    exact .inl rfl
  · refine .inr (.inr ⟨r, a, ps, rfl, ?_, List.mem_cons_self⟩)
    exact ((accounted.audit.sound.began_fresh began).used r).mpr (.inl rfl)

@[simp] theorem follow_same (slots : List SlotId) (serial : SlotId → ℕ) (ks : List ℕ) :
    follow slots slots serial ks = ks := by
  simp [follow]

@[simp] theorem follow_left (r : SlotId) (slots : List SlotId) (serial : SlotId → ℕ) (ks : List ℕ) :
    follow (r :: slots) slots serial ks = ks.tail := by
  simp [follow]

@[simp] theorem follow_begun (r : SlotId) (slots : List SlotId) (serial : SlotId → ℕ)
    (ks : List ℕ) : follow slots (r :: slots) serial ks = serial r :: ks := by
  simp [follow]

/-! ## A slot keeps its operation until it is disposed of -/

theorem count_pos (serials : Serials tr s) (accounted : Accounted s) {r : SlotId}
    (hr : (r : ℕ) < s.memory.used) (live : .disposed (s.memory.serial r) ∉ tr) : s.count r ≠ 0 := by
  intro hzero
  have hplace := accounted.audit.place hr
  rw [if_pos hzero, ← serials.disposed r hr, List.count_eq_zero.mpr live] at hplace
  cases hplace

theorem serial_kept (serials : Serials tr s) (accounted : Accounted s)
    (h : step .whole s (i, c) = some (s', ev)) {r : SlotId} (hr : (r : ℕ) < s.memory.used) :
    (r : ℕ) < s'.memory.used ∧
      (.disposed (s.memory.serial r) ∉ tr → s'.memory.serial r = s.memory.serial r) := by
  rcases step_cases h with ⟨fault, rfl, rfl⟩ | ⟨old, rest, new, n, hstack, heffect, -, rfl⟩
  · exact ⟨hr, fun _ => rfl⟩
  cases heffect.pool with
  | quiet labels => exact ⟨labels.used ▸ hr, fun _ => labels.serial r⟩
  | disposed =>
    have hlabels := sameLabels_drop s.memory (by assumption)
    exact ⟨hlabels.used ▸ hr, fun _ => hlabels.serial r⟩
  | recycled =>
    have hlabels := sameLabels_recycle s.memory (by assumption)
    exact ⟨hlabels.used ▸ hr, fun _ => hlabels.serial r⟩
  | @began a q x n₀ id o provider context _ _ provided ev' began labels =>
    have hfresh := accounted.audit.sound.began_fresh began
    refine ⟨labels.used ▸ (hfresh.used r).mpr (.inr hr), fun hlive => ?_⟩
    have hrx : r ≠ x := by
      rintro rfl
      obtain ⟨qs, acquired, -, hacquire, -⟩ := began
      exact count_pos serials accounted hr hlive
        (accounted.audit.sound.picked_idle (Memory.acquire_some hacquire)).1
    calc n.serial r = n₀.serial r := labels.serial r
      _ = s.memory.serial r := by simp only [Memory.serial, hfresh.others r hrx]

/-! ## Retired once, and before it is disposed of -/

/-- What else is known of the operations that were begun. -/
structure Begins (tr : List Event) (s : AsyncThreads Op) : Prop where
  provided : ∀ r : SlotId, (r : ℕ) < s.memory.used →
    (∃ b ps, .begun (s.memory.serial r) b true ps ∈ tr) → .disposed (s.memory.serial r) ∉ tr →
      (s.memory.slots r).provider.isSome = true
  retired : ∀ k, .disposed k ∈ tr → .retired k ∈ tr
  once : ∀ k, tr.count (.retired k) ≤ 1

/-- A slot with a provider keeps it until it is disposed of. -/
theorem Begins.provided_step (begins : Begins tr s) (serials : Serials tr s)
    (accounted : Accounted s) (h : step .whole s (i, c) = some (s', ev)) :
    ∀ r : SlotId, (r : ℕ) < s'.memory.used →
      (∃ b ps, .begun (s'.memory.serial r) b true ps ∈ tr ++ ev) →
        .disposed (s'.memory.serial r) ∉ tr ++ ev →
          (s'.memory.slots r).provider.isSome = true := by
  rintro r hr ⟨b, ps, hbegun⟩ hlive
  rcases step_cases h with ⟨fault, rfl, rfl⟩ | ⟨old, rest, new, n, hstack, heffect, -, rfl⟩
  · refine begins.provided r hr ⟨b, ps, ?_⟩ fun hmem => hlive (List.mem_append_left _ hmem)
    simpa using hbegun
  dsimp only at hr hbegun hlive ⊢
  rcases heffect.provider with ⟨hsame, hnone⟩ | ⟨x, rfl, rfl, rfl⟩ |
    ⟨a, q, x, n₀, id, o, provider, context, ps', ev', began, hsame, rfl, hnone⟩
  · rw [hsame.serial r] at hbegun hlive
    rw [hsame.provider r]
    refine begins.provided r (hsame.used ▸ hr) ⟨b, ps, ?_⟩ fun hmem =>
      hlive (List.mem_append_left _ hmem)
    exact (List.mem_append.mp hbegun).resolve_right (hnone _ _ _)
  · rw [(sameLabels_strip _ _).serial r, List.append_nil] at hbegun hlive
    have hrx : r ≠ x := by
      rintro rfl
      have hle := Stacks.weight_le_total (Frame.disposes r) (List.mem_of_getElem? hstack)
      have hcount := serials.disposed r hr
      rw [List.count_eq_zero.mpr hlive] at hcount
      simp [Frame.disposes, Frame.disposing] at hle
      simp only [disposals] at hcount
      omega
    have hkept := begins.provided r hr ⟨b, ps, hbegun⟩ hlive
    simpa [Memory.strip, hrx] using hkept
  · have hfresh := accounted.audit.sound.began_fresh began
    rw [hsame.provider r]
    rw [hsame.serial r] at hbegun hlive
    rw [hsame.serial x] at hbegun
    by_cases hrx : r = x
    · subst hrx
      rcases List.mem_append.mp hbegun with hbegun | hbegun
      · rw [hfresh.serial] at hbegun
        exact absurd hbegun (serials.unborn rfl (le_refl _))
      · rcases List.mem_cons.mp hbegun with heq | hbegun
        · rw [began_provider began]
          simpa using (Event.begun.inj heq).2.2.1.symm
        · exact absurd hbegun (hnone _ _ _)
    · have hr : (r : ℕ) < s.memory.used := ((hfresh.used r).mp (hsame.used ▸ hr)).resolve_left hrx
      have hserial : n₀.serial r = s.memory.serial r := by
        simp only [Memory.serial, hfresh.others r hrx]
      have hlt := serials.slots r hr
      rw [hserial] at hbegun hlive
      rw [hfresh.others r hrx]
      refine begins.provided r hr ⟨b, ps, ?_⟩ fun hmem => hlive (List.mem_append_left _ hmem)
      refine (List.mem_append.mp hbegun).resolve_right fun hmem => ?_
      rcases List.mem_cons.mp hmem with heq | hmem
      · have hk := (Event.begun.inj heq).1
        rw [hfresh.serial] at hk
        omega
      · exact hnone _ _ _ hmem

theorem retired_of_disposed (serials : Serials tr s) (accounted : Accounted s) (links : Links tr s)
    {r : SlotId} (hr : (r : ℕ) < s.memory.used) (disposed : .disposed (s.memory.serial r) ∈ tr) :
    .retired (s.memory.serial r) ∈ tr := by
  have hcount := serials.disposed r hr
  have hpos := List.count_pos_iff.mpr disposed
  have hplace := accounted.audit.place hr
  have hzero : s.count r = 0 := by
    by_contra hne
    rw [if_neg hne] at hplace
    omega
  refine (links.retired r hr).mp ?_
  have hretired := accounted.audit.sound.retired r hr
  cases hflag : (s.memory.slots r).retired with
  | true => rfl
  | false =>
    have hblock := hretired.mp hflag
    simp only [count, Memory.kept, hblock, if_true] at hzero
    omega

theorem Begins.step (begins : Begins tr s) (serials : Serials tr s) (accounted : Accounted s)
    (links : Links tr s) (h : step .whole s (i, c) = some (s', ev)) : Begins (tr ++ ev) s' := by
  have hserials := serials.step accounted.audit (accounted.ready i c) h
  have haccounted := accounted.step h
  have hlinks := links.step serials accounted h
  refine ⟨begins.provided_step serials accounted h, ?_, ?_⟩
  · intro k hdisposed
    rcases List.mem_append.mp hdisposed with hmem | hmem
    · exact List.mem_append_left _ (begins.retired k hmem)
    · rcases step_cases h with ⟨fault, rfl, rfl⟩ | ⟨old, rest, new, n, hstack, heffect, -, rfl⟩
      · simp at hmem
      · cases heffect.pool with
        | quiet _ _ _ events => exact absurd (events _ hmem) (by simp [Event.pool])
        | @disposed r owner last =>
          have hk : k = s.memory.serial r := by simpa using hmem
          have hserial := (sameLabels_drop s.memory r).serial r
          have hr := frame_used accounted.audit (List.mem_of_getElem? hstack)
            (f := .release r owner) (r := r) List.mem_cons_self (.inl rfl)
          have hretired := retired_of_disposed hserials haccounted hlinks (r := r) hr
          dsimp only at hretired
          rw [hserial, ← hk] at hretired
          rw [← hk] at hdisposed ⊢
          exact hretired hdisposed
        | recycled => simp at hmem
        | began _ _ _ _ events =>
          rcases List.mem_cons.mp hmem with heq | hmem
          · cases heq
          · exact absurd (events _ hmem) (by simp [Event.pool])
  · intro k
    rcases step_cases h with ⟨fault, rfl, rfl⟩ | ⟨old, rest, new, n, hstack, heffect, -, rfl⟩
    · simpa using begins.once k
    · obtain ⟨hone, hcause⟩ := heffect.retired_once (k := k)
      rw [List.count_append]
      by_cases hmem : .retired k ∈ ev
      · have hzero : tr.count (.retired k) = 0 := by
          rw [List.count_eq_zero]
          rcases hcause hmem with ⟨f, hf, r, hslot, rfl, hflag⟩ | ⟨a, p, ps, hbegun⟩
          · have hr := frame_used accounted.audit (List.mem_of_getElem? hstack)
              (List.mem_append_left _ hf) hslot
            rw [← links.retired r hr, hflag]
            simp
          · refine fun hretired => ?_
            have hk := serials.bounded _ hretired k rfl
            have hbefore := serials.begun k hk
            have hafter := hserials.begun k (hserials.bounded _
              (List.mem_append_left _ hretired) k rfl)
            have hpos : 0 < ev.countP (AsyncThreads.begins k) :=
              List.countP_pos_iff.mpr ⟨_, hbegun, by simp [AsyncThreads.begins]⟩
            rw [List.countP_append] at hafter
            omega
        omega
      · rw [List.count_eq_zero.mpr hmem]
        have := begins.once k
        omega

theorem begins_start (threads : ℕ) : Begins [] (start threads : AsyncThreads Op) where
  provided := fun r hr => by simp [start, Memory.start] at hr
  retired := fun k h => by cases h
  once := fun k => Nat.zero_le _

theorem reaches_begins {ok : AsyncThreads Op → ℕ × Choice Op → Prop} {threads : ℕ}
    (h : Reaches (AsyncThreads.step .whole) ok (start threads) tr s) :
    Accounted s ∧ Serials tr s ∧ Links tr s ∧ Begins tr s := by
  refine h.invariant (P := fun tr s => Accounted s ∧ Serials tr s ∧ Links tr s ∧ Begins tr s)
    ⟨accounted_start threads, serials_start threads, links_start threads, begins_start threads⟩ ?_
  rintro tr s ⟨i, c⟩ t ev ⟨haccounted, hserials, hlinks, hbegins⟩ - hstep
  exact ⟨haccounted.step hstep, hserials.step haccounted.audit (haccounted.ready i c) hstep,
    hlinks.step hserials haccounted hstep, hbegins.step hserials haccounted hlinks hstep⟩

/-! ## What the notes say -/

/-- An activation of `provider_begin` has begun operation `k` on slot `r`, and the slot is that of `k`
until `k` is disposed of. -/
structure BegunOn (past : List Event) (s : AsyncThreads Op) (r : SlotId) (k : ℕ) : Prop where
  used : (r : ℕ) < s.memory.used
  begun : ∃ b ps, .begun k b true ps ∈ past
  serial : .disposed k ∉ past → s.memory.serial r = k

theorem BegunOn.step {r : SlotId} {k : ℕ} (begun : BegunOn tr s r k) (serials : Serials tr s)
    (accounted : Accounted s) (h : step .whole s (i, c) = some (s', ev)) :
    BegunOn (tr ++ ev) s' r k := by
  obtain ⟨hused, hkept⟩ := serial_kept serials accounted h begun.used
  refine ⟨hused, ?_, fun hlive => ?_⟩
  · obtain ⟨b, ps, hbegun⟩ := begun.begun
    exact ⟨b, ps, List.mem_append_left _ hbegun⟩
  · have hlive : .disposed k ∉ tr := fun hmem => hlive (List.mem_append_left _ hmem)
    have hserial := begun.serial hlive
    rw [hkept (hserial.symm ▸ hlive), hserial]

/-- The notes are those of the run. -/
structure Follows (tr : List Event) (s : Noted (AsyncThreads Op) BeginNotes) : Prop where
  past : s.notes.past = tr
  begun : ∀ i, List.Forall₂ (BegunOn tr s.state) (s.state.beginning i) (s.notes.begun i)

theorem follows_start (threads : ℕ) :
    Follows [] (beginStart threads : Noted (AsyncThreads Op) BeginNotes) where
  past := rfl
  begun := by
    intro i
    have hnone : (start threads : AsyncThreads Op).beginning i = [] := by
      by_cases hi : i < threads <;> simp [beginning, start, hi]
    simp only [beginStart, hnone]
    exact .nil

theorem Follows.step {s s' : Noted (AsyncThreads Op) BeginNotes} (follows : Follows tr s)
    (serials : Serials tr s.state) (accounted : Accounted s.state)
    (h : beginStep s (i, c) = some (s', ev)) : Follows (tr ++ ev) s' := by
  obtain ⟨hstep, hnotes⟩ := noting_eq_some_iff.mp h
  have hall : ∀ {slots ks}, List.Forall₂ (BegunOn tr s.state) slots ks →
      List.Forall₂ (BegunOn (tr ++ ev) s'.state) slots ks := fun hslots =>
    hslots.imp fun r k hbegun => hbegun.step serials accounted hstep
  refine ⟨by rw [hnotes, ← follows.past]; rfl, fun j => ?_⟩
  have hbegun : s'.notes.begun = Function.update s.notes.begun i (follow (s.state.beginning i)
      (s'.state.beginning i) s'.state.memory.serial (s.notes.begun i)) := by
    rw [hnotes]
    rfl
  have hold := hall (follows.begun j)
  by_cases hj : j = i
  · subst hj
    rw [hbegun, Function.update_self]
    rcases beginning_step accounted hstep with hsame | ⟨r, hleft⟩ | ⟨r, b, ps, hnew, hused, hmem⟩
    · rw [hsame, follow_same]
      exact hold
    · rw [hleft] at hold ⊢
      rw [follow_left]
      cases hks : s.notes.begun j with
      | nil =>
        rw [hks] at hold
        cases hold
      | cons k ks =>
        rw [hks] at hold
        exact (List.forall₂_cons.mp hold).2
    · rw [hnew, follow_begun]
      exact .cons ⟨hused, ⟨b, ps, List.mem_append_right _ hmem⟩, fun _ => rfl⟩ hold
  · rw [hbegun, Function.update_of_ne hj, beginning_of_ne hj hstep]
    exact hold

theorem reaches_follows {ok : Noted (AsyncThreads Op) BeginNotes → ℕ × Choice Op → Prop}
    {s : Noted (AsyncThreads Op) BeginNotes} {threads : ℕ}
    (h : Reaches beginStep ok (beginStart threads) tr s) : Follows tr s := by
  have hboth : Accounted s.state ∧ Serials tr s.state ∧ Follows tr s := by
    refine h.invariant (P := fun tr s => Accounted s.state ∧ Serials tr s.state ∧ Follows tr s)
      ⟨accounted_start threads, serials_start threads, follows_start threads⟩ ?_
    rintro tr s ⟨i, c⟩ t ev ⟨haccounted, hserials, hfollows⟩ - hstep
    have hplain := (noting_eq_some_iff.mp hstep).1
    exact ⟨haccounted.step hplain, hserials.step haccounted.audit (haccounted.ready i c) hplain,
      hfollows.step hserials haccounted hstep⟩
  exact hboth.2.2

theorem Follows.head {s : Noted (AsyncThreads Op) BeginNotes} (follows : Follows tr s) {f : Frame}
    {rest : List Frame} {r : SlotId} (hstack : s.state.threads[i]? = some (f :: rest))
    (hbegins : f.begins = some r) :
    ∃ k, (s.notes.begun i).head? = some k ∧ BegunOn tr s.state r k := by
  have hslots := follows.begun i
  rw [beginning_of_stack hstack, List.filterMap_cons_some hbegins] at hslots
  cases hks : s.notes.begun i with
  | nil =>
    rw [hks] at hslots
    cases hslots
  | cons k ks =>
    rw [hks] at hslots
    exact ⟨k, rfl, (List.forall₂_cons.mp hslots).1⟩

/-- An operation was not disposed of if and only if it was not retired or something other than its
block holds its slot. -/
theorem undisposed_iff (serials : Serials tr s) (accounted : Accounted s) (links : Links tr s)
    (begins : Begins tr s) {r : SlotId} {k : ℕ} (begun : BegunOn tr s r k) :
    .disposed k ∉ tr ↔ .retired k ∉ tr ∨ s.memory.serial r = k ∧ 0 < s.otherHolds r := by
  constructor
  · intro hlive
    have hserial := begun.serial hlive
    have hcount := count_pos serials accounted begun.used (hserial.symm ▸ hlive)
    by_cases hother : 0 < s.otherHolds r
    · exact .inr ⟨hserial, hother⟩
    · left
      have hblock : (s.memory.slots r).block.isSome = true := by
        by_contra hnone
        simp only [count, Memory.kept, otherHolds, if_neg hnone] at hcount hother
        omega
      have hflag := (accounted.audit.sound.retired r begun.used).mpr hblock
      rw [← hserial, ← links.retired r begun.used, hflag]
      simp
  · rintro (hnot | ⟨hserial, hother⟩)
    · exact fun hdisposed => hnot (begins.retired k hdisposed)
    · intro hdisposed
      have hplace := accounted.audit.place begun.used
      have hcount := serials.disposed r begun.used
      have hpos := List.count_pos_iff.mpr hdisposed
      rw [hserial] at hcount
      rw [if_neg (by simp only [count, Memory.kept, otherHolds] at hother ⊢; omega)] at hplace
      omega

/-! ## When `provider_begin` is safe -/

theorem dropped_retired (links : Links tr s) {r : SlotId} (hr : (r : ℕ) < s.memory.used)
    {b : BlockId} {hr' : HResult} {rest : List Frame} {e : Env}
    (hstack : s.threads[i]? = some (.dropping r b hr' :: rest))
    (h : step .whole s (i, .go e) = some (s', ev)) :
    .retired (s.memory.serial r) ∈ tr ++ ev := by
  simp only [AsyncThreads.step, hstack, move, Memory.go] at h
  split at h
  · rename_i stack _ heq
    obtain rfl : .dropping r b hr' :: rest = stack := Option.some.inj heq
    cases hflag : (s.memory.slots r).retired with
    | true => exact List.mem_append_left _ ((links.retired r hr).mp hflag)
    | false =>
      simp only [hflag, Bool.false_eq_true, if_false, Option.map_some, Option.some.injEq,
        Prod.mk.injEq] at h
      rw [← h.2]
      exact List.mem_append_right _ List.mem_cons_self
  · cases h

theorem begins_safely_iff {s : Noted (AsyncThreads Op) BeginNotes} {threads : ℕ}
    (h : Reaches beginStep always (beginStart threads) tr s) (input : ℕ × Choice Op) :
    BeginsSafely s input ↔ BeginsHeld s input := by
  obtain ⟨i, c⟩ := input
  have hfollows := reaches_follows h
  obtain ⟨haccounted, hserials, hlinks, hbegins⟩ := reaches_begins h.forget
  refine forall_congr' fun f => forall_congr' fun rest => forall_congr' fun r =>
    forall_congr' fun hstack => forall_congr' fun htouches => ?_
  obtain ⟨k, hk, hbegun⟩ := hfollows.head hstack (f.begins_of_touches htouches)
  have hiff := undisposed_iff hserials haccounted hlinks hbegins hbegun
  constructor
  · rintro ⟨k', hk', hlive, -⟩
    obtain rfl : k = k' := by simpa [hk] using hk'
    rw [hfollows.past] at hlive ⊢
    exact ⟨k, hk, hiff.mp hlive⟩
  · rintro ⟨k', hk', hheld⟩
    obtain rfl : k = k' := by simpa [hk] using hk'
    rw [hfollows.past] at hheld ⊢
    have hlive := hiff.mpr hheld
    have hserial := hbegun.serial hlive
    refine ⟨k, hk, hlive, hserial, ?_, ?_⟩
    · exact hbegins.provided r hbegun.used (hserial.symm ▸ hbegun.begun) (hserial.symm ▸ hlive)
    · intro hdrops t ev hstep
      obtain ⟨hplain, hnotes⟩ := noting_eq_some_iff.mp hstep
      have hpast : t.notes.past = tr ++ ev := (hfollows.step hserials haccounted hstep).past
      have hretired : .retired k ∈ tr ++ ev := by
        cases f <;> simp only [Frame.drops, Bool.false_eq_true] at hdrops
        cases c <;> simp [Frame.touches] at htouches
        rw [htouches] at hstack
        rw [← hserial]
        exact dropped_retired hlinks hbegun.used hstack hplain
      have honce := (hbegins.step hserials haccounted hlinks hplain).once k
      have hpos := List.count_pos_iff.mpr hretired
      rw [hpast]
      omega

/-- In every run, `provider_begin` reads no slot whose count has been zero, calls for a cleanup only
where there is a provider and retires its own operation, once, if and only if at each of these steps
nobody has retired the operation or a task or a call still holds its slot. And an operation is disposed
of at most once, and was so when its slot is back in the pool. -/
theorem begins_safely_along_iff {threads : ℕ} (calls : List (ℕ × Choice Op)) :
    (Along beginStep BeginsSafely (beginStart threads : Noted (AsyncThreads Op) BeginNotes) calls ↔
      Along beginStep BeginsHeld (beginStart threads) calls) ∧
    ∀ (s : Noted (AsyncThreads Op) BeginNotes) tr,
      execute beginStep (beginStart threads) calls = some (s, tr) →
        ∀ k, tr.count (.disposed k) ≤ 1 ∧ (.recycled k ∈ tr → tr.count (.disposed k) = 1) := by
  refine ⟨along_congr (fun tr s input hreach => begins_safely_iff hreach input) calls, ?_⟩
  intro s tr hrun k
  obtain ⟨haccounted, hserials, -, -⟩ := reaches_begins (reaches_of_run hrun).forget
  by_cases hk : k < s.state.memory.acquired
  · by_cases hslot : ∃ r : SlotId, (r : ℕ) < s.state.memory.used ∧ s.state.memory.serial r = k
    · obtain ⟨r, hr, rfl⟩ := hslot
      have hdisposed := hserials.disposed r hr
      have hrecycled := hserials.recycled r hr
      have hplace := haccounted.audit.place hr
      have hle : s.state.memory.free.count r + s.state.disposals r ≤ 1 := by
        rw [hplace]
        split <;> omega
      refine ⟨by omega, fun hmem => ?_⟩
      have hpos := List.count_pos_iff.mpr hmem
      omega
    · push Not at hslot
      have hpast := (hserials.past k hk hslot).1
      exact ⟨hpast.le, fun _ => hpast⟩
  · have hnone : ∀ e : Event, e.serial = some k → e ∉ tr := fun e he hmem =>
      hk (hserials.bounded e hmem k he)
    rw [List.count_eq_zero.mpr (hnone _ rfl)]
    exact ⟨Nat.zero_le _, fun hmem => absurd hmem (hnone _ rfl)⟩

/-- The provider cancels the operation while it begins. -/
def cancelsItself : List (ℕ × Choice Unit) :=
  beginProvider ++ [(0, .call (.query (some 0) .cancel) {}), (0, .go {}), (0, .go {}), (0, .go {}),
    (0, .go {}), (0, .go {}), (0, .go {}), (0, .go {}), (0, .go {}), (0, .answer (.code S_OK)),
    (0, .go {}), (0, .go {})]

theorem cancelsItself_end : (execute beginStep (beginStart 1) cancelsItself).map (fun last =>
    (last.1.state.threads, last.1.notes.begun 0, last.1.notes.past.contains (.disposed 0))) =
      some ([[.beginning 0 0]], [0], true) := by
  decide +kernel

/-- It is not so for a provider whose `begin` call cancels the operation and then fails: the slot has no
provider any more. -/
theorem begins_safely_fails :
    ¬ ∀ calls : List (ℕ × Choice Unit), Along beginStep BeginsSafely (beginStart 1) calls := by
  intro h
  obtain ⟨⟨last, tr⟩, hrun, hend⟩ := Option.map_eq_some_iff.mp cancelsItself_end
  simp only [Prod.mk.injEq, List.contains_iff_mem] at hend
  obtain ⟨hthreads, hbegun, hdisposed⟩ := hend
  have hsafe := (h (cancelsItself ++ [(0, .answer (.code E_FAIL))])).last hrun
  have hstack : last.state.threads[0]? = some [.beginning 0 0] := by rw [hthreads]; rfl
  obtain ⟨k, hk, hlive, -⟩ := hsafe (.beginning 0 0) [] 0 hstack (by decide)
  rw [hbegun] at hk
  obtain rfl : 0 = k := by simpa using hk
  exact hlive hdisposed

end AsyncThreads

end IW4x.Gdk
