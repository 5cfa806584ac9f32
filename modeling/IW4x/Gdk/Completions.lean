import IW4x.Lib.Notes
import IW4x.Gdk.Announcements

/-!
# The first completion wins

Whatever completes an operation comes to `finish`, and the first to come writes the status and the size
and sets the flag. Notes are taken of every attempt. The ledger says that a slot has what the first
attempt at its operation wrote, and that is what every call reads that finds the flag set.
-/

namespace IW4x.Gdk

open Runs

variable {Op : Type}

/-- An attempt to complete an operation: the arguments of `finish`. -/
structure Attempt where
  serial : ℕ
  status : HResult
  size : ℕ
  deriving DecidableEq

/-- The activation is about to enter the critical section of `finish`. -/
def Frame.attempt (m : Memory Op) : Frame → Option Attempt
  | .finish r hr size _ => some ⟨m.serial r, hr, size⟩
  | _ => none

/-- The first attempt at operation `k`. -/
def firstAttempt (attempts : List Attempt) (k : ℕ) : Option Attempt :=
  attempts.find? fun a => a.serial = k

/-- The status that the event says was written for operation `k`. -/
def Event.written (k : ℕ) : Event → Option HResult
  | .finished k' hr => if k' = k then some hr else none
  | _ => none

/-- The call reads the outcome of an operation and leaves it alone. -/
def Query.observes : Query → Bool
  | .resultSize _ => true
  | .status _ => true
  | _ => false

/-- The answers that a call may give about an operation of which this was the first attempt. -/
def Observed (first : Option Attempt) : Query → Reply → Prop
  | .resultSize out, reply => out = false ∧ reply = .code E_INVALIDARG ∨ reply = .code pending ∨
      ∃ a, first = some a ∧ reply = .size a.status a.size
  | .status wait, reply => wait = false ∧ reply = .code pending ∨
      ∃ a, first = some a ∧ reply = .code a.status
  | _, _ => True

namespace AsyncThreads

/-- The attempt that the step makes. -/
def attempt (s : AsyncThreads Op) (input : ℕ × Choice Op) : Option Attempt :=
  match input.2, s.threads[input.1]? with
  | .go _, some (f :: _) => f.attempt s.memory
  | _, _ => none

def noteAttempts (s : AsyncThreads Op) (input : ℕ × Choice Op) (_ : AsyncThreads Op) (_ : List Event)
    (attempts : List Attempt) : List Attempt :=
  attempts ++ (s.attempt input).toList

def attemptStep : Step (Noted (AsyncThreads Op) (List Attempt)) (ℕ × Choice Op) Event :=
  noting (step .whole) noteAttempts

def attemptStart (threads : ℕ) : Noted (AsyncThreads Op) (List Attempt) := ⟨start threads, []⟩

end AsyncThreads

/-! ## What a step does to the outcome of an operation -/

/-- What `finish` writes. -/
def AsyncState.outcome (s : AsyncState Op) : Bool × HResult × ℕ := (s.completed, s.status, s.size)

/-- No slot was handed out, and no operation completed. -/
structure SameOutcomes (m n : Memory Op) : Prop extends SameLabels m n where
  outcome : ∀ r, (n.slots r).outcome = (m.slots r).outcome

theorem SameOutcomes.refl (m : Memory Op) : SameOutcomes m m := ⟨.refl m, fun _ => rfl⟩

theorem SameOutcomes.trans {m n o : Memory Op} (h : SameOutcomes m n) (h' : SameOutcomes n o) :
    SameOutcomes m o :=
  ⟨h.toSameLabels.trans h'.toSameLabels, fun r => (h'.outcome r).trans (h.outcome r)⟩

theorem sameOutcomes_setSlot {m : Memory Op} {r : SlotId} {s : AsyncState Op}
    (label : s.label = (m.slots r).label) (outcome : s.outcome = (m.slots r).outcome) :
    SameOutcomes m (m.setSlot r s) := by
  refine ⟨sameLabels_setSlot label, ?_⟩
  intro i
  by_cases hi : i = r
  · subst hi; simp [outcome]
  · simp [hi]

theorem sameOutcomes_hold (m : Memory Op) (r : SlotId) : SameOutcomes m (m.hold r) :=
  sameOutcomes_setSlot rfl rfl

theorem sameOutcomes_withQueues (m : Memory Op) (q : QueuePool Task) :
    SameOutcomes m (m.withQueues q) := ⟨sameLabels_withQueues m q, fun _ => rfl⟩

theorem sameOutcomes_drop (m : Memory Op) (r : SlotId) : SameOutcomes m (m.drop r) := by
  refine ⟨sameLabels_drop m r, ?_⟩
  intro i
  by_cases hi : i = r
  · subst hi; simp [Memory.drop, AsyncState.outcome]
  · simp [Memory.drop, hi]

theorem sameOutcomes_recycle (m : Memory Op) (r : SlotId) : SameOutcomes m (m.recycle r) := by
  refine ⟨sameLabels_recycle m r, ?_⟩
  intro i
  by_cases hi : i = r
  · subst hi; simp [Memory.recycle, AsyncState.outcome]
  · simp [Memory.recycle, hi]

theorem sameOutcomes_retireSlot (m : Memory Op) (r : SlotId) : SameOutcomes m (m.retireSlot r) := by
  refine ⟨sameLabels_retireSlot m r, ?_⟩
  intro i
  rw [retireSlot_slots]
  by_cases hi : i = r
  · subst hi; simp [AsyncState.outcome]
  · simp [hi]

theorem sameOutcomes_submit {m n : Memory Op} {alloc : Bool} {now delay : ℕ} {r : SlotId}
    {p : PortId} {f : Work} (sent : m.submit alloc now r p delay f = .accepted n) :
    SameOutcomes m n := by
  obtain ⟨t, -, rfl, -⟩ := Memory.submit_accepted sent
  exact (sameOutcomes_hold m r).trans (sameOutcomes_withQueues _ _)

theorem sameOutcomes_immediate {m n : Memory Op} {alloc : Bool} {now delay : ℕ} {r : SlotId}
    {p : PortId} {f : Work} (sent : m.submit alloc now r p delay f = .immediate n) :
    SameOutcomes m n := by
  obtain ⟨rfl, -⟩ := Memory.submit_immediate sent
  exact sameOutcomes_hold m r

/-- What a step means for the outcomes. -/
inductive OutcomeEffect (m : Memory Op) : List Frame → Memory Op → List Event → Prop
  | quiet {old n ev} (same : SameOutcomes m n) (events : ∀ k hr, .finished k hr ∉ ev) :
      OutcomeEffect m old n ev
  | finishes {r hr size next} (first : (m.slots r).completed = false) :
      OutcomeEffect m [.finish r hr size next] (m.complete r hr size) [.finished (m.serial r) hr]
  | began {a q r n₀ id o provider context n ev}
      (began : Began m a q r n₀ id o provider context) (same : SameOutcomes n₀ n)
      (events : ∀ k hr, .finished k hr ∉ ev) : OutcomeEffect m [] n ev

section Effects

variable {g : Granularity} {m n : Memory Op} {c : Choice Op} {old new : List Frame}
  {ev : List Event}

theorem Effect.outcome (effect : Effect g m c old n new ev) : OutcomeEffect m old n ev := by
  cases effect with
  | manage => exact .quiet (sameOutcomes_withQueues _ _) (by simp)
  | adjusts => exact .quiet (sameOutcomes_withQueues _ _) (by simp)
  | prepare => exact .quiet ⟨⟨rfl, rfl, fun _ => rfl⟩, fun _ => rfl⟩ (by simp)
  | @took _ ran p now t =>
    refine .quiet (sameOutcomes_withQueues _ _) ?_
    cases t.item.callback <;> simp [Memory.ranEvents]
  | beginAccepted began _ sent => exact .began began (sameOutcomes_submit sent) (by simp)
  | beginImmediate began _ sent => exact .began began (sameOutcomes_immediate sent) (by simp)
  | beginRefused began => exact .began began (sameOutcomes_retireSlot _ _) (by simp)
  | providerBegun began => exact .began began (.refl _) (by simp)
  | drops => exact .quiet (sameOutcomes_retireSlot _ _) (by simp)
  | finds => exact .quiet (sameOutcomes_hold _ _) (by simp)
  | swaps => exact .quiet (sameOutcomes_hold _ _) (by simp)
  | scheduleAccepted _ _ sent => exact .quiet (sameOutcomes_submit sent) (by simp)
  | scheduleImmediate _ _ sent => exact .quiet (sameOutcomes_immediate sent) (by simp)
  | finishes first => exact .finishes first
  | finishesBlock first => exact .finishes first
  | publishesNothing => exact .quiet (sameOutcomes_withQueues _ _) (by simp)
  | publishAccepted _ _ _ sent =>
    exact .quiet ((sameOutcomes_withQueues _ _).trans (sameOutcomes_submit sent)) (by simp)
  | publishImmediate _ _ _ sent =>
    exact .quiet ((sameOutcomes_withQueues _ _).trans (sameOutcomes_immediate sent)) (by simp)
  | retires => exact .quiet (sameOutcomes_retireSlot _ _) (by simp)
  | releases => exact .quiet (sameOutcomes_drop _ _) (by simp)
  | releasesLast => exact .quiet (sameOutcomes_drop _ _) (by simp)
  | destroys => exact .quiet (sameOutcomes_setSlot rfl rfl) (by simp)
  | destroysNothing => exact .quiet (sameOutcomes_setSlot rfl rfl) (by simp)
  | recycles => exact .quiet (sameOutcomes_recycle _ _) (by simp)
  | _ => exact .quiet (.refl _) (by simp)

end Effects

/-! ## The ledger of attempts -/

theorem firstAttempt_append (as bs : List Attempt) (k : ℕ) :
    firstAttempt (as ++ bs) k = (firstAttempt as k).or (firstAttempt bs k) :=
  List.find?_append

theorem firstAttempt_singleton (a : Attempt) (k : ℕ) :
    firstAttempt [a] k = if a.serial = k then some a else none := by
  by_cases hk : a.serial = k <;> simp [firstAttempt, hk]

theorem firstAttempt_again {as : List Attempt} {a : Attempt}
    (again : (firstAttempt as a.serial).isSome = true) (k : ℕ) :
    firstAttempt (as ++ [a]) k = firstAttempt as k := by
  rw [firstAttempt_append, firstAttempt_singleton]
  by_cases hk : a.serial = k
  · subst hk
    obtain ⟨b, hb⟩ := Option.isSome_iff_exists.mp again
    rw [hb, Option.some_or]
  · rw [if_neg hk, Option.or_none]

theorem firstAttempt_mono {as bs : List Attempt} {k : ℕ} {a : Attempt}
    (first : firstAttempt as k = some a) : firstAttempt (as ++ bs) k = some a := by
  rw [firstAttempt_append, first, Option.some_or]

theorem filterMap_written {ev : List Event} (events : ∀ k hr, .finished k hr ∉ ev) (k : ℕ) :
    ev.filterMap (Event.written k) = [] := by
  rw [List.filterMap_eq_nil_iff]
  intro e he
  cases e with
  | finished k' hr => exact absurd he (events k' hr)
  | _ => rfl

theorem began_completed {m n : Memory Op} {a : BlockId} {q : QueueId} {r : SlotId} {id : Option ℕ}
    {o : Option Op} {provider : Option ℕ} {context : ℕ}
    (began : Began m a q r n id o provider context) : (n.slots r).completed = false := by
  obtain ⟨qs, acquired, -, hacquire, rfl⟩ := began
  have hacquired := Memory.acquire_some hacquire
  simp [Memory.describe, hacquired.slots]

theorem complete_slots (m : Memory Op) (r : SlotId) (hr : HResult) (size : ℕ) :
    (m.complete r hr size).slots =
      Function.update m.slots r { m.slots r with status := hr, size := size, completed := true } :=
  rfl

namespace AsyncThreads

variable {s s' : AsyncThreads Op} {i : ℕ} {c : Choice Op} {tr ev : List Event}
  {attempts : List Attempt}

/-- The one step of `finish` in its critical section. -/
theorem finish_step {r : SlotId} {hr : HResult} {size : ℕ} {next : Next} {rest : List Frame}
    (hstack : s.threads[i]? = some (.finish r hr size next :: rest))
    (h : step .whole s (i, c) = some (s', ev)) :
    s.attempt (i, c) = some ⟨s.memory.serial r, hr, size⟩ ∧
      ((s.memory.slots r).completed = true ∧ s'.memory = s.memory ∧ ev = [] ∨
        (s.memory.slots r).completed = false ∧ s'.memory = s.memory.complete r hr size ∧
          ev = [.finished (s.memory.serial r) hr]) := by
  simp only [AsyncThreads.step, hstack] at h
  split at h
  · rename_i stack _ heq
    obtain rfl : .finish r hr size next :: rest = stack := Option.some.inj heq
    cases c with
    | call x e => simp [move, mayCall, Frame.outside] at h
    | answer a => simp [move, Memory.answer] at h
    | go e =>
      refine ⟨by simp [attempt, hstack, Frame.attempt], ?_⟩
      simp only [move, Memory.go] at h
      cases hcompleted : (s.memory.slots r).completed with
      | true =>
        simp only [hcompleted, if_true, Option.map_some, Option.some.injEq, Prod.mk.injEq] at h
        obtain ⟨rfl, rfl⟩ := h
        exact .inl ⟨rfl, rfl, rfl⟩
      | false =>
        right
        cases hblock : (s.memory.slots r).block <;>
          simp only [hcompleted, hblock, Bool.false_eq_true, if_false, Option.map_some,
            Option.some.injEq, Prod.mk.injEq] at h <;>
          obtain ⟨rfl, rfl⟩ := h <;> exact ⟨rfl, rfl, rfl⟩
  · cases h

theorem finish_of_attempt {a : Attempt} (h : s.attempt (i, c) = some a) :
    ∃ r next rest, s.threads[i]? = some (.finish r a.status a.size next :: rest) ∧
      a.serial = s.memory.serial r := by
  simp only [attempt] at h
  split at h
  · rename_i f rest hstack
    cases f with
    | finish r hr size next =>
      obtain rfl : ⟨s.memory.serial r, hr, size⟩ = a := Option.some.inj h
      exact ⟨r, next, rest, hstack, rfl⟩
    | _ => cases h
  · cases h

/-- The ledger of completions: a slot is completed if there was an attempt at its operation, and then it
has what the first attempt wrote; and nothing else was written for any operation. -/
structure Completions (tr : List Event) (attempts : List Attempt) (s : AsyncThreads Op) : Prop where
  bounded : ∀ a ∈ attempts, a.serial < s.memory.acquired
  completed : ∀ r : SlotId, (r : ℕ) < s.memory.used →
    (s.memory.slots r).completed = (firstAttempt attempts (s.memory.serial r)).isSome
  outcome : ∀ r : SlotId, (r : ℕ) < s.memory.used →
    ∀ a, firstAttempt attempts (s.memory.serial r) = some a →
      (s.memory.slots r).status = a.status ∧ (s.memory.slots r).size = a.size
  written : ∀ k, tr.filterMap (Event.written k) =
    (firstAttempt attempts k).toList.map Attempt.status

theorem completions_start (threads : ℕ) :
    Completions [] [] (start threads : AsyncThreads Op) where
  bounded := fun a ha => by cases ha
  completed := fun r hr => by simp [start, Memory.start] at hr
  outcome := fun r hr => by simp [start, Memory.start] at hr
  written := fun k => rfl

theorem Completions.unborn (completions : Completions tr attempts s) {k : ℕ}
    (hk : s.memory.acquired ≤ k) : firstAttempt attempts k = none := by
  refine List.find?_eq_none.mpr fun a ha heq => ?_
  have hlt := completions.bounded a ha
  simp only [decide_eq_true_eq] at heq
  omega

/-- Nothing was handed out and nothing written, and no operation has another first attempt. -/
theorem Completions.quiet {attempts' : List Attempt} (completions : Completions tr attempts s)
    (same : SameOutcomes s.memory s'.memory) (events : ∀ k hr, .finished k hr ∉ ev)
    (first : ∀ k, firstAttempt attempts' k = firstAttempt attempts k)
    (bounded : ∀ a ∈ attempts', a.serial < s.memory.acquired) :
    Completions (tr ++ ev) attempts' s' := by
  have houtcome : ∀ r, (s'.memory.slots r).completed = (s.memory.slots r).completed ∧
      (s'.memory.slots r).status = (s.memory.slots r).status ∧
      (s'.memory.slots r).size = (s.memory.slots r).size := by
    intro r
    simpa [AsyncState.outcome] using same.outcome r
  constructor
  · intro a ha
    rw [same.acquired]
    exact bounded a ha
  · intro r hr
    rw [same.serial, first, (houtcome r).1]
    exact completions.completed r (same.used ▸ hr)
  · intro r hr a ha
    rw [same.serial, first] at ha
    rw [(houtcome r).2.1, (houtcome r).2.2]
    exact completions.outcome r (same.used ▸ hr) a ha
  · intro k
    rw [List.filterMap_append, filterMap_written events, List.append_nil, first]
    exact completions.written k

/-- A slot is handed out: nobody has attempted its new operation. -/
theorem Completions.handOut (completions : Completions tr attempts s) (accounted : Accounted s)
    {a : BlockId} {q : QueueId} {r : SlotId} {n : Memory Op} {id : Option ℕ} {o : Option Op}
    {provider : Option ℕ} {context : ℕ} (began : Began s.memory a q r n id o provider context) :
    Completions tr attempts { s with memory := n } := by
  have hfresh := accounted.audit.sound.began_fresh began
  have hnone : firstAttempt attempts (n.serial r) = none :=
    completions.unborn hfresh.serial.ge
  have hothers : ∀ x : SlotId, x ≠ r → (x : ℕ) < n.used →
      (x : ℕ) < s.memory.used ∧ n.serial x = s.memory.serial x := by
    intro x hx hused
    exact ⟨((hfresh.used x).mp hused).resolve_left hx, by simp only [Memory.serial, hfresh.others x hx]⟩
  constructor
  · intro b hb
    have hlt := completions.bounded b hb
    rw [hfresh.acquired]
    omega
  · intro x hused
    by_cases hx : x = r
    · subst hx
      rw [hnone, began_completed began]
      rfl
    · obtain ⟨hlt, hserial⟩ := hothers x hx hused
      dsimp only
      rw [hserial, hfresh.others x hx]
      exact completions.completed x hlt
  · intro x hused b hb
    by_cases hx : x = r
    · subst hx
      rw [hnone] at hb
      cases hb
    · obtain ⟨hlt, hserial⟩ := hothers x hx hused
      dsimp only at hb ⊢
      rw [hserial] at hb
      rw [hfresh.others x hx]
      exact completions.outcome x hlt b hb
  · exact completions.written

/-- The first attempt writes. -/
theorem Completions.finish (completions : Completions tr attempts s) (serials : Serials tr s)
    {r : SlotId} (hr : (r : ℕ) < s.memory.used) (first : (s.memory.slots r).completed = false)
    (status : HResult) (size : ℕ) (memory : s'.memory = s.memory.complete r status size) :
    Completions (tr ++ [.finished (s.memory.serial r) status])
      (attempts ++ [⟨s.memory.serial r, status, size⟩]) s' := by
  have hnone : firstAttempt attempts (s.memory.serial r) = none := by
    have hcompleted := completions.completed r hr
    rw [first] at hcompleted
    exact Option.not_isSome_iff_eq_none.mp (by simp [← hcompleted])
  have hfirst : ∀ k, firstAttempt (attempts ++ [⟨s.memory.serial r, status, size⟩]) k =
      if s.memory.serial r = k then some ⟨s.memory.serial r, status, size⟩
      else firstAttempt attempts k := by
    intro k
    rw [firstAttempt_append, firstAttempt_singleton]
    by_cases hk : s.memory.serial r = k
    · subst hk
      rw [hnone, Option.none_or]
    · rw [if_neg hk, if_neg hk, Option.or_none]
  have hlabels := sameLabels_complete s.memory r status size
  have hne : ∀ x : SlotId, (x : ℕ) < s.memory.used → x ≠ r →
      s.memory.serial r ≠ s.memory.serial x := fun x hx hxr heq =>
    hxr (serials.distinct r x hr hx heq).symm
  constructor
  · intro a ha
    rw [memory, hlabels.acquired]
    rcases List.mem_append.mp ha with ha | ha
    · exact completions.bounded a ha
    · rw [List.mem_singleton.mp ha]
      exact serials.slots r hr
  · intro x hx
    rw [memory] at hx ⊢
    rw [hlabels.serial, hfirst, complete_slots]
    have hx : (x : ℕ) < s.memory.used := hlabels.used ▸ hx
    by_cases hxr : x = r
    · subst hxr
      simp
    · rw [if_neg (hne x hx hxr), Function.update_of_ne hxr]
      exact completions.completed x hx
  · intro x hx a ha
    rw [memory] at hx ha ⊢
    rw [hlabels.serial, hfirst] at ha
    rw [complete_slots]
    have hx : (x : ℕ) < s.memory.used := hlabels.used ▸ hx
    by_cases hxr : x = r
    · subst hxr
      rw [if_pos rfl, Option.some.injEq] at ha
      subst ha
      simp
    · rw [if_neg (hne x hx hxr)] at ha
      rw [Function.update_of_ne hxr]
      exact completions.outcome x hx a ha
  · intro k
    rw [List.filterMap_append, completions.written k, hfirst]
    by_cases hk : s.memory.serial r = k
    · subst hk
      simp [hnone, Event.written]
    · simp [hk, Event.written]

theorem Completions.step (completions : Completions tr attempts s) (serials : Serials tr s)
    (accounted : Accounted s) (h : step .whole s (i, c) = some (s', ev)) :
    Completions (tr ++ ev) (attempts ++ (s.attempt (i, c)).toList) s' := by
  cases hattempt : s.attempt (i, c) with
  | some a =>
    -- `finish`: the flag decides whether the attempt is the first
    obtain ⟨r, next, rest, hstack, hserial⟩ := finish_of_attempt hattempt
    obtain ⟨-, houtcome⟩ := finish_step hstack h
    have hr := frame_used accounted.audit (List.mem_of_getElem? hstack) List.mem_cons_self
      (.inl rfl)
    have ha : a = ⟨s.memory.serial r, a.status, a.size⟩ := by rw [← hserial]
    rcases houtcome with ⟨hcompleted, hmemory, rfl⟩ | ⟨hcompleted, hmemory, rfl⟩
    · have hagain : (firstAttempt attempts a.serial).isSome = true := by
        rw [hserial, ← completions.completed r hr, hcompleted]
      refine completions.quiet (hmemory ▸ .refl _) (by simp) (firstAttempt_again hagain) ?_
      intro b hb
      rcases List.mem_append.mp hb with hb | hb
      · exact completions.bounded b hb
      · rw [List.mem_singleton.mp hb, hserial]
        exact serials.slots r hr
    · have hfinish := completions.finish serials hr hcompleted a.status a.size hmemory
      rw [← ha] at hfinish
      exact hfinish
  | none =>
    rw [Option.toList_none, List.append_nil]
    rcases step_top h with ⟨fault, rfl, rfl⟩ | ⟨old, rest, new, n, hstack, heffect, -, -, rfl⟩
    · exact completions.quiet (.refl _) (by simp) (fun _ => rfl) completions.bounded
    · cases heffect.outcome with
      | quiet same events =>
        exact completions.quiet same events (fun _ => rfl) completions.bounded
      | finishes =>
        have hsome := (finish_step hstack h).1
        rw [hattempt] at hsome
        cases hsome
      | @began a q r n₀ id o provider context _ _ began same events =>
        have hbegun := completions.handOut accounted began
        exact hbegun.quiet same events (fun _ => rfl) hbegun.bounded

end AsyncThreads

/-! ## What the observers read -/

/-- The call that the activation goes on with, after it has looked at the operation. -/
def Next.query : Next → Option Query
  | .task => none
  | .complete _ q => some q
  | .cancel _ q => some q

def Frame.query : Frame → Option Query
  | .resulting _ q _ => some q
  | .gettingResult _ q _ => some q
  | .finish _ _ _ next => next.query
  | .publish _ _ next => next.query
  | .retire _ _ q _ => some q
  | _ => none

/-- An activation that goes on is not an observer's. -/
def Frame.acts (f : Frame) : Prop := ∀ q, f.query = some q → q.observes = false

/-- What an observer answers that reads the slot. -/
def Looks (s : AsyncState Op) : Query → Reply → Prop
  | .resultSize out, reply => out = false ∧ reply = .code E_INVALIDARG ∨
      s.completed = false ∧ reply = .code pending ∨
      s.completed = true ∧ reply = .size s.status s.size
  | .status wait, reply => wait = false ∧ s.completed = false ∧ reply = .code pending ∨
      s.completed = true ∧ reply = .code s.status
  | _, _ => True

/-- What is known of an activation that a step puts in place of `old`: an observer has read the slot
that one of these holds. -/
structure Looked (m : Memory Op) (old : List Frame) (f : Frame) : Prop where
  acts : f.acts
  looks : ∀ b q k reply, f = .returns (.query b q (some k)) reply → q.observes = true →
    ∃ f₀ ∈ old, ∃ r, f₀.slot = some r ∧ m.serial r = k ∧ Looks (m.slots r) q reply

section Looked

variable {g : Granularity} {m n : Memory Op} {c : Choice Op} {old new : List Frame}
  {ev : List Event}

theorem Looked.other {f : Frame} (query : f.query = none) (answers : f.answers = none) :
    Looked m old f := by
  constructor
  · intro q hq
    rw [query] at hq
    cases hq
  · rintro b q k reply rfl
    cases answers

theorem looked_other {fs : List Frame} (other : ∀ f ∈ fs, f.query = none ∧ f.answers = none) :
    ∀ f ∈ fs, Looked m old f := fun f hf => .other (other f hf).1 (other f hf).2

theorem looked_listed {fs : List Frame} (query : fs.filterMap Frame.query = [])
    (answers : fs.filterMap Frame.answers = []) : ∀ f ∈ fs, Looked m old f := by
  rw [List.filterMap_eq_nil_iff] at query answers
  exact looked_other fun f hf => ⟨query f hf, answers f hf⟩

theorem looked_plain {fs : List Frame} (plain : ∀ f ∈ fs, f.plain) :
    ∀ f ∈ fs, Looked m old f := by
  refine looked_other fun f hf => ?_
  obtain ⟨⟨hslot, -⟩, -, hanswers⟩ := plain f hf
  refine ⟨?_, hanswers⟩
  cases f <;> first | rfl | cases hslot

theorem looked_settle {r : SlotId} {b : BlockId} {q : Query} {reply : Reply}
    (looks : q.observes = true →
      ∃ f₀ ∈ old, f₀.slot = some r ∧ Looks (m.slots r) q reply) :
    ∀ f ∈ m.settle r b q reply, Looked m old f := by
  refine List.forall_mem_cons.mpr ⟨?_, List.forall_mem_singleton.mpr ?_⟩
  · exact looked_listed rfl rfl _ (List.mem_singleton_self (Frame.release r .call))
  · constructor
    · intro q' hq'
      cases hq'
    · intro b' q' k reply' heq hobserves
      simp only [Frame.returns.injEq, Source.query.injEq, Option.some.injEq] at heq
      obtain ⟨⟨rfl, rfl, rfl⟩, rfl⟩ := heq
      obtain ⟨f₀, hf₀, hslot, hlooks⟩ := looks hobserves
      exact ⟨f₀, hf₀, r, hslot, rfl, hlooks⟩

theorem looked_after {r : SlotId} {next : Next}
    (acts : ∀ q, next.query = some q → q.observes = false) :
    ∀ f ∈ m.after r next, Looked m old f := by
  cases next with
  | task => exact looked_listed rfl rfl
  | complete b q =>
    refine looked_settle fun hobserves => ?_
    rw [acts q rfl] at hobserves
    cases hobserves
  | cancel b q =>
    refine List.forall_mem_singleton.mpr ⟨fun q' hq' => acts q' hq', ?_⟩
    intro b' q' k reply heq
    cases heq

theorem looked_goes {f : Frame} (acts : f.acts) (answers : f.answers = none) :
    ∀ f' ∈ [f], Looked m old f' := by
  refine List.forall_mem_singleton.mpr ⟨acts, ?_⟩
  rintro b q k reply rfl
  cases answers

theorem looked_frames (t : Task) (canceled : Bool) :
    ∀ f ∈ t.frames canceled, Looked m old f := by
  refine looked_other ?_
  cases t <;> simp [Task.frames, Frame.query, Frame.answers]

theorem Effect.looked_call (effect : Effect g m c [] n new ev) : ∀ f ∈ new, Looked m [] f := by
  cases effect with
  | manage _ _ plain => exact looked_plain plain
  | adjusts _ _ plain => exact looked_plain plain
  | took _ plain =>
    intro f hf
    rcases List.mem_append.mp hf with hf | hf
    · exact looked_frames _ _ f hf
    · exact looked_plain plain f hf
  | _ => exact looked_listed rfl rfl

/-- A call that has found its operation. -/
theorem Memory.foundStep_looked {e : Env} {b : BlockId} {q : Query} {r : SlotId}
    (h : m.foundStep e b q r = .next n new ev) : ∀ f ∈ new, Looked m [.found b q r] f := by
  have hobserver : ∀ reply, Looks (m.slots r) q reply →
      ∀ f ∈ m.settle r b q reply, Looked m [.found b q r] f := fun reply hlooks =>
    looked_settle fun _ => ⟨_, List.mem_cons_self, rfl, hlooks⟩
  cases q with
  | result id size used =>
    simp only [foundStep] at h
    split_ifs at h <;> cases h
    all_goals first
      | exact hobserver _ trivial
      | exact looked_goes (fun q' hq' => by cases hq'; rfl) rfl
  | resultSize out =>
    simp only [foundStep] at h
    split_ifs at h with hout hcompleted <;> cases h
    · exact hobserver _ (.inl ⟨hout, rfl⟩)
    · exact hobserver _ (.inr (.inl ⟨hcompleted, rfl⟩))
    · exact hobserver _ (.inr (.inr ⟨by simpa using hcompleted, rfl⟩))
  | status wait =>
    cases wait with
    | true =>
      cases h
      exact List.forall_mem_singleton.mpr (.other rfl rfl)
    | false =>
      cases h
      refine hobserver _ ?_
      cases hcompleted : (m.slots r).completed with
      | true => exact .inr ⟨hcompleted, rfl⟩
      | false => exact .inl ⟨rfl, hcompleted, rfl⟩
  | cancel =>
    simp only [foundStep] at h
    split_ifs at h <;> cases h <;> exact looked_goes (fun q' hq' => by cases hq'; rfl) rfl
  | pendingOperation id =>
    cases h
    exact hobserver _ trivial
  | schedule delay =>
    simp only [foundStep] at h
    repeat' split at h
    all_goals cases h
    all_goals first
      | exact hobserver _ trivial
      | exact List.forall_mem_cons.mpr ⟨.other rfl rfl, hobserver _ trivial⟩
  | complete hr size =>
    cases h
    exact looked_goes (fun q' hq' => by cases hq'; rfl) rfl

/-- The activation on top goes on. -/
theorem Memory.go_looked {e : Env} {f : Frame} (acts : f.acts)
    (h : m.go e f = some (.next n new ev)) : ∀ f' ∈ new, Looked m [f] f' := by
  have hsettle : ∀ {r b q reply}, q.observes = false →
      ∀ f' ∈ m.settle r b q reply, Looked m [f] f' := fun hacts =>
    looked_settle fun hobserves => by
      rw [hacts] at hobserves
      cases hobserves
  cases f with
  | found b q r => exact foundStep_looked (Option.some.inj h)
  | waiting b r =>
    simp only [go] at h
    split_ifs at h with hcompleted
    cases h
    exact looked_settle fun _ => ⟨_, List.mem_cons_self, rfl, .inr ⟨hcompleted, rfl⟩⟩
  | finish r hr size next =>
    simp only [go] at h
    repeat' split at h
    all_goals cases h
    all_goals first
      | exact looked_after acts
      | exact looked_goes acts rfl
  | publish r a next =>
    simp only [go, publishStep, Option.some.injEq] at h
    repeat' split at h
    all_goals cases h
    all_goals first
      | exact looked_after acts
      | exact List.forall_mem_cons.mpr ⟨.other rfl rfl, looked_after acts⟩
  | retire r b q reply =>
    simp only [go] at h
    split_ifs at h <;> cases h
    · exact hsettle (acts q rfl)
    · exact List.forall_mem_cons.mpr ⟨.other rfl rfl, hsettle (acts q rfl)⟩
  | drain p =>
    simp only [go, dispatch, Option.some.injEq] at h
    split at h
    · cases h
      exact List.forall_mem_nil _
    · cases h
      intro f' hf'
      rcases List.mem_append.mp hf' with hf' | hf'
      · exact looked_frames _ _ f' hf'
      · rw [List.mem_singleton.mp hf']
        exact .other rfl rfl
  | run r w canceled =>
    simp only [go, runStep, Option.some.injEq] at h
    repeat' split at h
    all_goals cases h
    all_goals exact List.forall_mem_singleton.mpr (.other rfl rfl)
  | _ =>
    simp only [go] at h
    repeat' split at h
    all_goals cases h
    all_goals first
      | exact List.forall_mem_nil _
      | exact looked_listed rfl rfl

theorem Memory.answer_looked {f : Frame} {a : Answer} (acts : f.acts)
    (h : m.answer f a = some (.next n new ev)) : ∀ f' ∈ new, Looked m [f] f' := by
  unfold answer at h
  repeat' split at h
  all_goals cases h
  all_goals first
    | exact looked_goes acts rfl
    | exact List.forall_mem_nil _

end Looked

theorem Effect.returned {g : Granularity} {m n : Memory Op} {c : Choice Op} {old new : List Frame}
    {ev : List Event} (effect : Effect g m c old n new ev) {src : Source} {reply : Reply}
    (told : .returned src reply ∈ ev) : .returns src reply ∈ old := by
  cases effect with
  | @took _ _ p now t =>
    cases htask : t.item.callback <;> simp [htask, Memory.ranEvents] at told
  | returns =>
    obtain ⟨rfl, rfl⟩ := Event.returned.inj (List.mem_singleton.mp told)
    exact List.mem_singleton_self _
  | _ => simp at told

theorem Observed.mono {as : List Attempt} {k : ℕ} {q : Query} {reply : Reply}
    (observed : Observed (firstAttempt as k) q reply) (bs : List Attempt) :
    Observed (firstAttempt (as ++ bs) k) q reply := by
  cases q with
  | resultSize out =>
    rcases observed with h | h | ⟨a, ha, rfl⟩
    · exact .inl h
    · exact .inr (.inl h)
    · exact .inr (.inr ⟨a, firstAttempt_mono ha, rfl⟩)
  | status wait =>
    rcases observed with h | ⟨a, ha, rfl⟩
    · exact .inl h
    · exact .inr ⟨a, firstAttempt_mono ha, rfl⟩
  | _ => trivial

namespace AsyncThreads

variable {s s' : AsyncThreads Op} {i : ℕ} {c : Choice Op} {tr ev : List Event}
  {attempts : List Attempt}

/-- What an observer reads is what the first attempt wrote. -/
theorem Completions.observed (completions : Completions tr attempts s) {r : SlotId}
    (hr : (r : ℕ) < s.memory.used) {q : Query} {reply : Reply}
    (looks : Looks (s.memory.slots r) q reply) :
    Observed (firstAttempt attempts (s.memory.serial r)) q reply := by
  have hfirst : (s.memory.slots r).completed = true →
      ∃ a, firstAttempt attempts (s.memory.serial r) = some a ∧
        (s.memory.slots r).status = a.status ∧ (s.memory.slots r).size = a.size := by
    intro hcompleted
    rw [completions.completed r hr] at hcompleted
    obtain ⟨a, ha⟩ := Option.isSome_iff_exists.mp hcompleted
    exact ⟨a, ha, completions.outcome r hr a ha⟩
  cases q with
  | resultSize out =>
    rcases looks with h | ⟨-, rfl⟩ | ⟨hcompleted, rfl⟩
    · exact .inl h
    · exact .inr (.inl rfl)
    · obtain ⟨a, ha, hstatus, hsize⟩ := hfirst hcompleted
      exact .inr (.inr ⟨a, ha, by rw [hstatus, hsize]⟩)
  | status wait =>
    rcases looks with ⟨hwait, -, rfl⟩ | ⟨hcompleted, rfl⟩
    · exact .inl ⟨hwait, rfl⟩
    · obtain ⟨a, ha, hstatus, -⟩ := hfirst hcompleted
      exact .inr ⟨a, ha, by rw [hstatus]⟩
  | _ => trivial

theorem step_looked (acts : ∀ stack ∈ s.threads, ∀ f ∈ stack, f.acts)
    (h : step .whole s (i, c) = some (s', ev)) :
    (∃ fault, s' = { s with ended := true } ∧ ev = [.ended fault]) ∨
      ∃ old rest new n, s.threads[i]? = some (old ++ rest) ∧
        Effect .whole s.memory c old n new ev ∧ (∀ f ∈ new, Looked s.memory old f) ∧
        s' = { s with memory := n, threads := s.threads.set i (new ++ rest) } := by
  rcases step_moves h with hended | ⟨old, rest, new, n, hstack, rfl, ⟨x, e, rfl, rfl, -, hcall⟩ |
    ⟨f, a, rfl, rfl, hanswer⟩ | ⟨f, e, rfl, rfl, hgo⟩⟩
  · exact .inl hended
  · have heffect := Memory.call_effect hcall
    exact .inr ⟨[], rest, new, n, hstack, heffect, heffect.looked_call, rfl⟩
  · have hacts := acts _ (List.mem_of_getElem? hstack) f List.mem_cons_self
    exact .inr ⟨[f], rest, new, n, hstack, Memory.answer_effect hanswer,
      Memory.answer_looked hacts hanswer, rfl⟩
  · have hacts := acts _ (List.mem_of_getElem? hstack) f List.mem_cons_self
    exact .inr ⟨[f], rest, new, n, hstack, Memory.go_effect hgo, Memory.go_looked hacts hgo, rfl⟩

structure Observers (tr : List Event) (attempts : List Attempt) (s : AsyncThreads Op) : Prop where
  acts : ∀ stack ∈ s.threads, ∀ f ∈ stack, f.acts
  answers : ∀ stack ∈ s.threads, ∀ f ∈ stack, ∀ b q k reply,
    f = .returns (.query b q (some k)) reply → Observed (firstAttempt attempts k) q reply
  answered : ∀ b q k reply, .returned (.query b q (some k)) reply ∈ tr →
    Observed (firstAttempt attempts k) q reply

theorem observers_start (threads : ℕ) : Observers [] [] (start threads : AsyncThreads Op) := by
  have hnil : ∀ stack ∈ (start threads : AsyncThreads Op).threads, stack = [] := fun stack hmem =>
    (List.mem_replicate.mp hmem).2
  constructor
  · intro stack hmem f hf
    rw [hnil stack hmem] at hf
    cases hf
  · intro stack hmem f hf
    rw [hnil stack hmem] at hf
    cases hf
  · intro b q k reply h
    cases h

theorem Observers.step (observers : Observers tr attempts s)
    (completions : Completions tr attempts s) (accounted : Accounted s)
    (h : step .whole s (i, c) = some (s', ev)) (more : List Attempt) :
    Observers (tr ++ ev) (attempts ++ more) s' := by
  rcases step_looked observers.acts h with ⟨fault, rfl, rfl⟩ |
    ⟨old, rest, new, n, hstack, heffect, hlooked, rfl⟩
  · refine ⟨observers.acts, ?_, ?_⟩
    · exact fun stack hmem f hf b q k reply heq =>
        (observers.answers stack hmem f hf b q k reply heq).mono more
    · intro b q k reply htold
      exact (observers.answered b q k reply (by simpa using htold)).mono more
  have hmem := List.mem_of_getElem? hstack
  constructor
  · exact frames_moved hstack observers.acts fun f hf => (hlooked f hf).acts
  · refine frames_moved hstack ?_ ?_
    · exact fun stack hmem f hf b q k reply heq =>
        (observers.answers stack hmem f hf b q k reply heq).mono more
    · intro f hf b q k reply heq
      by_cases hobserves : q.observes = true
      · obtain ⟨f₀, hf₀, r, hslot, rfl, hlooks⟩ := (hlooked f hf).looks b q k reply heq hobserves
        have hr := frame_used accounted.audit hmem (List.mem_append_left _ hf₀) (.inl hslot)
        exact (completions.observed hr hlooks).mono more
      · cases q <;> first | exact absurd rfl hobserves | trivial
  · intro b q k reply htold
    rcases List.mem_append.mp htold with htold | htold
    · exact (observers.answered b q k reply htold).mono more
    · have hold := heffect.returned htold
      exact (observers.answers _ hmem _ (List.mem_append_left _ hold) b q k reply rfl).mono more

/-! ## The completion routine is called at most once -/

/-- An announcement that finds nobody to tell ends its task. -/
theorem unheard_step (accounted : Accounted s) (unheard : ¬ AnnouncesHeard s (i, c))
    (h : step .whole s (i, c) = some (s', ev)) :
    ∃ r canceled rest, s.threads[i]? = some (.run r .announce canceled :: rest) ∧ ev = [] ∧
      (r : ℕ) < s.memory.used ∧
      s' = { s with threads := s.threads.set i (.release r .task :: rest) } := by
  obtain ⟨r, canceled, rest, hstack, -, hev⟩ := unheard_silent accounted unheard h
  have hr := frame_used accounted.audit (List.mem_of_getElem? hstack) List.mem_cons_self (.inl rfl)
  refine ⟨r, canceled, rest, hstack, hev, hr, ?_⟩
  rcases step_top h with ⟨fault, -, rfl⟩ | ⟨old, rest', new, n, hstack', heffect, hmay, hold, rfl⟩
  · cases hev
  · have heq : old ++ rest' = .run r .announce canceled :: rest :=
      Option.some.inj (hstack'.symm.trans hstack)
    rcases hold with rfl | ⟨f, rfl⟩
    · have hcalls := hmay rfl
      rw [show rest' = .run r .announce canceled :: rest from heq] at hcalls
      cases hcalls
    · obtain ⟨rfl, rfl⟩ := List.cons.inj heq
      cases heffect with
      | manage _ light => cases (light _ List.mem_cons_self).1
      | adjusts _ light => cases (light _ List.mem_cons_self).1
      | took light => cases (light _ List.mem_cons_self).1
      | proceeds _ _ _ quiet => cases quiet
      | provides _ _ _ quiet => cases quiet
      | announces => cases hev
      | silent => rfl
      | settles call => rcases call with h | ⟨h, -⟩ <;> cases h

/-- The ledger of completion routines holds of a trace in which the announcements that find nobody to
tell call a routine as well. -/
theorem reaches_padded {ok : AsyncThreads Op → ℕ × Choice Op → Prop} {threads : ℕ}
    (h : Reaches (AsyncThreads.step .whole) ok (start threads) tr s) :
    Accounted s ∧ Serials tr s ∧ Announced tr s ∧ ∃ padded, Serials padded s ∧ Called padded s ∧
      (∀ k, padded.countP (Event.announced k) = tr.countP (Event.announced k)) ∧
      ∀ k, tr.countP (Event.calls k) ≤ padded.countP (Event.calls k) := by
  refine h.invariant (P := fun tr s => Accounted s ∧ Serials tr s ∧ Announced tr s ∧
    ∃ padded, Serials padded s ∧ Called padded s ∧
      (∀ k, padded.countP (Event.announced k) = tr.countP (Event.announced k)) ∧
      ∀ k, tr.countP (Event.calls k) ≤ padded.countP (Event.calls k))
    ⟨accounted_start threads, serials_start threads, (ledgers_start threads).1, [],
      serials_start threads, (ledgers_start threads).2, fun _ => rfl, fun _ => le_refl _⟩ ?_
  rintro tr s ⟨i, c⟩ t ev ⟨haccounted, hserials, hannounced, padded, hpadded, hcalled, hsame, hle⟩ -
    hstep
  have hready := haccounted.ready i c
  refine ⟨haccounted.step hstep, hserials.step haccounted.audit hready hstep,
    hannounced.step hserials haccounted hstep, ?_⟩
  by_cases hheard : AnnouncesHeard s (i, c)
  · refine ⟨padded ++ ev, hpadded.step haccounted.audit hready hstep,
      hcalled.step hpadded haccounted hheard hstep, ?_, ?_⟩
    · intro k
      rw [List.countP_append, List.countP_append, hsame]
    · intro k
      have hk := hle k
      rw [List.countP_append, List.countP_append]
      omega
  · obtain ⟨r, canceled, rest, hstack, rfl, hr, rfl⟩ := unheard_step haccounted hheard hstep
    have hstack' : s.threads[i]? = some ([.run r .announce canceled] ++ rest) := hstack
    have hmoved := fun w => total_moved w [.release r .task] hstack'
    refine ⟨padded ++ [.routine (s.memory.serial r) 0], ?_, ?_, ?_, ?_⟩
    · refine hpadded.quiet (.refl _) rfl ?_ (by simp [Event.pool]) ?_
      · intro x
        obtain ⟨hfits, htotal⟩ := hmoved (Frame.disposes x)
        simpa [disposals, Frame.disposes, Frame.disposing] using htotal
      · intro e he k hk
        rw [List.mem_singleton.mp he] at hk
        obtain rfl : s.memory.serial r = k := Option.some.inj hk
        exact hserials.slots r hr
    · have hcalls : ∀ k, [Event.routine (s.memory.serial r) 0].countP (Event.calls k) =
          if s.memory.serial r = k then 1 else 0 := fun k => by
        simp [Event.calls, List.countP_singleton]
      constructor
      · intro x hx
        have hx : (x : ℕ) < s.memory.used := hx
        obtain ⟨hfits, htotal⟩ := hmoved (Frame.announcing x)
        have hold := hcalled.slots x hx
        dsimp only
        rw [List.countP_append, List.countP_append, hcalls,
          at_serial (fun _ => hr) hpadded.distinct hx]
        simp [Frame.announcing, Event.announced] at hfits htotal ⊢
        split_ifs at hfits htotal ⊢ <;> omega
      · intro k hnot
        rw [List.countP_append, List.countP_append, hcalls, at_past (fun _ => hr) hnot]
        simpa [Event.announced] using hcalled.past k hnot
    · intro k
      rw [List.append_nil, List.countP_append, hsame]
      simp [Event.announced]
    · intro k
      have hk := hle k
      rw [List.append_nil, List.countP_append]
      omega

/-- In every run: what was written for an operation is what the first attempt to complete it brought,
once; a slot has that status and size as soon as its flag is set and as long as it is the operation's; a
call that asks for the status or the size answers that the operation is pending, or with what the first
attempt brought, and one that waits never answers otherwise; and the completion routine is called at
most once. -/
theorem first_completion_wins {s : Noted (AsyncThreads Op) (List Attempt)} {threads : ℕ}
    (h : Reaches attemptStep always (attemptStart threads) tr s) :
    (∀ k, tr.filterMap (Event.written k) =
      (firstAttempt s.notes k).toList.map Attempt.status) ∧
    (∀ r : SlotId, (r : ℕ) < s.state.memory.used →
      (s.state.memory.slots r).completed =
        (firstAttempt s.notes (s.state.memory.serial r)).isSome ∧
      ∀ a, firstAttempt s.notes (s.state.memory.serial r) = some a →
        (s.state.memory.slots r).status = a.status ∧ (s.state.memory.slots r).size = a.size) ∧
    (∀ b q k reply, .returned (.query b q (some k)) reply ∈ tr →
      Observed (firstAttempt s.notes k) q reply) ∧
    ∀ k, tr.countP (Event.calls k) ≤ 1 := by
  have hall : Accounted s.state ∧ Serials tr s.state ∧ Completions tr s.notes s.state ∧
      Observers tr s.notes s.state := by
    refine h.invariant (P := fun tr (s : Noted (AsyncThreads Op) (List Attempt)) =>
      Accounted s.state ∧ Serials tr s.state ∧ Completions tr s.notes s.state ∧
        Observers tr s.notes s.state)
      ⟨accounted_start threads, serials_start threads, completions_start threads,
        observers_start threads⟩ ?_
    rintro tr s ⟨i, c⟩ t ev ⟨haccounted, hserials, hcompletions, hobservers⟩ - hstep
    obtain ⟨hplain, hnotes⟩ := noting_eq_some_iff.mp hstep
    rw [hnotes]
    exact ⟨haccounted.step hplain, hserials.step haccounted.audit (haccounted.ready i c) hplain,
      hcompletions.step hserials haccounted hplain,
      hobservers.step hcompletions haccounted hplain _⟩
  obtain ⟨-, -, hcompletions, hobservers⟩ := hall
  refine ⟨hcompletions.written, fun r hr => ⟨hcompletions.completed r hr,
    hcompletions.outcome r hr⟩, hobservers.answered, fun k => ?_⟩
  obtain ⟨-, -, hannounced, padded, -, hcalled, hsame, hle⟩ := reaches_padded h.forget
  calc tr.countP (Event.calls k) ≤ padded.countP (Event.calls k) := hle k
    _ ≤ padded.countP (Event.announced k) := hcalled.le k
    _ = tr.countP (Event.announced k) := hsame k
    _ ≤ 1 := hannounced.once k

section Run

/-- An operation is begun and completed by its caller, then its work runs and returns, and its status is
waited for. -/
def completedTwice : List (ℕ × Choice Unit) :=
  [(0, .call (.createQueue .manual .manual) {}), (0, .go {}),
    (0, .call (.prepare 0 (some 0) none) {}), (0, .call (.begin (some 0) 1 ()) {}), (0, .go {}),
    (0, .call (.query (some 0) (.complete E_FAIL 3)) {}), (0, .go {}), (0, .go {}), (0, .go {}),
    (0, .go {}), (0, .go {}), (0, .call (.dispatch (some 0) .work) {}), (0, .go {}),
    (0, .answer (.returned 5)), (0, .go {}), (0, .go {}), (0, .go {}),
    (0, .call (.query (some 0) (.status true)) {}), (0, .go {}), (0, .go {}), (0, .go {}), (0, .go {})]

theorem completedTwice_end : (execute attemptStep (attemptStart 1) completedTwice).map (fun last =>
    (last.1.notes, last.2.contains (.returned (.query (some 0) (.status true) (some 0))
      (.code E_FAIL)))) = some ([⟨0, E_FAIL, 3⟩, ⟨0, S_OK, 5⟩], true) := by
  decide +kernel

/-- The second attempt writes nothing, and the status is that of the first. -/
theorem first_completion_wins_twice :
    ∃ (s : Noted (AsyncThreads Unit) (List Attempt)) (tr : List Event),
      Reaches attemptStep always (attemptStart 1) tr s ∧
        s.notes = [⟨0, E_FAIL, 3⟩, ⟨0, S_OK, 5⟩] ∧ tr.filterMap (Event.written 0) = [E_FAIL] := by
  obtain ⟨⟨s, tr⟩, hrun, hend⟩ := Option.map_eq_some_iff.mp completedTwice_end
  have h : Reaches attemptStep always (attemptStart 1) tr s := reaches_of_run hrun
  obtain ⟨hnotes, -⟩ := Prod.mk.inj hend
  refine ⟨s, tr, h, hnotes, ?_⟩
  rw [(first_completion_wins h).1 0]
  dsimp only at hnotes
  rw [hnotes]
  rfl

end Run

end AsyncThreads

end IW4x.Gdk
