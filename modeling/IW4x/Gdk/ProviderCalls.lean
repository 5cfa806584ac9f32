import IW4x.Gdk.Retirement

/-!
# The block that a provider is called with

`call_provider` passes the block that the slot has at that moment, and `retire` takes it out of the
slot. A task that was scheduled before keeps the slot but not the block, and so does a call that
found the operation before another thread retired it.
-/

namespace IW4x.Gdk

open Runs

variable {Op : Type}

/-- The slot whose provider the activation is about to call with the block: `do_work`, or
`take_result` of an operation that has succeeded. -/
def Frame.asks (m : Memory Op) : Frame → Option SlotId
  | .run r .doWork _ => if (m.slots r).provider.isSome then some r else none
  | .found _ (.result id _ _) r =>
    let s := m.slots r
    if s.completed = true ∧ succeeded s.status = true ∧ ¬ (id.isSome ∧ s.id ≠ id) ∧
        s.operation.isNone ∧ s.provider.isSome then some r else none
  | _ => none

section Effects

variable {g : Granularity} {m n : Memory Op} {c : Choice Op} {new : List Frame}
  {ev : List Event} {k : ℕ} {op : ProviderOp} {b : Option BlockId}

/-- A step in the code of the library that calls a provider with a block. -/
theorem Memory.go_provider {e : Env} {f : Frame} (h : m.go e f = some (.next n new ev))
    (called : .provider k op b ∈ ev) (block : op ≠ .cleanup) :
    ∃ r, f.asks m = some r ∧ k = m.serial r ∧ b = (m.slots r).block := by
  have hran : ∀ p t, .provider k op b ∉ m.ranEvents p t := by
    intro p t
    cases t <;> simp [Memory.ranEvents]
  cases f with
  | found a q r =>
    simp only [go, foundStep, Option.some.injEq] at h
    cases q with
    | result id size used =>
      dsimp only at h
      split_ifs at h with hcompleted hsucceeded hid hoperation hprovider <;> cases h <;>
        simp at called
      refine ⟨r, ?_, called.1, called.2.2⟩
      have hnone : (m.slots r).operation.isNone = true := by simpa using hoperation
      exact if_pos ⟨Bool.eq_true_of_not_eq_false hcompleted, hsucceeded, hid, hnone, hprovider⟩
    | schedule delay =>
      dsimp only at h
      repeat' split at h
      all_goals cases h
      all_goals simp at called
    | resultSize out =>
      dsimp only at h
      split_ifs at h <;> cases h <;> simp at called
    | status wait =>
      dsimp only at h
      split_ifs at h <;> cases h <;> simp at called
    | cancel =>
      dsimp only at h
      split_ifs at h <;> cases h <;> simp at called
    | pendingOperation id =>
      cases h
      simp at called
    | complete hr size =>
      cases h
      simp at called
  | run r w canceled =>
    simp only [go, runStep, Option.some.injEq] at h
    cases w with
    | perform =>
      dsimp only at h
      split_ifs at h <;> cases h <;> simp at called
    | doWork =>
      dsimp only at h
      split_ifs at h with hprovider
      all_goals cases h
      all_goals simp only [List.mem_singleton, Event.provider.injEq] at called
      all_goals exact ⟨r, by simp [Frame.asks, hprovider], called.1, called.2.2⟩
    | announce =>
      dsimp only at h
      repeat' split at h
      all_goals cases h
      all_goals simp at called
  | cleaning r provider =>
    cases provider with
    | none =>
      cases h
      simp at called
    | some x =>
      cases h
      simp only [List.mem_singleton, Event.provider.injEq] at called
      exact absurd called.2.1 block
  | drain p =>
    simp only [go, dispatch, Option.some.injEq] at h
    split at h
    · cases h
      simp at called
    · cases h
      exact absurd called (hran _ _)
  | publish r a next =>
    simp only [go, publishStep, Option.some.injEq] at h
    repeat' split at h
    all_goals cases h
    all_goals simp at called
  | _ =>
    simp only [go] at h
    repeat' split at h
    all_goals cases h
    all_goals simp at called

theorem Memory.answer_provider {f : Frame} {a : Answer} (h : m.answer f a = some (.next n new ev))
    (block : op ≠ .cleanup) : .provider k op b ∉ ev := by
  unfold answer at h
  repeat' split at h
  all_goals cases h
  all_goals simp [block]

theorem Effect.call_provider (effect : Effect g m c [] n new ev)
    (called : .provider k op b ∈ ev) : ∃ a ps, b = some a ∧ .begun k a true ps ∈ ev := by
  cases effect with
  | @took _ _ p now t =>
    cases htask : t.item.callback with
    | held r f => simp [htask, Memory.ranEvents] at called
    | callback x => simp [htask, Memory.ranEvents] at called
  | providerBegun began =>
    simp only [List.mem_cons, reduceCtorEq, Event.provider.injEq, List.not_mem_nil, or_false,
      false_or] at called
    obtain ⟨rfl, -, rfl⟩ := called
    exact ⟨_, _, rfl, List.mem_cons_self⟩
  | _ => simp at called

end Effects

namespace AsyncThreads

variable {tr ev : List Event} {g : Granularity} {s s' : AsyncThreads Op} {i : ℕ} {c : Choice Op}
  {k : ℕ} {op : ProviderOp} {b : Option BlockId}

/-- A step that calls a provider for anything but cleanup begins its operation, or asks. -/
theorem step_provider (h : step g s (i, c) = some (s', ev)) (called : .provider k op b ∈ ev)
    (block : op ≠ .cleanup) :
    (∃ a ps, b = some a ∧ .begun k a true ps ∈ ev) ∨
      ∃ f rest r, s.threads[i]? = some (f :: rest) ∧ f.asks s.memory = some r ∧
        k = s.memory.serial r ∧ b = (s.memory.slots r).block := by
  simp only [step] at h
  split at h
  · rename_i stack _ hstack
    split at h
    · cases h
    · cases h
      simp at called
    · rename_i rest n new ev' hmove
      cases h
      cases c with
      | call x e =>
        simp only [move] at hmove
        split_ifs at hmove
        simp only [Option.some.injEq, Prod.mk.injEq] at hmove
        exact .inl ((Memory.call_effect hmove.2).call_provider called)
      | answer a =>
        cases stack with
        | nil => cases hmove
        | cons f below =>
          simp only [move, Option.map_eq_some_iff, Prod.mk.injEq] at hmove
          obtain ⟨out, hout, rfl, rfl⟩ := hmove
          exact absurd called (Memory.answer_provider hout block)
      | go e =>
        cases stack with
        | nil => cases hmove
        | cons f below =>
          simp only [move, Option.map_eq_some_iff, Prod.mk.injEq] at hmove
          obtain ⟨out, hout, rfl, rfl⟩ := hmove
          obtain ⟨r, hasks, hk, hb⟩ := Memory.go_provider hout called block
          exact .inr ⟨f, below, r, hstack, hasks, hk, hb⟩
  · cases h

end AsyncThreads

/-- An activation that asks is in the code of the library. -/
theorem Frame.inside_of_asks {m : Memory Op} {f : Frame} {r : SlotId} (asks : f.asks m = some r) :
    f.slot = some r ∧ f.outside = false ∧ ∀ a, m.answer f a = none := by
  cases f with
  | run x w canceled =>
    cases w with
    | doWork =>
      simp only [Frame.asks] at asks
      split_ifs at asks
      cases asks
      exact ⟨rfl, rfl, fun _ => rfl⟩
    | perform => cases asks
    | announce => cases asks
  | found a q x =>
    cases q with
    | result id size used =>
      simp only [Frame.asks] at asks
      split_ifs at asks
      cases asks
      exact ⟨rfl, rfl, fun _ => rfl⟩
    | _ => cases asks
  | _ => cases asks

/-- What it asks with is what the slot has for a block. -/
theorem Memory.asks_go {m : Memory Op} {f : Frame} {r : SlotId} (asks : f.asks m = some r)
    (e : Env) : ∃ new op, op ≠ .cleanup ∧
      m.go e f = some (.next m new [.provider (m.serial r) op (m.slots r).block]) := by
  cases f with
  | run x w canceled =>
    cases w with
    | doWork =>
      simp only [Frame.asks] at asks
      split_ifs at asks with hprovider
      cases asks
      refine ⟨[.providing r (if canceled then .cancel else .doWork)],
        if canceled then .cancel else .doWork, ?_, ?_⟩
      · cases canceled <;> decide
      · simp only [go, runStep, hprovider, if_true]
        rfl
    | perform => cases asks
    | announce => cases asks
  | found a q x =>
    cases q with
    | result id size used =>
      simp only [Frame.asks] at asks
      split_ifs at asks with hall
      cases asks
      obtain ⟨hcompleted, hsucceeded, hid, hoperation, hprovider⟩ := hall
      refine ⟨[.gettingResult a (.result id size used) r], .getResult, by decide, ?_⟩
      have hnone : ¬ (m.slots r).operation.isSome = true := by simpa using hoperation
      simp only [go, foundStep, hcompleted, hsucceeded, if_neg hid, if_neg hnone, hprovider,
        Bool.true_eq_false, if_false, if_true]
      rfl
    | _ => cases asks
  | _ => cases asks

namespace AsyncThreads

variable {tr ev : List Event} {s s' : AsyncThreads Op} {i : ℕ} {c : Choice Op}

theorem asks_called {g : Granularity} {f : Frame} {rest : List Frame} {r : SlotId}
    (hstack : s.threads[i]? = some (f :: rest)) (asks : f.asks s.memory = some r)
    (h : step g s (i, c) = some (s', ev)) : ∃ op, op ≠ .cleanup ∧
      ev = [.provider (s.memory.serial r) op (s.memory.slots r).block] := by
  obtain ⟨-, houtside, hanswer⟩ := Frame.inside_of_asks asks
  simp only [step] at h
  split at h
  · rename_i stack _ hstack'
    obtain rfl : f :: rest = stack := Option.some.inj (hstack.symm.trans hstack')
    cases c with
    | call x e => simp [move, mayCall, houtside] at h
    | answer a => simp [move, hanswer] at h
    | go e =>
      obtain ⟨new, op, hop, hgo⟩ := Memory.asks_go asks e
      simp only [move, hgo, Option.map_some, Option.some.injEq, Prod.mk.injEq] at h
      exact ⟨op, hop, h.2.symm⟩
  · cases h

/-- The step asks no provider about an operation that was retired. -/
def AsksLive (s : AsyncThreads Op) (input : ℕ × Choice Op) : Prop :=
  ∀ stack ∈ s.threads[input.1]?, ∀ f ∈ stack.head?, ∀ r ∈ f.asks s.memory,
    (s.memory.slots r).retired = false

instance asksLive_decidable (s : AsyncThreads Op) (input : ℕ × Choice Op) :
    Decidable (AsksLive s input) := by
  unfold AsksLive
  infer_instance

/-- The provider calls of a run, other than for cleanup, carry the block of the operation. -/
def Carried (tr : List Event) : Prop :=
  ∀ k op b, .provider k op b ∈ tr → op ≠ .cleanup →
    ∃ a provided ps, b = some a ∧ .begun k a provided ps ∈ tr

theorem carried_step (links : Links tr s) (accounted : Accounted s) (carried : Carried tr)
    (live : AsksLive s (i, c)) (h : step .whole s (i, c) = some (s', ev)) :
    Carried (tr ++ ev) := by
  intro k op b hcalled hop
  rcases List.mem_append.mp hcalled with hcalled | hcalled
  · obtain ⟨a, provided, ps, hb, hbegun⟩ := carried k op b hcalled hop
    exact ⟨a, provided, ps, hb, List.mem_append_left _ hbegun⟩
  rcases step_provider h hcalled hop with ⟨a, ps, hb, hbegun⟩ | ⟨f, rest, r, hstack, hasks, rfl, rfl⟩
  · exact ⟨a, true, ps, hb, List.mem_append_right _ hbegun⟩
  -- the slot is not retired, so it still has the block that its operation was begun with
  have hlive := live _ hstack f rfl r hasks
  have hslot := (Frame.inside_of_asks hasks).1
  have hused := frame_used accounted.audit (List.mem_of_getElem? hstack) List.mem_cons_self
    (.inl hslot)
  obtain ⟨a, ha⟩ := Option.isSome_iff_exists.mp ((accounted.audit.sound.retired r hused).mp hlive)
  obtain ⟨provided, ps, hbegun⟩ := links.begun r a ha
  exact ⟨a, provided, ps, ha, List.mem_append_left _ hbegun⟩

theorem asks_retired (accounted : Accounted s) (retired : ¬ AsksLive s (i, c))
    (h : step .whole s (i, c) = some (s', ev)) :
    ∃ k op, op ≠ .cleanup ∧ .provider k op none ∈ ev := by
  simp only [AsksLive, not_forall] at retired
  obtain ⟨stack, hstack, f, hf, r, hasks, hretired⟩ := retired
  obtain ⟨rest, rfl⟩ : ∃ rest, stack = f :: rest := by
    cases stack with
    | nil => cases hf
    | cons x rest => exact ⟨rest, by rw [Option.some.inj hf]⟩
  have hslot := (Frame.inside_of_asks hasks).1
  have hused := frame_used accounted.audit (List.mem_of_getElem? hstack) List.mem_cons_self
    (.inl hslot)
  have hnone : (s.memory.slots r).block = none := by
    have hsound := accounted.audit.sound.retired r hused
    by_contra hsome
    exact hretired (hsound.mpr (Option.isSome_iff_ne_none.mpr hsome))
  obtain ⟨op, hop, rfl⟩ := asks_called hstack hasks h
  exact ⟨s.memory.serial r, op, hop, by simp [hnone]⟩

/-- In a run in which no provider is asked about an operation that was retired, every call of a
provider, other than for cleanup, carries the block that the operation was begun on; a step of any
run that does ask about a retired operation carries none. -/
theorem provider_calls_carry_block {threads : ℕ} :
    (∀ tr (s : AsyncThreads Op), Reaches (step .whole) AsksLive (start threads) tr s →
      Carried tr) ∧
    ∀ tr (s : AsyncThreads Op), Reaches (step .whole) always (start threads) tr s →
      ∀ i c s' ev, ¬ AsksLive s (i, c) → step .whole s (i, c) = some (s', ev) →
        ∃ k op, op ≠ .cleanup ∧ .provider k op none ∈ ev := by
  constructor
  · intro tr s h
    have hall : Accounted s ∧ Serials tr s ∧ Links tr s ∧ Carried tr := by
      refine h.invariant (P := fun tr s => Accounted s ∧ Serials tr s ∧ Links tr s ∧ Carried tr)
        ⟨accounted_start threads, serials_start threads, links_start threads, ?_⟩ ?_
      · intro k op b hcalled
        cases hcalled
      · rintro tr s ⟨i, c⟩ t ev ⟨haccounted, hserials, hlinks, hcarried⟩ hlive hstep
        exact ⟨haccounted.step hstep,
          hserials.step haccounted.audit (haccounted.ready i c) hstep,
          hlinks.step hserials haccounted hstep,
          carried_step hlinks haccounted hcarried hlive hstep⟩
    exact hall.2.2.2
  · intro tr s h i c s' ev hretired hstep
    exact asks_retired (reaches_accounted h) hretired hstep

section Run

/-- An operation with a provider is begun, and its work is scheduled. -/
def scheduleWork : List (ℕ × Choice Unit) :=
  [(0, .call (.createQueue .manual .manual) {}), (0, .go {}),
    (0, .call (.prepare 0 (some 0) none) {}),
    (0, .call (.providerBegin (some 0) 9 none (some 3)) {}), (0, .answer (.code S_OK)), (0, .go {}),
    (0, .call (.query (some 0) (.schedule 0)) {}), (0, .go {}), (0, .go {}), (0, .go {})]

/-- The work is dispatched, the operation completed and its result asked for. -/
def takeResult : List (ℕ × Choice Unit) :=
  [(0, .call (.work 0) {}), (0, .go {}), (0, .answer (.code S_OK)), (0, .go {}),
    (0, .call (.query (some 0) (.complete S_OK 0)) {}), (0, .go {}), (0, .go {}), (0, .go {}),
    (0, .go {}), (0, .go {}), (0, .call (.query (some 0) (.result none 0 false)) {}), (0, .go {})]

/-- The operation is canceled first. -/
def cancelScheduled : List (ℕ × Choice Unit) :=
  [(0, .call (.query (some 0) .cancel) {}), (0, .go {}), (0, .go {}), (0, .go {}), (0, .go {}),
    (0, .go {}), (0, .go {}), (0, .go {}), (0, .call (.work 0) {})]

theorem takeResult_trace :
    (execute (step .whole) (start 1) (scheduleWork ++ takeResult)).map Prod.snd =
      some [.returned .queue (.flag true), .begun 0 0 true (some 0, some 1),
        .provider 0 .begin (some 0), .returned (.providerBegin (some 0)) (.code S_OK), .found 0,
        .queued 0 .doWork 0, .returned (.query (some 0) (.schedule 0) (some 0)) (.code S_OK),
        .ran 0 .doWork 0, .provider 0 .doWork (some 0), .found 0, .finished 0 S_OK,
        .returned (.query (some 0) (.complete S_OK 0) (some 0)) (.code S_OK), .found 0,
        .provider 0 .getResult (some 0)] := by
  decide

theorem cancelScheduled_trace :
    (execute (step .whole) (start 1) (scheduleWork ++ cancelScheduled)).map
        (fun last => (last.2, decide (AsksLive last.1 (0, (.go {} : Choice Unit))),
          (step .whole last.1 (0, .go {})).map Prod.snd)) =
      some ([.returned .queue (.flag true), .begun 0 0 true (some 0, some 1),
          .provider 0 .begin (some 0), .returned (.providerBegin (some 0)) (.code S_OK), .found 0,
          .queued 0 .doWork 0, .returned (.query (some 0) (.schedule 0) (some 0)) (.code S_OK),
          .found 0, .finished 0 E_ABORT, .retired 0,
          .returned (.query (some 0) .cancel (some 0)) (.code S_OK), .ran 0 .doWork 0],
        false, some [.provider 0 .doWork none]) := by
  decide

set_option maxRecDepth 2000 in
/-- The two halves, on the run that takes the result and on the one that cancels. -/
theorem provider_calls_carry_block_scheduled :
    (∃ (s : AsyncThreads Unit) (tr : List Event),
      Reaches (step .whole) AsksLive (start 1) tr s ∧ .provider 0 .getResult (some 0) ∈ tr ∧
        Carried tr) ∧
    ∃ (s s' : AsyncThreads Unit) (ev : List Event), step .whole s (0, .go {}) = some (s', ev) ∧
      ∃ k op, op ≠ .cleanup ∧ .provider k op none ∈ ev := by
  constructor
  · obtain ⟨⟨s, tr⟩, hrun, htr⟩ := Option.map_eq_some_iff.mp takeResult_trace
    dsimp only at htr
    subst htr
    have h : Reaches (step .whole) AsksLive (start 1) _ s := reaches_of_execute _ hrun (by decide)
    exact ⟨s, _, h, by simp, provider_calls_carry_block.1 _ s h⟩
  · obtain ⟨⟨s, tr⟩, hrun, hlast⟩ := Option.map_eq_some_iff.mp cancelScheduled_trace
    simp only [Prod.mk.injEq, decide_eq_false_iff_not, Option.map_eq_some_iff, Prod.exists] at hlast
    obtain ⟨-, hretired, s', ev, hstep, -⟩ := hlast
    exact ⟨s, s', ev, hstep,
      provider_calls_carry_block.2 tr s (reaches_of_run hrun) 0 _ s' ev hretired hstep⟩

/-- Work that is dispatched after the operation was canceled reaches the provider with no block. -/
theorem canceled_work_has_no_block :
    ¬ ∀ (tr : List Event) (s : AsyncThreads Unit), Reaches (step .whole) always (start 1) tr s →
      ∀ k op b, .provider k op b ∈ tr → op ≠ .cleanup →
        ∃ a provided ps, b = some a ∧ .begun k a provided ps ∈ tr := by
  intro hclaim
  obtain ⟨⟨s, tr⟩, hrun, hlast⟩ := Option.map_eq_some_iff.mp cancelScheduled_trace
  simp only [Prod.mk.injEq, Option.map_eq_some_iff, Prod.exists] at hlast
  obtain ⟨-, -, s', ev, hstep, rfl⟩ := hlast
  have h : Reaches (step .whole) always (start 1) _ s' :=
    .next (reaches_of_run hrun) trivial hstep
  obtain ⟨a, -, -, ha, -⟩ := hclaim _ s' h 0 .doWork none (by simp) (by decide)
  cases ha

end Run

end AsyncThreads

end IW4x.Gdk
