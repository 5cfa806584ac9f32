import IW4x.Gdk.Completions

/-!
# Who gets the result

`take_result` asks whether the operation is completed, gets the result from the operation or from its
provider, and retires the operation afterwards. The flag that `retire` sets is asked by nobody else. So
two calls that have both found the operation both get its result, one beside the other or one after the
other.
-/

namespace IW4x.Gdk

open Runs

variable {Op : Type}

/-- The call asks for the result. -/
def Query.takes : Query → Bool
  | .result .. => true
  | _ => false

def Reply.succeeds : Reply → Bool
  | .code hr => succeeded hr
  | .size hr _ => succeeded hr
  | .flag _ => false

/-- A call for the result of the operation has got it, or is getting it, and still has its slot. -/
def Frame.delivering : Frame → Option SlotId
  | .resulting _ _ r => some r
  | .gettingResult _ _ r => some r
  | .retire r _ q reply => if q.takes && reply.succeeds then some r else none
  | _ => none

/-- A call for the result of the operation is done, and is going to answer that it has got it. -/
def Frame.delivered : Frame → Option ℕ
  | .returns (.query (some _) q (some k)) reply =>
    if q.takes && reply.succeeds then some k else none
  | _ => none

/-- The caller is told that it has got the result of the operation. -/
def Event.delivered : Event → Option ℕ
  | .returned (.query (some _) q (some k)) reply =>
    if q.takes && reply.succeeds then some k else none
  | _ => none

def Event.delivers (k : ℕ) (e : Event) : Bool := e.delivered = some k

def Frame.inDelivery (i : SlotId) (f : Frame) : ℕ := if f.delivering = some i then 1 else 0

def Frame.hasDelivered (k : ℕ) (f : Frame) : ℕ := if f.delivered = some k then 1 else 0

/-- The call of the activation is about to get the result of the operation. -/
def Frame.starts (m : Memory Op) : Frame → Option SlotId
  | .found _ (.result id _ _) r =>
    let s := m.slots r
    if s.completed = true ∧ succeeded s.status = true ∧ ¬ (id.isSome ∧ s.id ≠ id) then some r
    else none
  | _ => none

theorem Frame.starts_slot {m : Memory Op} {f : Frame} {r : SlotId} (starts : f.starts m = some r) :
    f.slot = some r := by
  unfold Frame.starts at starts
  split at starts
  · dsimp only at starts
    split_ifs at starts
    exact starts
  · cases starts

namespace AsyncThreads

/-- The calls that have got the result of the operation of slot `r`, or are getting it. -/
def deliveries (tr : List Event) (s : AsyncThreads Op) (r : SlotId) : ℕ :=
  Stacks.total (Frame.inDelivery r) s.threads +
    Stacks.total (Frame.hasDelivered (s.memory.serial r)) s.threads +
      tr.countP (Event.delivers (s.memory.serial r))

/-- A call that is about to get the result of an operation finds that it is not retired, and that no
other call is getting it. -/
def TakesAlone (s : AsyncThreads Op) (input : ℕ × Choice Op) : Prop :=
  ∀ f rest r, s.threads[input.1]? = some (f :: rest) → f.starts s.memory = some r →
    (s.memory.slots r).retired = false ∧ Stacks.total (Frame.inDelivery r) s.threads = 0

end AsyncThreads

/-! ## What a step does to the deliveries -/

theorem Frame.inDelivery_le (i : SlotId) (f : Frame) : f.inDelivery i ≤ f.holds i := by
  unfold inDelivery holds
  cases f with
  | retire r b q reply =>
    simp only [delivering, slot]
    split_ifs <;> simp_all
  | _ => simp [delivering, slot]

/-- What a step means for the deliveries: it makes none and at most ends some, or a call for a result
retires the operation and settles its answer, or a call starts to get the result. -/
inductive DeliveryStep (m : Memory Op) : List Frame → List Frame → List Event → Prop
  | keeps {old new ev}
      (going : ∀ i, Stacks.weight (Frame.inDelivery i) new ≤ Stacks.weight (Frame.inDelivery i) old)
      (done : ∀ k, Stacks.weight (Frame.hasDelivered k) new + ev.countP (Event.delivers k) ≤
        Stacks.weight (Frame.hasDelivered k) old) : DeliveryStep m old new ev
  | settles {f r new ev} (slot : f.slot = some r)
      (going : ∀ i, Stacks.weight (Frame.inDelivery i) new = 0)
      (done : ∀ k, Stacks.weight (Frame.hasDelivered k) new =
        if m.serial r = k then f.inDelivery r else 0)
      (none : ∀ k, ev.countP (Event.delivers k) = 0)
      (retired : (m.slots r).retired = true ∨ .retired (m.serial r) ∈ ev) :
      DeliveryStep m [f] new ev
  | starts {f r new ev} (slot : f.slot = some r) (starts : f.starts m = some r)
      (going : ∀ i, Stacks.weight (Frame.inDelivery i) new ≤ if r = i then 1 else 0)
      (done : ∀ k, Stacks.weight (Frame.hasDelivered k) new = 0)
      (none : ∀ k, ev.countP (Event.delivers k) = 0) : DeliveryStep m [f] new ev

section Steps

variable {g : Granularity} {m n : Memory Op} {c : Choice Op} {old new : List Frame}
  {ev : List Event}

/-- The activation has nothing to do with the delivery of a result. -/
def Frame.apart (f : Frame) : Prop := f.delivering = none ∧ f.delivered = none

theorem weight_apart {fs : List Frame} (apart : ∀ f ∈ fs, f.apart) :
    (∀ i, Stacks.weight (Frame.inDelivery i) fs = 0) ∧
      ∀ k, Stacks.weight (Frame.hasDelivered k) fs = 0 := by
  constructor
  · intro i
    rw [Stacks.weight_eq_zero_iff]
    intro f hf
    simp [Frame.inDelivery, (apart f hf).1]
  · intro k
    rw [Stacks.weight_eq_zero_iff]
    intro f hf
    simp [Frame.hasDelivered, (apart f hf).2]

theorem DeliveryStep.quiet (apart : ∀ f ∈ new, f.apart)
    (quiet : ∀ k, ev.countP (Event.delivers k) = 0) : DeliveryStep m old new ev := by
  obtain ⟨hgoing, hdone⟩ := weight_apart apart
  refine .keeps ?_ ?_
  · intro i
    rw [hgoing]
    exact Nat.zero_le _
  · intro k
    rw [hdone, quiet]
    exact Nat.zero_le _

theorem apart_plain {fs : List Frame} (plain : ∀ f ∈ fs, f.plain) : ∀ f ∈ fs, f.apart := by
  intro f hf
  obtain ⟨⟨hslot, -⟩, -, hanswers⟩ := plain f hf
  cases f with
  | returns src reply =>
    refine ⟨rfl, ?_⟩
    cases src with
    | query b q k =>
      obtain rfl : k = none := hanswers
      cases b <;> rfl
    | _ => rfl
  | _ => first | exact ⟨rfl, rfl⟩ | cases hslot

theorem apart_frames (t : Task) (canceled : Bool) : ∀ f ∈ t.frames canceled, f.apart := by
  cases t <;> simp [Task.frames, Frame.apart, Frame.delivering, Frame.delivered]

theorem apart_settle {r : SlotId} {b : BlockId} {q : Query} {reply : Reply}
    (other : (q.takes && reply.succeeds) = false) : ∀ f ∈ m.settle r b q reply, f.apart := by
  simpa [Memory.settle, Frame.apart, Frame.delivering, Frame.delivered] using other

theorem apart_after {r : SlotId} {next : Next}
    (other : ∀ q, next.query = some q → q.takes = false) : ∀ f ∈ m.after r next, f.apart := by
  cases next with
  | task => simp [Memory.after, Frame.apart, Frame.delivering, Frame.delivered]
  | complete b q => exact apart_settle (by rw [other q rfl]; rfl)
  | cancel b q => simp [Memory.after, Frame.apart, Frame.delivering, Frame.delivered, other q rfl]

theorem quiet_ran (p : PortId) (t : Task) (k : ℕ) :
    (m.ranEvents p t).countP (Event.delivers k) = 0 := by
  cases t <;> simp [Memory.ranEvents, Event.delivers, Event.delivered]

@[simp] theorem taken_succeeds (q : Query) (hr : HResult) (size : ℕ) :
    (q.taken hr size).succeeds = succeeded hr := by
  unfold Query.taken
  split
  · split_ifs with h
    · rfl
    · rfl
  · rfl

/-- The call whose `finish` the activation is in. -/
def Frame.completes : Frame → Option Query
  | .finish _ _ _ next => next.query
  | .publish _ _ next => next.query
  | _ => none

/-- Nobody asks for a result by way of `finish`. -/
def Frame.proper (f : Frame) : Prop := ∀ q, f.completes = some q → q.takes = false

theorem proper_of {f : Frame} (other : f.completes = none) : f.proper := by
  intro q hq
  rw [other] at hq
  cases hq

theorem proper_completes {f : Frame} {q : Query} (completes : f.completes = some q)
    (other : q.takes = false) : f.proper := by
  intro q' hq'
  obtain rfl : q = q' := Option.some.inj (completes.symm.trans hq')
  exact other

theorem quiet_of (other : ev.filterMap Event.delivered = []) (k : ℕ) :
    ev.countP (Event.delivers k) = 0 := by
  rw [List.countP_eq_zero]
  intro e he
  simp [Event.delivers, List.filterMap_eq_nil_iff.mp other e he]

/-- A step deals with deliveries as it may, and what it puts on the stack is in order. -/
structure Delivers (m : Memory Op) (old new : List Frame) (ev : List Event) : Prop where
  step : DeliveryStep m old new ev
  proper : ∀ f ∈ new, f.proper

theorem proper_other {fs : List Frame} (other : ∀ f ∈ fs, f.completes = none) :
    ∀ f ∈ fs, f.proper := fun f hf => proper_of (other f hf)

theorem proper_plain {fs : List Frame} (plain : ∀ f ∈ fs, f.plain) : ∀ f ∈ fs, f.proper := by
  refine proper_other fun f hf => ?_
  have hslot := (plain f hf).1.1
  cases f <;> first | rfl | cases hslot

theorem proper_frames (t : Task) (canceled : Bool) : ∀ f ∈ t.frames canceled, f.proper := by
  refine proper_other ?_
  cases t <;> simp [Task.frames, Frame.completes]

theorem proper_after {r : SlotId} {next : Next} : ∀ f ∈ m.after r next, f.proper := by
  refine proper_other ?_
  cases next <;> simp [Memory.after, Memory.settle, Frame.completes]

theorem proper_settle {r : SlotId} {b : BlockId} {q : Query} {reply : Reply} :
    ∀ f ∈ m.settle r b q reply, f.proper :=
  proper_other (by simp [Memory.settle, Frame.completes])

theorem Effect.delivers_call (effect : Effect g m c [] n new ev) : Delivers m [] new ev := by
  cases effect with
  | manage _ _ plain => exact ⟨.quiet (apart_plain plain) (quiet_of rfl), proper_plain plain⟩
  | adjusts _ _ plain => exact ⟨.quiet (apart_plain plain) (quiet_of rfl), proper_plain plain⟩
  | took _ plain =>
    constructor
    · refine .quiet ?_ (quiet_ran _ _)
      intro f hf
      rcases List.mem_append.mp hf with hf | hf
      · exact apart_frames _ _ f hf
      · exact apart_plain plain f hf
    · intro f hf
      rcases List.mem_append.mp hf with hf | hf
      · exact proper_frames _ _ f hf
      · exact proper_plain plain f hf
  | _ =>
    exact ⟨.quiet (by simp [Frame.apart, Frame.delivering, Frame.delivered]) (quiet_of rfl),
      proper_other (by simp [Frame.completes])⟩

/-- The activation on top of the stack settles an answer, or hands it on, and has no part in a
delivery. -/
theorem Delivers.quiet (apart : ∀ f ∈ new, f.apart) (proper : ∀ f ∈ new, f.proper)
    (quiet : ∀ k, ev.countP (Event.delivers k) = 0) : Delivers m old new ev :=
  ⟨.quiet apart quiet, proper⟩

theorem Delivers.other (delivering : new.filterMap Frame.delivering = [])
    (delivered : new.filterMap Frame.delivered = []) (completes : new.filterMap Frame.completes = [])
    (quiet : ev.filterMap Event.delivered = []) : Delivers m old new ev := by
  rw [List.filterMap_eq_nil_iff] at delivering delivered completes
  refine .quiet ?_ (proper_other completes) (quiet_of quiet)
  exact fun f hf => ⟨delivering f hf, delivered f hf⟩

theorem Delivers.goes {f : Frame} (apart : f.apart) (proper : f.proper)
    (quiet : ∀ k, ev.countP (Event.delivers k) = 0) : Delivers m old [f] ev :=
  .quiet (List.forall_mem_singleton.mpr apart) (List.forall_mem_singleton.mpr proper) quiet

theorem Delivers.settle {r : SlotId} {b : BlockId} {q : Query} {reply : Reply}
    (other : (q.takes && reply.succeeds) = false) (quiet : ∀ k, ev.countP (Event.delivers k) = 0) :
    Delivers m old (m.settle r b q reply) ev :=
  .quiet (apart_settle other) proper_settle quiet

theorem Delivers.begins {f f' : Frame} {r : SlotId} (slot : f.slot = some r)
    (starts : f.starts m = some r) (going : f'.delivering = none ∨ f'.delivering = some r)
    (done : f'.delivered = none) (proper : f'.proper)
    (none : ∀ k, ev.countP (Event.delivers k) = 0) : Delivers m [f] [f'] ev := by
  refine ⟨.starts slot starts ?_ ?_ none, List.forall_mem_singleton.mpr proper⟩
  · intro i
    rcases going with hgoing | hgoing <;> simp [Frame.inDelivery, hgoing]
  · intro k
    simp [Frame.hasDelivered, done]

/-- A call that has found its operation. -/
theorem Memory.foundStep_delivers {e : Env} {b : BlockId} {q : Query} {r : SlotId}
    (h : m.foundStep e b q r = .next n new ev) : Delivers m [.found b q r] new ev := by
  have hquiet : ∀ k, ([] : List Event).countP (Event.delivers k) = 0 := fun _ => rfl
  cases q with
  | result id size used =>
    simp only [foundStep] at h
    split_ifs at h with hcompleted hsucceeded hid hoperation hprovider <;> cases h
    · exact .settle (show (true && succeeded pending) = false by decide) hquiet
    · exact .settle (show (true && succeeded E_INVALIDARG) = false by decide) hquiet
    · refine .begins rfl ?_ (.inr rfl) rfl (proper_of rfl) hquiet
      exact if_pos ⟨by simpa using hcompleted, hsucceeded, hid⟩
    · refine .begins rfl ?_ (.inr rfl) rfl (proper_of rfl) (quiet_of rfl)
      exact if_pos ⟨by simpa using hcompleted, hsucceeded, hid⟩
    · refine .begins rfl ?_ (.inr ?_) rfl (proper_of rfl) hquiet
      · exact if_pos ⟨by simpa using hcompleted, hsucceeded, hid⟩
      · have hnot : failed (m.slots r).status = false := by simpa using hsucceeded
        simp [Frame.delivering, Query.takes, hnot]
    · refine .goes ⟨?_, rfl⟩ (proper_of rfl) hquiet
      simpa [Frame.delivering, Query.takes] using hsucceeded
  | resultSize out =>
    simp only [foundStep] at h
    split_ifs at h <;> cases h <;> exact .settle rfl hquiet
  | status wait =>
    cases wait with
    | true =>
      cases h
      exact .goes ⟨rfl, rfl⟩ (proper_of rfl) hquiet
    | false =>
      cases h
      exact .settle rfl hquiet
  | cancel =>
    simp only [foundStep] at h
    split_ifs at h <;> cases h
    · exact .goes ⟨rfl, rfl⟩ (proper_completes rfl rfl) hquiet
    · exact .goes ⟨rfl, rfl⟩ (proper_of rfl) hquiet
  | pendingOperation id =>
    cases h
    exact .settle rfl hquiet
  | schedule delay =>
    simp only [foundStep] at h
    repeat' split at h
    all_goals cases h
    all_goals first
      | exact .settle rfl (quiet_of rfl)
      | exact .quiet (List.forall_mem_cons.mpr ⟨⟨rfl, rfl⟩, apart_settle rfl⟩)
          (List.forall_mem_cons.mpr ⟨proper_of rfl, proper_settle⟩) (quiet_of rfl)
  | complete hr size =>
    cases h
    exact .goes ⟨rfl, rfl⟩ (proper_completes rfl rfl) hquiet

theorem Delivers.retires {r : SlotId} {b : BlockId} {q : Query} {reply : Reply} {l : List Frame}
    (apart : ∀ f ∈ l, f.apart) (proper : ∀ f ∈ l, f.proper)
    (none : ∀ k, ev.countP (Event.delivers k) = 0)
    (retired : (m.slots r).retired = true ∨ .retired (m.serial r) ∈ ev) :
    Delivers m [.retire r b q reply] (l ++ m.settle r b q reply) ev := by
  obtain ⟨hgoing, hdone⟩ := weight_apart apart
  refine ⟨.settles (r := r) rfl ?_ ?_ none retired, ?_⟩
  · intro i
    rw [Stacks.weight_append, hgoing]
    simp [Memory.settle, Frame.inDelivery, Frame.delivering]
  · intro k
    rw [Stacks.weight_append, hdone]
    cases hsucceeds : (q.takes && reply.succeeds) <;>
      simp [Memory.settle, Frame.hasDelivered, Frame.inDelivery, Frame.delivering, Frame.delivered,
        hsucceeds]
  · intro f hf
    rcases List.mem_append.mp hf with hf | hf
    · exact proper f hf
    · exact proper_settle f hf

/-- The activation on top goes on. -/
theorem Memory.go_delivers {e : Env} {f : Frame} (proper : f.proper)
    (h : m.go e f = some (.next n new ev)) : Delivers m [f] new ev := by
  have hquiet : ∀ k, ([] : List Event).countP (Event.delivers k) = 0 := fun _ => rfl
  cases f with
  | found b q r => exact foundStep_delivers (Option.some.inj h)
  | waiting b r =>
    simp only [go] at h
    split_ifs at h
    cases h
    exact .settle rfl hquiet
  | finish r hr size next =>
    simp only [go] at h
    repeat' split at h
    all_goals cases h
    all_goals first
      | exact .quiet (apart_after proper) proper_after (quiet_of rfl)
      | exact .goes ⟨rfl, rfl⟩ proper (quiet_of rfl)
  | publish r a next =>
    simp only [go, publishStep, Option.some.injEq] at h
    repeat' split at h
    all_goals cases h
    all_goals first
      | exact .quiet (apart_after proper) proper_after (quiet_of rfl)
      | exact .quiet (List.forall_mem_cons.mpr ⟨⟨rfl, rfl⟩, apart_after proper⟩)
          (List.forall_mem_cons.mpr ⟨proper_of rfl, proper_after⟩) (quiet_of rfl)
  | retire r b q reply =>
    simp only [go] at h
    split_ifs at h with hretired <;> cases h
    · exact .retires (l := []) (by simp) (by simp) hquiet (.inl hretired)
    · exact .retires (l := [.release r .block])
        (List.forall_mem_singleton.mpr ⟨rfl, rfl⟩) (List.forall_mem_singleton.mpr (proper_of rfl))
        (quiet_of rfl) (.inr (List.mem_singleton_self _))
  | drain p =>
    simp only [go, dispatch, Option.some.injEq] at h
    split at h
    · cases h
      exact .quiet (List.forall_mem_nil _) (List.forall_mem_nil _) hquiet
    · cases h
      refine .quiet ?_ ?_ (quiet_ran _ _)
      · exact List.forall_mem_append.mpr ⟨apart_frames _ _, List.forall_mem_singleton.mpr ⟨rfl, rfl⟩⟩
      · exact List.forall_mem_append.mpr ⟨proper_frames _ _,
          List.forall_mem_singleton.mpr (proper_of rfl)⟩
  | run r w canceled =>
    simp only [go, runStep, Option.some.injEq] at h
    repeat' split at h
    all_goals cases h
    all_goals exact .other rfl rfl rfl rfl
  | returns src reply =>
    cases h
    refine ⟨.keeps (fun i => by simp) fun k => ?_, List.forall_mem_nil _⟩
    cases src with
    | query b q k' =>
      cases b <;> cases k' <;>
        simp [Frame.hasDelivered, Frame.delivered, Event.delivers, Event.delivered,
          List.countP_singleton]
    | _ => simp [Frame.hasDelivered, Frame.delivered, Event.delivers, Event.delivered]
  | _ =>
    simp only [go] at h
    repeat' split at h
    all_goals cases h
    all_goals exact .other rfl rfl rfl rfl

theorem Delivers.got {f : Frame} {r : SlotId} {b : BlockId} {q : Query} {reply : Reply}
    (delivering : f.delivering = some r) : Delivers m [f] [.retire r b q reply] [] := by
  refine ⟨.keeps ?_ ?_, List.forall_mem_singleton.mpr (proper_of rfl)⟩
  · intro i
    simp only [Stacks.weight_cons, Stacks.weight_nil, Frame.inDelivery, delivering]
    cases hsucceeds : (q.takes && reply.succeeds) <;> simp [Frame.delivering, hsucceeds]
  · intro k
    simp [Frame.hasDelivered, Frame.delivered]

theorem Memory.answer_delivers {f : Frame} {a : Answer} (h : m.answer f a = some (.next n new ev)) :
    Delivers m [f] new ev := by
  unfold answer at h
  repeat' split at h
  all_goals cases h
  all_goals first
    | exact .got rfl
    | exact .other rfl rfl rfl rfl

end Steps

namespace AsyncThreads

variable {s s' : AsyncThreads Op} {i : ℕ} {c : Choice Op} {tr ev : List Event}

theorem step_delivers (proper : ∀ stack ∈ s.threads, ∀ f ∈ stack, f.proper)
    (h : step .whole s (i, c) = some (s', ev)) :
    (∃ fault, s' = { s with ended := true } ∧ ev = [.ended fault]) ∨
      ∃ old rest new n, s.threads[i]? = some (old ++ rest) ∧
        Effect .whole s.memory c old n new ev ∧ Delivers s.memory old new ev ∧
        s' = { s with memory := n, threads := s.threads.set i (new ++ rest) } := by
  rcases step_moves h with hended | ⟨old, rest, new, n, hstack, rfl, ⟨x, e, rfl, rfl, -, hcall⟩ |
    ⟨f, a, rfl, rfl, hanswer⟩ | ⟨f, e, rfl, rfl, hgo⟩⟩
  · exact .inl hended
  · have heffect := Memory.call_effect hcall
    exact .inr ⟨[], rest, new, n, hstack, heffect, heffect.delivers_call, rfl⟩
  · exact .inr ⟨[f], rest, new, n, hstack, Memory.answer_effect hanswer,
      Memory.answer_delivers hanswer, rfl⟩
  · have hproper := proper _ (List.mem_of_getElem? hstack) f List.mem_cons_self
    exact .inr ⟨[f], rest, new, n, hstack, Memory.go_effect hgo, Memory.go_delivers hproper hgo, rfl⟩

/-- The ledger of deliveries: the result of an operation was got, or is being got, by one call at
most. -/
structure DeliveredOnce (tr : List Event) (s : AsyncThreads Op) : Prop where
  proper : ∀ stack ∈ s.threads, ∀ f ∈ stack, f.proper
  slots : ∀ r : SlotId, (r : ℕ) < s.memory.used → deliveries tr s r ≤ 1
  past : ∀ k, (∀ r : SlotId, (r : ℕ) < s.memory.used → s.memory.serial r ≠ k) →
    Stacks.total (Frame.hasDelivered k) s.threads + tr.countP (Event.delivers k) ≤ 1
  retired : ∀ k, Stacks.total (Frame.hasDelivered k) s.threads + tr.countP (Event.delivers k) ≠ 0 →
    .retired k ∈ tr

theorem deliveredOnce_start (threads : ℕ) :
    DeliveredOnce [] (start threads : AsyncThreads Op) := by
  constructor
  · intro stack hmem f hf
    rw [(List.mem_replicate.mp hmem).2] at hf
    cases hf
  · intro r hr
    simp [start, Memory.start] at hr
  · intro k _
    simp [start]
  · intro k hne
    simp [start] at hne

theorem DeliveredOnce.deliveries_eq_zero (once : DeliveredOnce tr s) (links : Links tr s) {r : SlotId}
    (hr : (r : ℕ) < s.memory.used) (live : (s.memory.slots r).retired = false)
    (nobody : Stacks.total (Frame.inDelivery r) s.threads = 0) : deliveries tr s r = 0 := by
  have hnot : .retired (s.memory.serial r) ∉ tr := by
    intro hretired
    rw [(links.retired r hr).mpr hretired] at live
    cases live
  by_contra hne
  simp only [deliveries, nobody, Nat.zero_add] at hne
  exact hnot (once.retired _ hne)

theorem DeliveredOnce.effect (once : DeliveredOnce tr s) {old rest new : List Frame} {n : Memory Op}
    (hstack : s.threads[i]? = some (old ++ rest))
    (distinct : ∀ x y : SlotId, (x : ℕ) < s.memory.used → (y : ℕ) < s.memory.used →
      s.memory.serial x = s.memory.serial y → x = y)
    (used : ∀ f ∈ old, ∀ r, f.slot = some r → (r : ℕ) < s.memory.used)
    (told : ∀ f ∈ old, ∀ r, f.slot = some r → (s.memory.slots r).retired = true →
      .retired (s.memory.serial r) ∈ tr)
    (labels : SameLabels s.memory n) (delivers : Delivers s.memory old new ev)
    (alone : ∀ f r, old = [f] → f.starts s.memory = some r → deliveries tr s r = 0) :
    DeliveredOnce (tr ++ ev) { s with memory := n, threads := s.threads.set i (new ++ rest) } := by
  have hgoing := fun x => total_moved (Frame.inDelivery x) new hstack
  have hdone := fun k => total_moved (Frame.hasDelivered k) new hstack
  have hused : ∀ x : SlotId, (x : ℕ) < n.used → (x : ℕ) < s.memory.used := fun x hx =>
    labels.used ▸ hx
  have hpast : ∀ k, (∀ x : SlotId, (x : ℕ) < n.used → n.serial x ≠ k) →
      ∀ x : SlotId, (x : ℕ) < s.memory.used → s.memory.serial x ≠ k := by
    intro k hnot x hx
    rw [← labels.serial]
    exact hnot x (labels.used.symm ▸ hx)
  refine ⟨frames_moved hstack once.proper delivers.proper, ?_, ?_, ?_⟩
  · intro x hx
    have hx := hused x hx
    have hold := once.slots x hx
    have hx₁ := (hgoing x).1
    have hx₂ := (hgoing x).2
    have hx₃ := (hdone (s.memory.serial x)).1
    have hx₄ := (hdone (s.memory.serial x)).2
    simp only [deliveries] at hold ⊢
    rw [labels.serial, hx₂, hx₄, List.countP_append]
    cases delivers.step with
    | keeps going done =>
      have := going x
      have := done (s.memory.serial x)
      omega
    | @settles f r _ _ slot going done none _ =>
      have hr := used f (List.mem_singleton_self f) r slot
      rw [going, done, none, at_serial (fun _ => hr) distinct hx]
      simp only [Stacks.weight_cons, Stacks.weight_nil] at hx₁ hx₃ ⊢
      by_cases hrx : r = x
      · subst hrx
        rw [if_pos rfl]
        omega
      · rw [if_neg hrx]
        omega
    | @starts f r _ _ slot starts going done none =>
      have hr := used f (List.mem_singleton_self f) r slot
      have hzero := alone f r rfl starts
      simp only [deliveries] at hzero
      have := going x
      rw [done, none]
      by_cases hrx : r = x
      · subst hrx
        rw [if_pos rfl] at this
        omega
      · rw [if_neg hrx] at this
        omega
  · intro k hnot
    have hnot := hpast k hnot
    have hold := once.past k hnot
    have hx₃ := (hdone k).1
    dsimp only
    rw [(hdone k).2, List.countP_append]
    cases delivers.step with
    | keeps going done =>
      have := done k
      omega
    | @settles f r _ _ slot going done none _ =>
      have hr := used f (List.mem_singleton_self f) r slot
      rw [done, none, if_neg (hnot r hr)]
      omega
    | starts _ _ _ done none =>
      rw [done, none]
      omega
  · intro k hne
    have hx₃ := (hdone k).1
    dsimp only at hne
    rw [(hdone k).2, List.countP_append] at hne
    -- who had got it before had it retired; otherwise it is this step that hands it on
    by_cases hold : Stacks.total (Frame.hasDelivered k) s.threads + tr.countP (Event.delivers k) = 0
    · cases delivers.step with
      | keeps going done =>
        have := done k
        omega
      | @settles f r _ _ slot going done none retired =>
        rw [done, none] at hne
        have hserial : s.memory.serial r = k := by
          by_contra hother
          rw [if_neg hother] at hne
          omega
        subst hserial
        rcases retired with hretired | hretired
        · exact List.mem_append_left _ (told f (List.mem_singleton_self f) r slot hretired)
        · exact List.mem_append_right _ hretired
      | starts _ _ _ done none =>
        rw [done, none] at hne
        omega
    · exact List.mem_append_left _ (once.retired k hold)

/-- Nobody has got the result of an operation that is still to be begun. -/
theorem undelivered_unborn (serials : Serials tr s) (links : Links tr s) {k : ℕ}
    (hk : s.memory.acquired ≤ k) :
    Stacks.total (Frame.hasDelivered k) s.threads = 0 ∧ tr.countP (Event.delivers k) = 0 := by
  have hnot : ∀ b q reply, ¬ Answered tr b q k reply := by
    intro b q reply hanswered
    obtain ⟨p, ps, hbegun⟩ := hanswered.begun
    exact serials.unborn rfl hk hbegun
  constructor
  · rw [Stacks.total_eq_zero_iff]
    intro stack hmem f hf
    unfold Frame.hasDelivered
    refine if_neg fun hdelivered => ?_
    unfold Frame.delivered at hdelivered
    split at hdelivered
    · rename_i b q k' reply
      split_ifs at hdelivered
      obtain rfl : k' = k := Option.some.inj hdelivered
      exact hnot b q reply (links.answers stack hmem _ hf b q k' reply rfl)
    · cases hdelivered
  · rw [List.countP_eq_zero]
    intro e he hdelivers
    simp only [Event.delivers, decide_eq_true_eq] at hdelivers
    unfold Event.delivered at hdelivers
    split at hdelivers
    · rename_i b q k' reply
      split_ifs at hdelivers
      obtain rfl : k' = k := Option.some.inj hdelivers
      exact hnot b q reply (links.answered b q k' reply he)
    · cases hdelivers

theorem DeliveredOnce.handOut (once : DeliveredOnce tr s) (serials : Serials tr s)
    (accounted : Accounted s) (links : Links tr s) {a : BlockId} {q : QueueId} {r : SlotId}
    {n : Memory Op} {id : Option ℕ} {o : Option Op} {provider : Option ℕ} {context : ℕ}
    (began : Began s.memory a q r n id o provider context) :
    DeliveredOnce tr { s with memory := n } := by
  have hfresh := accounted.audit.sound.began_fresh began
  have hidle : s.count r = 0 := by
    obtain ⟨qs, acquired, -, hacquire, -⟩ := began
    exact (accounted.audit.sound.picked_idle (Memory.acquire_some hacquire)).1
  have hnobody : Stacks.total (Frame.inDelivery r) s.threads = 0 := by
    have hle := Stacks.total_mono (Frame.inDelivery_le r) s.threads
    simp only [count] at hidle
    omega
  refine ⟨once.proper, ?_, ?_, once.retired⟩
  · intro x hx
    by_cases hxr : x = r
    · subst hxr
      obtain ⟨hanswers, hanswered⟩ := undelivered_unborn serials links hfresh.serial.ge
      simp only [deliveries]
      rw [hnobody, hanswers, hanswered]
      exact Nat.zero_le _
    · have hold := once.slots x (((hfresh.used x).mp hx).resolve_left hxr)
      simpa only [deliveries, Memory.serial, hfresh.others x hxr] using hold
  · intro k hnot
    by_cases hold : (r : ℕ) < s.memory.used ∧ s.memory.serial r = k
    · obtain ⟨hr, rfl⟩ := hold
      have hle := once.slots r hr
      simp only [deliveries] at hle
      dsimp only
      omega
    · refine once.past k fun x hx heq => ?_
      by_cases hxr : x = r
      · exact hold ⟨hxr ▸ hx, hxr ▸ heq⟩
      · refine hnot x ((hfresh.used x).mpr (.inr hx)) ?_
        simpa only [Memory.serial, hfresh.others x hxr] using heq

theorem DeliveredOnce.step (once : DeliveredOnce tr s) (serials : Serials tr s)
    (accounted : Accounted s) (links : Links tr s)
    (alone : TakesAlone s (i, c)) (h : step .whole s (i, c) = some (s', ev)) :
    DeliveredOnce (tr ++ ev) s' := by
  rcases step_delivers once.proper h with ⟨fault, rfl, rfl⟩ |
    ⟨old, rest, new, n, hstack, heffect, hdelivers, rfl⟩
  · refine ⟨once.proper, ?_, ?_, ?_⟩
    · intro r hr
      simpa [deliveries, Event.delivers, Event.delivered] using once.slots r hr
    · intro k hnot
      simpa [Event.delivers, Event.delivered] using once.past k hnot
    · intro k hne
      refine List.mem_append_left _ (once.retired k ?_)
      simpa [Event.delivers, Event.delivered] using hne
  have hused : ∀ f ∈ old, ∀ r, f.slot = some r → (r : ℕ) < s.memory.used := fun f hf r hr =>
    frame_used accounted.audit (List.mem_of_getElem? hstack) (List.mem_append_left _ hf) (.inl hr)
  have htold : ∀ f ∈ old, ∀ r, f.slot = some r → (s.memory.slots r).retired = true →
      .retired (s.memory.serial r) ∈ tr := fun f hf r hr => (links.retired r (hused f hf r hr)).mp
  have halone : ∀ f r, old = [f] → f.starts s.memory = some r → deliveries tr s r = 0 := by
    rintro f r rfl hstarts
    obtain ⟨hlive, hnobody⟩ := alone f rest r hstack hstarts
    have hr := hused f (List.mem_singleton_self f) r (Frame.starts_slot hstarts)
    exact once.deliveries_eq_zero links hr hlive hnobody
  cases heffect.pool with
  | quiet labels => exact once.effect hstack serials.distinct hused htold labels hdelivers halone
  | disposed =>
    exact once.effect hstack serials.distinct hused htold (sameLabels_drop _ _) hdelivers halone
  | recycled =>
    exact once.effect hstack serials.distinct hused htold (sameLabels_recycle _ _) hdelivers halone
  | @began a q r n₀ id o provider context _ _ provided ev' began labels =>
    have hbegun := once.handOut serials accounted links began
    have hdistinct := fresh_distinct serials (accounted.audit.sound.began_fresh began)
    have hkeeps : DeliveryStep n₀ [] new
        (.begun (n.serial r) a provided (n₀.slots r).ports :: ev') := by
      cases hdelivers.step with
      | keeps going done => exact .keeps going done
    exact hbegun.effect hstack hdistinct (by simp) (by simp) labels ⟨hkeeps, hdelivers.proper⟩
      (by simp)

/-- In every run in which each call that is about to get the result of an operation finds that it is not
retired and that no other call is getting it: the result is got by one call at most, of those that have
answered and those that have not, and no second caller is told that it has got it. -/
theorem result_delivered_once {threads : ℕ}
    (h : Reaches (step .whole) TakesAlone (start threads) tr s) :
    (∀ r : SlotId, (r : ℕ) < s.memory.used → deliveries tr s r ≤ 1) ∧
      ∀ k, tr.countP (Event.delivers k) ≤ 1 := by
  have hall : Accounted s ∧ Serials tr s ∧ Links tr s ∧ DeliveredOnce tr s := by
    refine h.invariant
      (P := fun tr s => Accounted s ∧ Serials tr s ∧ Links tr s ∧ DeliveredOnce tr s)
      ⟨accounted_start threads, serials_start threads, links_start threads,
        deliveredOnce_start threads⟩ ?_
    rintro tr s ⟨i, c⟩ t ev ⟨haccounted, hserials, hlinks, honce⟩ halone hstep
    exact ⟨haccounted.step hstep, hserials.step haccounted.audit (haccounted.ready i c) hstep,
      hlinks.step hserials haccounted hstep, honce.step hserials haccounted hlinks halone hstep⟩
  obtain ⟨-, hserials, hlinks, honce⟩ := hall
  refine ⟨honce.slots, fun k => ?_⟩
  by_cases hslot : ∃ r : SlotId, (r : ℕ) < s.memory.used ∧ s.memory.serial r = k
  · obtain ⟨r, hr, rfl⟩ := hslot
    have hle := honce.slots r hr
    simp only [deliveries] at hle
    omega
  · have hle := honce.past k fun r hr heq => hslot ⟨r, hr, heq⟩
    omega

theorem takesAlone_iff (s : AsyncThreads Op) (input : ℕ × Choice Op) :
    TakesAlone s input ↔ (((s.threads[input.1]?.bind List.head?).bind
      (Frame.starts s.memory)).all fun r => (s.memory.slots r).retired = false ∧
        Stacks.total (Frame.inDelivery r) s.threads = 0) = true := by
  constructor
  · intro h
    cases hstack : s.threads[input.1]? with
    | none => rfl
    | some stack =>
      cases stack with
      | nil => rfl
      | cons f rest =>
        cases hstarts : f.starts s.memory with
        | none => simp [hstarts]
        | some r => simpa [hstarts] using h f rest r hstack hstarts
  · intro h f rest r hstack hstarts
    simpa [hstack, hstarts] using h

instance (s : AsyncThreads Op) (input : ℕ × Choice Op) :
    Decidable (TakesAlone s input) :=
  decidable_of_iff _ (takesAlone_iff s input).symm

section Run

/-- A caller gets the result of an operation that is completed. -/
def takesResult : List (ℕ × Choice Unit) :=
  [(0, .call (.query (some 0) takes) {}), (0, .go {}), (0, .answer (.returned 0)), (0, .go {}),
    (0, .go {}), (0, .go {}), (0, .go {}), (0, .answer (.returned 0)), (0, .go {}), (0, .go {}),
    (0, .go {})]

theorem takesResult_end :
    (execute (step .whole) (start 1) (beginDone ++ takesResult)).map
      (fun last => last.2.countP (Event.delivers 0)) = some 1 := by
  decide +kernel

/-- One caller gets the result. -/
theorem result_delivered_once_taken :
    ∃ (s : AsyncThreads Unit) (tr : List Event),
      Reaches (step .whole) TakesAlone (start 1) tr s ∧ tr.countP (Event.delivers 0) = 1 := by
  obtain ⟨⟨s, tr⟩, hrun, hcount⟩ := Option.map_eq_some_iff.mp takesResult_end
  have h : Reaches (step .whole) TakesAlone (start 1) tr s :=
    reaches_of_execute _ hrun (by decide +kernel)
  refine ⟨s, tr, h, le_antisymm ((result_delivered_once h).2 0) ?_⟩
  exact (show tr.countP (Event.delivers 0) = 1 from hcount).ge

/-- Two threads find the operation before either retires it. -/
def bothTake : List (ℕ × Choice Unit) :=
  [(0, .call (.query (some 0) takes) {}), (1, .call (.query (some 0) takes) {}), (0, .go {}),
    (1, .go {}), (0, .answer (.returned 0)), (1, .answer (.returned 0)), (0, .go {}), (0, .go {}),
    (0, .go {}), (0, .go {}), (1, .go {}), (1, .go {}), (1, .go {}), (1, .answer (.returned 0)),
    (1, .go {}), (1, .go {}), (1, .go {})]

theorem bothTake_end :
    (execute (step .whole) (start 2) (beginDone ++ bothTake)).map
      (fun last => last.2.countP (Event.delivers 0)) = some 2 := by
  decide +kernel

/-- It is not so for every interleaving: two callers are told that they have got the result. -/
theorem result_delivered_twice :
    ¬ ∀ (calls : List (ℕ × Choice Unit)) s tr,
      execute (step .whole) (start 2) calls = some (s, tr) →
        ∀ k, tr.countP (Event.delivers k) ≤ 1 := by
  intro h
  obtain ⟨⟨s, tr⟩, hrun, hcount⟩ := Option.map_eq_some_iff.mp bothTake_end
  have hle := h _ s tr hrun 0
  have heq : tr.countP (Event.delivers 0) = 2 := hcount
  omega

end Run

end AsyncThreads

end IW4x.Gdk
