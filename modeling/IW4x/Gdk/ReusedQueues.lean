import IW4x.Gdk.ClosedPorts

/-!
# Queue objects that are handed out while their ports are stopped

`release_queue` gives the queue object back in its first critical section and stops the ports after
it; until the second critical section gives the ports back, `take_queue` may hand the same object
out again. It takes the first free one, so it does whenever no earlier one is free.
-/

namespace IW4x.Gdk

open Runs
open Stacks (none_of_any_each)

/-- The close that released the queue object is still stopping its ports. -/
def QueueFrame.stops (q : QueueId) : QueueFrame → Bool
  | .givePorts x _ _ => x = q
  | _ => false

namespace QueueThreads

variable {tr : List QueueEvent} {s t : QueueThreads} {i : ℕ} {e : QueueEnv} {c : QueueChoice}
  {ev : List QueueEvent}

def stopping (s : QueueThreads) (q : QueueId) : Bool :=
  s.threads.any fun stack => stack.any (QueueFrame.stops q)

/-- Wherever the ports of a released queue object are still being stopped, another object would be
handed out before it. -/
def othersFirst (s : QueueThreads) : Bool :=
  (List.finRange 64).all fun q => s.memory.pool.madeUsed q || !s.stopping q ||
    (List.finRange 64).any fun x => x < q && !s.memory.pool.madeUsed x

/-- The step calls `create_queue` or `create_composite_queue`. -/
def creates (s : QueueThreads) (input : ℕ × QueueEnv × QueueChoice) : Bool :=
  match input.2.2 with
  | .call (.create _ _) => true
  | .call (.createComposite _ _) => true
  | .go =>
    match s.threads[input.1]? with
    | some (.fallback _ :: _) => true
    | _ => false
  | _ => false

def keepsObjects (s : QueueThreads) (input : ℕ × QueueEnv × QueueChoice) : Bool :=
  !creates s input || s.othersFirst

theorem othersFirst_iff : s.othersFirst = true ↔
    ∀ q, s.memory.pool.madeUsed q = false → s.stopping q = true →
      ∃ x, x < q ∧ s.memory.pool.madeUsed x = false := by
  simp only [othersFirst, List.all_eq_true, List.mem_finRange, true_imp_iff, Bool.or_eq_true,
    Bool.not_eq_true', List.any_eq_true, true_and, Bool.and_eq_true, decide_eq_true_eq]
  refine forall_congr' fun q => ?_
  cases s.memory.pool.madeUsed q <;> cases s.stopping q <;> simp

theorem stopping_iff {q : QueueId} : s.stopping q = true ↔
    ∃ stack ∈ s.threads, ∃ f ∈ stack, QueueFrame.stops q f = true := by
  simp only [stopping, List.any_eq_true]

end QueueThreads

namespace QueueMemory

inductive ObjectMoved (m : QueueMemory) : QueueChoice → List QueueFrame → QueueMove → Prop
  | keeps {ch old mv} (used : mv.memory.pool.madeUsed = m.pool.madeUsed)
      (generation : mv.memory.pool.generation = m.pool.generation)
      (ports : ∀ q r, (mv.memory.pool.made q).port r = (m.pool.made q).port r)
      (uncreated : ∀ q, .created q ∉ mv.events) (new : ∀ f ∈ mv.new, ∀ q, f.stops q = false) :
      ObjectMoved m ch old mv
  | hands {ch old q mv} (free : m.pool.madeUsed q = false)
      (first : ∀ y, y < q → m.pool.madeUsed y = true)
      (used : mv.memory.pool.madeUsed = Function.update m.pool.madeUsed q true)
      (generation : ∀ y, y ≠ q → mv.memory.pool.generation y = m.pool.generation y)
      (made : ∀ y, y ≠ q → mv.memory.pool.made y = m.pool.made y)
      (created : ∀ y, .created y ∈ mv.events ↔ y = q)
      (new : ∀ f ∈ mv.new, ∀ q, f.stops q = false)
      (chosen : (∃ w c, ch = .call (.create w c)) ∨ (∃ w c, ch = .call (.createComposite w c)) ∨
        ∃ u, old = [.fallback u]) : ObjectMoved m ch old mv
  | release {q} : ObjectMoved m .go [.release q] (m.release q)

theorem stops_of_light {f : QueueFrame} (light : f.light = true) (q : QueueId) :
    f.stops q = false := by
  cases f <;> first | rfl | cases light

theorem Ran.stops {m : QueueMemory} {n : Ticket} {canceled : Bool} {mv : QueueMove}
    (ran : Ran m n canceled mv) : ∀ f ∈ mv.new, ∀ q, f.stops q = false := by
  rcases ran.new with ⟨-, h⟩ | ⟨-, h⟩ | ⟨k, -, h⟩ | ⟨k, -, h⟩ <;> simp [h, QueueFrame.stops]

theorem sent_keeps {m m' : QueueMemory} {e : QueueEnv} {p : PortId} {delay : ℕ} {j : Job}
    {old rest instead : List QueueFrame} {undo : QueueMemory → QueueMemory}
    {ev : List QueueEvent} {mv : QueueMove} (sends : Sends m old m' j rest undo instead ev)
    (sent : Sent m' e p delay j rest undo instead ev mv) (ch : QueueChoice) :
    ObjectMoved m ch old mv := by
  obtain ⟨hmade, hused⟩ := sent_objects sends sent
  have quiet : ∀ q, .created q ∉ mv.events := by
    intro q h
    cases sent_ofTask sends sent _ h
  have hrest : ∀ f ∈ rest, ∀ q, f.stops q = false := by
    cases sends <;> exact none_of_any_each fun _ => rfl
  have hinstead : ∀ f ∈ instead, ∀ q, f.stops q = false := by
    cases sends <;> exact none_of_any_each fun _ => rfl
  have base := sends.base.pool
  refine .keeps hused ?_ (fun q r => by rw [hmade]) quiet ?_
  · cases sent with
    | unallocated _ => rw [(sends.undone _).pool, base]
    | refused _ _ => rw [(sends.undone _).pool, base]
    | accepted _ _ => rw [base]; rfl
    | immediate _ _ ran => rw [ran.pool, base]
  · cases sent with
    | unallocated _ => exact hinstead
    | refused _ _ => exact hinstead
    | accepted _ _ => exact hrest
    | immediate _ _ ran =>
      intro f hf
      rcases List.mem_append.mp hf with hf | hf
      · exact ran.stops f hf
      · exact hrest f hf

theorem dispatched_keeps {m : QueueMemory} {p : PortId} {rest : List QueueFrame} {mv : QueueMove}
    (hrest : ∀ f ∈ rest, ∀ q, f.stops q = false) (dispatched : Dispatched m p rest mv)
    (ch : QueueChoice) : ObjectMoved m ch rest mv := by
  have quiet : ∀ q, .created q ∉ mv.events := by
    intro q h
    cases dispatched.ofTask _ h
  cases dispatched with
  | idle _ => exact .keeps rfl rfl (fun _ _ => rfl) quiet (by simp)
  | took _ ran =>
    refine .keeps (by rw [ran.pool]; rfl) (by rw [ran.pool]; rfl) (fun q r => by rw [ran.pool]; rfl)
      quiet ?_
    intro f hf
    rcases List.mem_append.mp hf with hf | hf
    · exact ran.stops f hf
    · exact hrest f hf

theorem Moved.objects {m : QueueMemory} {e : QueueEnv} {threads : List (List QueueFrame)}
    {ch : QueueChoice} {old : List QueueFrame} {mv : QueueMove}
    (moved : Moved m e threads ch old mv) : ObjectMoved m ch old mv := by
  cases moved with
  | plain plain =>
    refine .keeps plain.holders.used plain.generation plain.holders.names ?_
      fun f hf => stops_of_light (plain.frames f hf)
    intro q h
    cases plain.events _ h
  | opens opens frames chosen =>
    refine .hands opens.owns.free opens.owns.first opens.owns.used ?_ ?_ ?_ ?_ ?_
    · intro y hy
      rw [opens.pool.generation, Function.update_of_ne hy]
    · intro y hy
      rw [opens.owns.made, Function.update_of_ne hy]
    · simp [opens.events]
    · rcases frames with ⟨-, h⟩ | ⟨u, -, h⟩ <;> simp [h, QueueFrame.stops]
    · rcases frames with ⟨h, -⟩ | ⟨u, h, -⟩
      · exact .inl (chosen h)
      · exact .inr (.inr ⟨u, h⟩)
  | composes composes =>
    refine .hands composes.borrows.free composes.borrows.first composes.borrows.used ?_ ?_ ?_ ?_
      (.inr (.inl ⟨_, _, rfl⟩))
    · intro y hy
      rw [composes.generation, Function.update_of_ne hy]
    · intro y hy
      rw [composes.borrows.made, Function.update_of_ne hy]
    · simp [composes.events]
    · simp [composes.new]
  | sends sends => exact sent_keeps sends (send_sent _ _ _ _ _ _ _ _ _) _
  | dispatches loop =>
    refine dispatched_keeps ?_ (dispatch_dispatched _ _ _) _
    cases loop <;> exact none_of_any_each fun _ => rfl
  | @finish k =>
    have hnew : ∀ f ∈ (m.finish k).new, ∀ q, f.stops q = false := by
      unfold QueueMemory.finish
      split_ifs
      · exact fun f hf => stops_of_light (resolve_light _ _ f hf)
      · simp
      · simp
    refine .keeps ?_ ?_ ?_ ?_ hnew
    all_goals unfold QueueMemory.finish; split_ifs <;> simp [setStage]
  | again _ _ _ => exact .keeps rfl rfl (fun _ _ => rfl) (by simp) (none_of_any_each fun _ => rfl)
  | @quits q w c wait _ _ _ =>
    exact .keeps rfl rfl (m.pool.markTerminated_holders q).names (by simp)
      (none_of_any_each fun _ => rfl)
  | @terminates q w c wait _ _ _ =>
    exact .keeps rfl rfl (m.pool.markTerminated_holders q).names (by simp)
      (none_of_any_each fun _ => rfl)
  | @terminatePort q w c wait =>
    refine .keeps rfl rfl (fun _ _ => rfl) (by simp) ?_
    cases wait <;> exact none_of_any_each fun _ => rfl
  | terminated => exact .keeps rfl rfl (fun _ _ => rfl) (by simp) (none_of_any_each fun _ => rfl)
  | stops => exact .keeps rfl rfl (fun _ _ => rfl) (by simp) (by simp [QueueFrame.stops])
  | stopPort => exact .keeps rfl rfl (fun _ _ => rfl) (by simp) (none_of_any_each fun _ => rfl)
  | join _ _ => exact .keeps rfl rfl (fun _ _ => rfl) (by simp) (none_of_any_each fun _ => rfl)
  | joined => exact .keeps rfl rfl (fun _ _ => rfl) (by simp) (none_of_any_each fun _ => rfl)
  | release => exact .release
  | @givePorts q was done _ =>
    refine .keeps (m.pool.givePorts_objects done).used (m.pool.givePorts_alike done).generation ?_
      (by simp) (by simp)
    intro x r
    change ((m.pool.givePorts done).made x).port r = _
    rw [(m.pool.givePorts_alike done).made]
  | inside leaves =>
    refine .keeps rfl rfl (fun _ _ => rfl) (by simp) ?_
    rcases leaves with h | ⟨k, -, h⟩ <;> simp [h, QueueFrame.stops]
  | announces _ =>
    unfold QueueMemory.announce
    split_ifs <;>
      exact .keeps rfl rfl (fun _ _ => rfl) (by simp) (none_of_any_each fun _ => rfl)
  | @returning n =>
    refine .keeps rfl rfl (fun _ _ => rfl) ?_ (by simp)
    dsimp only
    split_ifs <;> simp
  | waits => exact .keeps rfl rfl (fun _ _ => rfl) (by simp) (none_of_any_each fun _ => rfl)
  | ends _ => exact .keeps rfl rfl (fun _ _ => rfl) (by simp) (none_of_any_each fun _ => rfl)

end QueueMemory

namespace QueueThreads

/-- A step that creates a queue object does so unless its ports are being stopped, exactly where
another object would have been handed out before any such. -/
theorem created_iff (h : step s (i, e, c) = some (t, ev)) {q : QueueId} (created : .created q ∈ ev) :
    s.stopping q = false ↔ s.othersFirst = true := by
  obtain ⟨old, rest, mv, hstack, acts, rfl, rfl⟩ := step_cases h
  cases (moved_of_acts acts).objects with
  | keeps _ _ _ uncreated _ => exact absurd created (uncreated q)
  | release =>
    simp only [QueueMemory.release] at created
    split_ifs at created <;> simp at created
  | @hands ch old x mv free first used generation made hcreated new chosen =>
    obtain rfl := (hcreated q).mp created
    have free : s.memory.pool.madeUsed q = false := free
    have first : ∀ y, y < q → s.memory.pool.madeUsed y = true := first
    rw [othersFirst_iff]
    constructor
    · intro hq y hy hstopping
      rcases lt_trichotomy y q with hlt | rfl | hgt
      · simp [first y hlt] at hy
      · simp [hq] at hstopping
      · exact ⟨q, hgt, free⟩
    · intro others
      by_contra hstopping
      obtain ⟨x, hx, hfree⟩ := others q free (by simpa using hstopping)
      simp [first x hx] at hfree

/-- A released queue object whose ports are still being stopped is as it was when it was released. -/
def ObjectsKept (s : QueueThreads) : Prop :=
  ∀ stack ∈ s.threads, ∀ q was done, QueueFrame.givePorts q was done ∈ stack →
    s.memory.pool.madeUsed q = false ∧
      (s.memory.pool.generation q, (s.memory.pool.made q).work, (s.memory.pool.made q).completion) =
        was

theorem creates_of_chosen {m : QueueMemory} {old rest : List QueueFrame} {mv : QueueMove}
    (hstack : s.threads[i]? = some (old ++ rest)) (acts : Acts m e s.threads c old rest mv)
    (chosen : (∃ w c', c = .call (.create w c')) ∨ (∃ w c', c = .call (.createComposite w c')) ∨
      ∃ u, old = [.fallback u]) : creates s (i, e, c) = true := by
  rcases chosen with ⟨w, c', rfl⟩ | ⟨w, c', rfl⟩ | ⟨u, rfl⟩
  · rfl
  · rfl
  · cases acts with
    | answer answered => simp [QueueMemory.answer] at answered
    | go _ => simp [creates, hstack]

theorem ObjectsKept.step (kept : ObjectsKept s) (keeps : keepsObjects s (i, e, c) = true)
    (h : step s (i, e, c) = some (t, ev)) : ObjectsKept t := by
  obtain ⟨old, rest, mv, hstack, acts, rfl, rfl⟩ := step_cases h
  have moved := moved_of_acts acts
  -- what is kept of every activation, with the memory that the step leaves
  let Held : QueueFrame → Prop := fun f => ∀ q was done, f = .givePorts q was done →
    mv.memory.pool.madeUsed q = false ∧ (mv.memory.pool.generation q,
      (mv.memory.pool.made q).work, (mv.memory.pool.made q).completion) = was
  have set : (∀ stack ∈ s.threads, ∀ f ∈ stack, Held f) → (∀ f ∈ mv.new, Held f) →
      ObjectsKept ⟨mv.memory, s.threads.set i (mv.new ++ rest) ++ mv.spawned⟩ := by
    intro hold hnew stack hs q was done hf
    refine Stacks.forall_set hold hstack mv.new mv.spawned hnew ?_ stack hs _ hf q was done rfl
    rintro stack hs f hf q was done rfl
    obtain ⟨p, rfl⟩ := moved.spawned stack hs
    simp at hf
  have quiet : (∀ f ∈ mv.new, ∀ q, f.stops q = false) → ∀ f ∈ mv.new, Held f := by
    rintro hnew f hf q was done rfl
    have hstops := hnew _ hf q
    simp [QueueFrame.stops] at hstops
  -- an object keeps its ports
  have same : ∀ q was, (∀ r, (mv.memory.pool.made q).port r = (s.memory.pool.made q).port r) →
      mv.memory.pool.generation q = s.memory.pool.generation q →
      (s.memory.pool.generation q, (s.memory.pool.made q).work, (s.memory.pool.made q).completion) =
        was → (mv.memory.pool.generation q, (mv.memory.pool.made q).work,
          (mv.memory.pool.made q).completion) = was := by
    intro q was ports generation hwas
    rw [generation, show (mv.memory.pool.made q).work = _ from ports .work,
      show (mv.memory.pool.made q).completion = _ from ports .completion]
    exact hwas
  cases moved.objects with
  | keeps used generation ports uncreated new =>
    refine set ?_ (quiet new)
    rintro stack hs f hf q was done rfl
    obtain ⟨free, hwas⟩ := kept stack hs q was done hf
    exact ⟨by rw [used]; exact free, same q was (ports q) (by rw [generation]; rfl) hwas⟩
  | @hands ch old x mv free first used generation made created new chosen =>
    have others : s.othersFirst = true := by
      simpa [keepsObjects, creates_of_chosen hstack acts chosen] using keeps
    refine set ?_ (quiet new)
    rintro stack hs f hf q was done rfl
    obtain ⟨hfree, hwas⟩ := kept stack hs q was done hf
    have hqx : q ≠ x := by
      rintro rfl
      have hstopping : s.stopping q = true :=
        stopping_iff.mpr ⟨stack, hs, _, hf, by simp [QueueFrame.stops]⟩
      obtain ⟨y, hy, hyfree⟩ := othersFirst_iff.mp others q hfree hstopping
      have hused : s.memory.pool.madeUsed y = true := first y hy
      simp [hused] at hyfree
    rw [used, Function.update_of_ne hqx]
    exact ⟨hfree, same q was (fun r => by rw [made q hqx]; rfl) (generation q hqx) hwas⟩
  | @release x =>
    have halike := s.memory.pool.releaseQueue_alike x
    have hfree : ∀ q, s.memory.pool.madeUsed q = false ∨ q = x →
        (s.memory.pool.releaseQueue x).2.madeUsed q = false := by
      intro q hq
      rw [(s.memory.pool.releaseQueue_used x).1]
      by_cases hqx : q = x
      · subst hqx; simp
      · rw [Function.update_of_ne hqx]
        exact hq.resolve_right hqx
    refine set ?_ ?_
    · rintro stack hs f hf q was done rfl
      obtain ⟨free, hwas⟩ := kept stack hs q was done hf
      refine ⟨hfree q (.inl free), same q was (fun r => ?_) ?_ hwas⟩
      · exact congrArg (fun made => TaskQueue.port (made q) r) halike.made
      · exact congrFun halike.generation q
    · rintro f hf q was done rfl
      simp only [QueueMemory.release, List.mem_append, List.mem_map, reduceCtorEq, and_false,
        exists_false, or_false, false_or] at hf
      split_ifs at hf
      · obtain ⟨rfl, rfl, -⟩ : q = x ∧ _ ∧ _ := by simpa using hf
        refine ⟨hfree q (.inr rfl), same q _ (fun r => ?_) ?_ rfl⟩
        · exact congrArg (fun made => TaskQueue.port (made q) r) halike.made
        · exact congrFun halike.generation q
      · cases hf

theorem reaches_objectsKept {threads : ℕ} (run : Reaches QueueThreads.step
    (fun s input => keepsObjects s input = true) (start threads) tr s) : ObjectsKept s := by
  refine run.state_invariant (P := ObjectsKept) ?_ ?_
  · intro stack hstack q was done hf
    obtain rfl := List.eq_of_mem_replicate hstack
    cases hf
  · rintro s ⟨i, e, c⟩ t ev kept keeps hstep
    exact kept.step keeps hstep

/-- A step that hands out a queue object hands out none whose ports a close is still stopping exactly
if wherever ports are being stopped an earlier object is free. In every run in which this holds
wherever a queue is to be created, a released object stays as it was for as long as its ports are
being stopped. -/
theorem released_queues_stand {threads : ℕ}
    (hstep : QueueThreads.step s (i, e, c) = some (t, ev)) :
    (∀ q, .created q ∈ ev → (s.stopping q = false ↔ s.othersFirst = true)) ∧
    (Reaches QueueThreads.step (fun s input => keepsObjects s input = true) (start threads) tr s →
      ∀ stack ∈ s.threads, ∀ q was done, QueueFrame.givePorts q was done ∈ stack →
        s.memory.pool.madeUsed q = false ∧ (s.memory.pool.generation q,
          (s.memory.pool.made q).work, (s.memory.pool.made q).completion) = was) :=
  ⟨fun _ created => created_iff hstep created, reaches_objectsKept⟩

/-- The first queue is created and closed; the second is created before that and closed after it, with
a callback that its close cancels. -/
def closeBoth : List (ℕ × QueueEnv × QueueChoice) :=
  [first (.call (.create .manual .manual)), first (.call (.create .manual .manual)),
    first (.call (.submit 1 .work 0 7)), first (.call (.close 0))] ++
  List.replicate 8 (first .go) ++ [first (.call (.close 1))] ++ List.replicate 4 (first .go)

def closeOne : List (ℕ × QueueEnv × QueueChoice) :=
  [first (.call (.create .manual .manual)), first (.call (.submit 0 .work 0 7)),
    first (.call (.close 0))] ++ List.replicate 4 (first .go)

def createInside : ℕ × QueueEnv × QueueChoice := first (.call (.create .manual .manual))

theorem closeBoth_trace : (execute step (start 1) closeBoth).map Prod.snd =
    some [.created 0, .opened 0 .manual, .opened 1 .manual, .created 1, .opened 2 .manual,
      .opened 3 .manual, .allocated ⟨0, 2, .callback 7⟩, .accepted ⟨0, 2, .callback 7⟩,
      .released 0, .closed 0, .closed 1, .given 0, .given 1, .released 1, .closed 2,
      .called ⟨0, 2, .callback 7⟩] := by
  decide +kernel

theorem closeBoth_created : (execute step (start 1) (closeBoth ++ [createInside])).map Prod.snd =
    some ([.created 0, .opened 0 .manual, .opened 1 .manual, .created 1, .opened 2 .manual,
      .opened 3 .manual, .allocated ⟨0, 2, .callback 7⟩, .accepted ⟨0, 2, .callback 7⟩,
      .released 0, .closed 0, .closed 1, .given 0, .given 1, .released 1, .closed 2,
      .called ⟨0, 2, .callback 7⟩] ++ [.created 0, .opened 0 .manual, .opened 1 .manual]) := by
  decide +kernel

theorem closeOne_trace : (execute step (start 1) closeOne).map Prod.snd =
    some [.created 0, .opened 0 .manual, .opened 1 .manual, .allocated ⟨0, 0, .callback 7⟩,
      .accepted ⟨0, 0, .callback 7⟩, .released 0, .closed 0, .called ⟨0, 0, .callback 7⟩] := by
  decide +kernel

theorem closeOne_created : (execute step (start 1) (closeOne ++ [createInside])).map Prod.snd =
    some ([.created 0, .opened 0 .manual, .opened 1 .manual, .allocated ⟨0, 0, .callback 7⟩,
      .accepted ⟨0, 0, .callback 7⟩, .released 0, .closed 0, .called ⟨0, 0, .callback 7⟩] ++
      [.created 0, .opened 2 .manual, .opened 3 .manual]) := by
  decide +kernel

theorem released_queues_stand_second : ∃ (tr : List QueueEvent) (s t : QueueThreads)
    (ev : List QueueEvent), Reaches QueueThreads.step always (start 1) tr s ∧
    QueueThreads.step s createInside = some (t, ev) ∧ s.othersFirst = true ∧ s.stopping 1 = true ∧
    .created 0 ∈ ev ∧ s.stopping 0 = false ∧ s.memory.pool.madeUsed 1 = false := by
  obtain ⟨s, t, hrun, hstep⟩ := last_step closeBoth_trace closeBoth_created
  have hstate : (execute step (start 1) closeBoth).map (fun r => (r.1.othersFirst, r.1.stopping 1,
      r.1.threads.any fun stack => stack.any fun f =>
        f = .givePorts 1 (1, some 2, some 3) (some 2, some 3))) = some (true, true, true) := by
    decide +kernel
  rw [hrun] at hstate
  simp only [Option.map_some, Option.some.injEq, Prod.mk.injEq, List.any_eq_true,
    decide_eq_true_eq] at hstate
  obtain ⟨others, stopping, stack, hs, f, hf, rfl⟩ := hstate
  have keeps : Reaches QueueThreads.step (fun s input => keepsObjects s input = true) (start 1) _ s :=
    reaches_of_execute _ hrun (by decide +kernel)
  obtain ⟨created, stand⟩ := released_queues_stand hstep
  exact ⟨_, s, t, _, reaches_of_run hrun, hstep, others, stopping, by simp,
    (created 0 (by simp)).mpr others, (stand keeps stack hs _ _ _ hf).1⟩

/-- With no other object free, the canceled callback is handed the object of the queue that is being
closed, with other ports. -/
theorem released_queue_reused : ∃ (tr : List QueueEvent) (s t : QueueThreads)
    (ev : List QueueEvent), Reaches QueueThreads.step always (start 1) tr s ∧
    QueueThreads.step s createInside = some (t, ev) ∧ s.stopping 0 = true ∧ .created 0 ∈ ev ∧
    .opened 2 .manual ∈ ev := by
  obtain ⟨s, t, hrun, hstep⟩ := last_step closeOne_trace closeOne_created
  have hstate : (execute step (start 1) closeOne).map (fun r => r.1.stopping 0) = some true := by
    decide +kernel
  rw [hrun] at hstate
  exact ⟨_, s, t, _, reaches_of_run hrun, hstep, by simpa using hstate, by simp, by simp⟩

end QueueThreads

end IW4x.Gdk
