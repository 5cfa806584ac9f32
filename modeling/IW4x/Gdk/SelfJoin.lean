import IW4x.Gdk.ReusedQueues

/-!
# Workers that stop their own port

`stop` joins every worker of the port, and nothing looks at which thread it runs on. A callback that
closes the last handle of the queue that runs it, or shuts the runtime down, makes its worker wait
for itself. As long as no worker of a port comes to stop that port, none waits for itself.
-/

namespace IW4x.Gdk

open Runs

def QueueFrame.stopsPort (p : PortId) : QueueFrame → Bool
  | .stopPort x => x = p
  | .join x _ => x = p
  | _ => false

/-- The activation is no worker's and stops no port. -/
def QueueFrame.common : QueueFrame → Bool
  | .stopPort _ => false
  | .join _ _ => false
  | .worker _ => false
  | .ended => false
  | _ => true

theorem common_of_light {f : QueueFrame} (light : f.light = true) : f.common = true := by
  cases f <;> first | rfl | cases light

namespace QueueMemory

/-- What a step does to the workers' own activations, and to those that stop a port. -/
structure WorkMoved (m : QueueMemory) (ch : QueueChoice) (old : List QueueFrame) (mv : QueueMove) :
    Prop where
  worker : ∀ p, mv.new.getLast? = some (.worker p) → old = [.worker p]
  ended : mv.new.getLast? = some .ended → mv.new = [.ended] ∧ ∃ p, old = [.worker p]
  stays : ∀ p, old = [.worker p] → mv.new = [.ended] ∨ mv.new.getLast? = some (.worker p)
  stops : ∀ p, ∀ f ∈ mv.new, f.stopsPort p = true →
    (ch = .call .stop ∧ m.pool.portUsed p = true) ∨
    (∃ q, old = [.release q] ∧
      ((m.pool.releaseQueue q).1.1 = some p ∨ (m.pool.releaseQueue q).1.2 = some p)) ∨
    ∃ g ∈ old, g.stopsPort p = true

theorem workMoved_of_common {m : QueueMemory} {ch : QueueChoice} {old : List QueueFrame}
    {mv : QueueMove} (new : ∀ f ∈ mv.new, f.common = true) (before : ∀ p, old ≠ [.worker p]) :
    WorkMoved m ch old mv := by
  refine ⟨?_, ?_, fun p h => absurd h (before p), ?_⟩
  · intro p h
    cases new _ (List.mem_of_getLast? h)
  · intro h
    cases new _ (List.mem_of_getLast? h)
  · intro p f hf hstops
    have hcommon := new f hf
    cases f <;> simp [QueueFrame.common, QueueFrame.stopsPort] at hcommon hstops

theorem Ran.common {m : QueueMemory} {n : Ticket} {canceled : Bool} {mv : QueueMove}
    (ran : Ran m n canceled mv) : ∀ f ∈ mv.new, f.common = true := by
  rcases ran.new with ⟨-, h⟩ | ⟨-, h⟩ | ⟨k, -, h⟩ | ⟨k, -, h⟩ <;> simp [h, QueueFrame.common]

theorem sent_work {m m' : QueueMemory} {e : QueueEnv} {p : PortId} {delay : ℕ} {j : Job}
    {old rest instead : List QueueFrame} {undo : QueueMemory → QueueMemory}
    {ev : List QueueEvent} {mv : QueueMove} (sends : Sends m old m' j rest undo instead ev)
    (sent : Sent m' e p delay j rest undo instead ev mv) (ch : QueueChoice) :
    WorkMoved m ch old mv := by
  have hold : ∀ p, old ≠ [.worker p] := by
    cases sends <;> simp
  have hrest : ∀ f ∈ rest, f.common = true := by
    cases sends <;> simp [QueueFrame.common]
  have hinstead : ∀ f ∈ instead, f.common = true := by
    cases sends <;> simp [QueueFrame.common]
  refine workMoved_of_common ?_ hold
  cases sent with
  | unallocated _ => exact hinstead
  | refused _ _ => exact hinstead
  | accepted _ _ => exact hrest
  | immediate _ _ ran =>
    intro f hf
    rcases List.mem_append.mp hf with hf | hf
    · exact ran.common f hf
    · exact hrest f hf

/-- A worker that has taken a callback goes on when it has run. -/
theorem dispatched_work {m : QueueMemory} {p : PortId} {rest : List QueueFrame} {mv : QueueMove}
    {ch : QueueChoice} (loop : Dispatches m p ch rest) (dispatched : Dispatched m p rest mv) :
    WorkMoved m ch rest mv := by
  cases dispatched with
  | idle empty =>
    refine workMoved_of_common (by simp) ?_
    cases loop with
    | call _ => simp
    | drain => simp
    | worker found => simp [empty] at found
  | @took t mv _ ran =>
    cases loop with
    | call _ => exact workMoved_of_common (by simpa using ran.common) (by simp)
    | drain =>
      refine workMoved_of_common ?_ (by simp)
      simpa [or_imp, forall_and, QueueFrame.common] using ran.common
    | worker _ =>
      refine ⟨?_, ?_, ?_, ?_⟩
      · intro x h
        simpa using h
      · intro h
        simp at h
      · intro x h
        exact .inr (by simpa using h)
      · intro x f hf hstops
        rcases List.mem_append.mp hf with hf | hf
        · have hcommon := ran.common f hf
          cases f <;> simp [QueueFrame.common, QueueFrame.stopsPort] at hcommon hstops
        · obtain rfl := List.mem_singleton.mp hf
          simp [QueueFrame.stopsPort] at hstops

theorem Moved.work {m : QueueMemory} {e : QueueEnv} {threads : List (List QueueFrame)}
    {ch : QueueChoice} {old : List QueueFrame} {mv : QueueMove}
    (moved : Moved m e threads ch old mv) : WorkMoved m ch old mv := by
  cases moved with
  | plain plain =>
    refine workMoved_of_common (fun f hf => common_of_light (plain.frames f hf)) ?_
    rintro p rfl
    cases plain.before _ (List.mem_singleton_self _)
  | opens opens frames =>
    rcases frames with ⟨rfl, h⟩ | ⟨u, rfl, h⟩
    · exact workMoved_of_common (by simp [h]) (by simp)
    · exact workMoved_of_common (by simp [h, QueueFrame.common]) (by simp)
  | composes composes => exact workMoved_of_common (by simp [composes.new]) (by simp)
  | sends sends => exact sent_work sends (send_sent _ _ _ _ _ _ _ _ _) _
  | dispatches loop => exact dispatched_work loop (dispatch_dispatched _ _ _)
  | @finish k =>
    refine workMoved_of_common ?_ (by simp)
    unfold QueueMemory.finish
    split_ifs
    · exact fun f hf => common_of_light (resolve_light _ _ f hf)
    · simp
    · simp
  | again _ _ _ => exact workMoved_of_common (by simp) (by simp)
  | quits _ _ _ => exact workMoved_of_common (by simp [QueueFrame.common]) (by simp)
  | terminates _ _ _ => exact workMoved_of_common (by simp [QueueFrame.common]) (by simp)
  | @terminatePort q w c wait =>
    refine workMoved_of_common ?_ (by simp)
    cases wait <;> simp [QueueFrame.common]
  | terminated => exact workMoved_of_common (by simp) (by simp)
  | stops =>
    refine ⟨?_, ?_, by simp, ?_⟩
    · intro p h
      simpa using List.mem_of_getLast? h
    · intro h
      simpa using List.mem_of_getLast? h
    · intro p f hf hstops
      obtain ⟨x, hx, rfl⟩ := List.mem_map.mp hf
      obtain rfl : x = p := by simpa [QueueFrame.stopsPort] using hstops
      exact .inl ⟨rfl, by simpa using hx⟩
  | @stopPort p =>
    refine ⟨by simp, by simp, by simp, ?_⟩
    intro x f hf hstops
    obtain rfl := List.mem_singleton.mp hf
    exact .inr (.inr ⟨.stopPort p, by simp, by simpa [QueueFrame.stopsPort] using hstops⟩)
  | @join p joined _ _ _ =>
    refine ⟨by simp, by simp, by simp, ?_⟩
    intro x f hf hstops
    obtain rfl := List.mem_singleton.mp hf
    exact .inr (.inr ⟨.join p joined, by simp, by simpa [QueueFrame.stopsPort] using hstops⟩)
  | joined => exact workMoved_of_common (by simp [QueueFrame.common]) (by simp)
  | @release q =>
    have hnew : ∀ f ∈ (m.release q).new, f.common = true ∨ ∃ x, f = .stopPort x ∧
        ((m.pool.releaseQueue q).1.1 = some x ∨ (m.pool.releaseQueue q).1.2 = some x) := by
      intro f hf
      simp only [QueueMemory.release, List.mem_append, List.mem_map, Option.mem_toList] at hf
      rcases hf with (⟨x, hx, rfl⟩ | ⟨x, hx, rfl⟩) | hf
      · exact .inr ⟨x, rfl, .inl hx⟩
      · exact .inr ⟨x, rfl, .inr hx⟩
      · split_ifs at hf
        · obtain rfl := List.mem_singleton.mp hf
          exact .inl rfl
        · cases hf
    refine ⟨?_, ?_, by simp, ?_⟩
    · intro p h
      rcases hnew _ (List.mem_of_getLast? h) with h | ⟨x, h, -⟩ <;> cases h
    · intro h
      rcases hnew _ (List.mem_of_getLast? h) with h | ⟨x, h, -⟩ <;> cases h
    · intro p f hf hstops
      rcases hnew f hf with h | ⟨x, rfl, hx⟩
      · cases f <;> simp [QueueFrame.common, QueueFrame.stopsPort] at h hstops
      · obtain rfl : x = p := by simpa [QueueFrame.stopsPort] using hstops
        exact .inr (.inl ⟨q, rfl, hx⟩)
  | givePorts _ => exact workMoved_of_common (by simp) (by simp)
  | inside leaves =>
    refine workMoved_of_common ?_ (by simp)
    rcases leaves with h | ⟨k, -, h⟩ <;> simp [h, QueueFrame.common]
  | announces _ =>
    unfold QueueMemory.announce
    split_ifs <;> exact workMoved_of_common (by simp [QueueFrame.common]) (by simp)
  | returning => exact workMoved_of_common (by simp) (by simp)
  | @waits p =>
    refine ⟨by simp, by simp, by simp, ?_⟩
    simp [QueueFrame.stopsPort]
  | @ends p _ =>
    refine ⟨by simp, ?_, by simp, ?_⟩
    · exact fun _ => ⟨rfl, p, rfl⟩
    · simp [QueueFrame.stopsPort]

/-- Whom the ports have started and not joined. -/
theorem Moved.workers {m : QueueMemory} {e : QueueEnv} {threads : List (List QueueFrame)}
    {ch : QueueChoice} {old : List QueueFrame} {mv : QueueMove}
    (moved : Moved m e threads ch old mv) (p : PortId) {i : ℕ} (h : i ∈ mv.memory.workers p) :
    i ∈ m.workers p ∨ ∃ j, i = threads.length + j ∧ mv.spawned[j]? = some [.worker p] := by
  have same : mv.memory.workers = m.workers →
      i ∈ m.workers p ∨ ∃ j, i = threads.length + j ∧ mv.spawned[j]? = some [.worker p] := by
    intro heq
    rw [heq] at h
    exact .inl h
  cases moved with
  | plain plain => exact same plain.workers
  | @opens _ _ _ w c wi ci _ opens _ _ =>
    rw [opens.workers] at h
    by_cases hc : p = ci
    · subst hc
      rw [Function.update_self, List.mem_range'_1] at h
      refine .inr ⟨i - threads.length, by omega, ?_⟩
      rw [opens.spawned, List.getElem?_append_right (by rw [List.length_replicate]; omega),
        List.length_replicate, List.getElem?_replicate_of_lt (by omega)]
    · rw [Function.update_of_ne hc] at h
      by_cases hw : p = wi
      · subst hw
        rw [Function.update_self, List.mem_range'_1] at h
        refine .inr ⟨i - threads.length, by omega, ?_⟩
        rw [opens.spawned, List.getElem?_append_left (by rw [List.length_replicate]; omega),
          List.getElem?_replicate_of_lt (by omega)]
      · rw [Function.update_of_ne hw] at h
        exact .inl h
  | composes composes => exact same composes.workers
  | @sends ch old m' q delay j rest undo instead ev sends =>
    refine same ?_
    have base := sends.base
    generalize hmv : m'.send e q delay j rest undo instead ev = mv
    have sent := send_sent m' e q delay j rest undo instead ev
    rw [hmv] at sent
    cases sent with
    | unallocated _ => rw [(sends.undone _).workers, base.workers]
    | refused _ _ => rw [(sends.undone _).workers, base.workers]
    | accepted _ _ => rw [base.workers]
    | immediate _ _ ran => rw [ran.workers, base.workers]
  | @dispatches _ q _ _ =>
    refine same ?_
    generalize hmv : m.dispatch q old [] = mv
    have dispatched := dispatch_dispatched m q old
    rw [hmv] at dispatched
    cases dispatched with
    | idle _ => rfl
    | took _ ran => rw [ran.workers]; rfl
  | @finish k =>
    refine same ?_
    unfold QueueMemory.finish
    split_ifs <;> rfl
  | announces _ =>
    refine same ?_
    unfold QueueMemory.announce
    split_ifs <;> rfl
  | @joined q =>
    change i ∈ Function.update m.workers q [] p at h
    by_cases hq : p = q
    · subst hq; simp at h
    · rw [Function.update_of_ne hq] at h
      exact .inl h
  | _ => exact same rfl

end QueueMemory

namespace QueueThreads

variable {tr : List QueueEvent} {s t : QueueThreads} {i : ℕ} {e : QueueEnv} {c : QueueChoice}
  {ev : List QueueEvent}

/-- The thread whose activations these are was started by the port. -/
def workerOf (p : PortId) (stack : List QueueFrame) : Bool := stack.getLast? = some (.worker p)

def SelfJoins (s : QueueThreads) : Prop :=
  ∃ (i : ℕ) (p : PortId) (k : ℕ) (rest : List QueueFrame),
    s.threads[i]? = some (.join p k :: rest) ∧ (s.memory.workers p)[k]? = some i

/-- No worker of a port makes the call that stops the port: it closes no last handle that leaves the
port to nobody, and does not stop all ports. -/
def keepsWorkers (s : QueueThreads) (input : ℕ × QueueEnv × QueueChoice) : Bool :=
  match input.2.2, s.threads[input.1]? with
  | .call .stop, some stack =>
    (List.finRange 32).all fun p => !(workerOf p stack && s.memory.pool.portUsed p)
  | .go, some (.release q :: rest) =>
    (List.finRange 32).all fun p => !(workerOf p rest &&
      ((s.memory.pool.releaseQueue q).1.1 = some p || (s.memory.pool.releaseQueue q).1.2 = some p))
  | _, _ => true

structure Staffed (s : QueueThreads) : Prop where
  workers : ∀ p, ∀ i ∈ s.memory.workers p, ∃ stack, s.threads[i]? = some stack ∧
    (workerOf p stack = true ∨ stack = [.ended])
  stops : ∀ stack ∈ s.threads, ∀ p, workerOf p stack = true → ∀ f ∈ stack, f.stopsPort p = false
  ended : ∀ stack ∈ s.threads, stack.getLast? = some .ended → stack = [.ended]

theorem getLast_rest (new old : List QueueFrame) {rest : List QueueFrame} (h : rest ≠ []) :
    (new ++ rest).getLast? = (old ++ rest).getLast? := by
  rw [List.getLast?_append_of_ne_nil _ h, List.getLast?_append_of_ne_nil _ h]

theorem not_ended_of_acts {m : QueueMemory} {threads : List (List QueueFrame)}
    {old rest : List QueueFrame} {mv : QueueMove} (acts : Acts m e threads c old rest mv) :
    old ++ rest ≠ [.ended] := by
  intro h
  cases acts with
  | call may _ =>
    obtain rfl : rest = [.ended] := h
    cases may
  | answer answered =>
    obtain ⟨rfl, -⟩ := List.cons.inj h
    cases answered
  | go goes =>
    obtain ⟨rfl, -⟩ := List.cons.inj h
    cases goes

theorem staffed_start (threads : ℕ) : Staffed (start threads) := by
  refine ⟨?_, ?_, ?_⟩
  · intro p i hi
    cases hi
  · intro stack hstack p hworker
    obtain rfl := List.eq_of_mem_replicate hstack
    cases hworker
  · intro stack hstack hended
    obtain rfl := List.eq_of_mem_replicate hstack
    cases hended

theorem Staffed.step (staffed : Staffed s) (keeps : keepsWorkers s (i, e, c) = true)
    (h : step s (i, e, c) = some (t, ev)) : Staffed t := by
  obtain ⟨old, rest, mv, hstack, acts, rfl, rfl⟩ := step_cases h
  have moved := moved_of_acts acts
  have work := moved.work
  have hmem : old ++ rest ∈ s.threads := List.mem_of_getElem? hstack
  have hi : i < s.threads.length := (List.getElem?_eq_some_iff.mp hstack).1
  -- the thread that moves was a worker of the port before, if it is one now
  have before : ∀ p, workerOf p (mv.new ++ rest) = true → workerOf p (old ++ rest) = true := by
    intro p hworker
    by_cases hrest : rest = []
    · subst hrest
      rw [List.append_nil] at hworker
      rw [work.worker p (by simpa [workerOf] using hworker)]
      simp [workerOf]
    · simpa only [workerOf, getLast_rest mv.new old hrest] using hworker
  have members : ∀ {P : List QueueFrame → Prop}, (∀ stack ∈ s.threads, P stack) →
      P (mv.new ++ rest) → (∀ p, P [.worker p]) →
      ∀ stack ∈ s.threads.set i (mv.new ++ rest) ++ mv.spawned, P stack := by
    intro P hold hnew hspawned stack hs
    rcases List.mem_append.mp hs with hs | hs
    · rcases List.mem_or_eq_of_mem_set hs with hs | rfl
      · exact hold stack hs
      · exact hnew
    · obtain ⟨p, rfl⟩ := moved.spawned stack hs
      exact hspawned p
  constructor
  · intro p j hj
    rcases moved.workers p hj with hj | ⟨k, rfl, hk⟩
    · obtain ⟨stack, hs, hstands⟩ := staffed.workers p j hj
      have hjlt : j < (s.threads.set i (mv.new ++ rest)).length := by
        rw [List.length_set]
        exact (List.getElem?_eq_some_iff.mp hs).1
      by_cases hij : i = j
      · subst hij
        refine ⟨mv.new ++ rest, ?_, ?_⟩
        · rw [List.getElem?_append_left hjlt, List.getElem?_set_self hi]
        · obtain rfl : stack = old ++ rest := Option.some.inj (hs.symm.trans hstack)
          have hworker := hstands.resolve_right (not_ended_of_acts acts)
          by_cases hrest : rest = []
          · subst hrest
            have hold : old = [.worker p] := by
              cases acts with
              | call _ _ => cases hworker
              | answer _ => simpa [workerOf] using hworker
              | go _ => simpa [workerOf] using hworker
            rcases work.stays p hold with h | h
            · exact .inr (by simpa using h)
            · exact .inl (by simpa [workerOf] using h)
          · exact .inl (by simpa only [workerOf, getLast_rest mv.new old hrest]
              using hworker)
      · refine ⟨stack, ?_, hstands⟩
        rw [List.getElem?_append_left hjlt, List.getElem?_set_ne hij, hs]
    · refine ⟨[.worker p], ?_, .inl (by simp [workerOf])⟩
      rw [List.getElem?_append_right (by rw [List.length_set]; omega), List.length_set]
      simpa using hk
  · refine members staffed.stops ?_ ?_
    rotate_left 1
    · intro x p _ f hf
      obtain rfl := List.mem_singleton.mp hf
      rfl
    intro p hworker f hf
    have hbefore := before p hworker
    have hold := staffed.stops _ hmem p hbefore
    rcases List.mem_append.mp hf with hf | hf
    · by_contra hstops
      rcases work.stops p f hf (by simpa using hstops) with
        ⟨rfl, hused⟩ | ⟨q, rfl, hdone⟩ | ⟨g, hg, hstops⟩
      · have hall := List.all_eq_true.mp (by simpa only [keepsWorkers, hstack] using keeps) p
          (List.mem_finRange p)
        have hused : s.memory.pool.portUsed p = true := hused
        simp [hbefore, hused] at hall
      · cases acts with
        | answer answered => simp [QueueMemory.answer] at answered
        | go _ =>
          have hrest : workerOf p rest = true := by
            cases rest with
            | nil => simp [workerOf] at hbefore
            | cons f rest => simpa [workerOf] using hbefore
          simp only [keepsWorkers, hstack, List.cons_append, List.nil_append] at keeps
          have hall := List.all_eq_true.mp keeps p (List.mem_finRange p)
          change (s.memory.pool.releaseQueue q).1.1 = some p ∨
            (s.memory.pool.releaseQueue q).1.2 = some p at hdone
          have hnone : (s.memory.pool.releaseQueue q).1.1 ≠ some p ∧
              (s.memory.pool.releaseQueue q).1.2 ≠ some p := by
            simpa [hrest] using hall
          exact hdone.elim hnone.1 hnone.2
      · rw [hold g (List.mem_append_left _ hg)] at hstops
        cases hstops
    · exact hold f (List.mem_append_right _ hf)
  · refine members staffed.ended ?_ (by simp)
    intro hended
    by_cases hrest : rest = []
    · subst hrest
      rw [List.append_nil] at hended ⊢
      exact (work.ended hended).1
    · rw [getLast_rest _ old hrest] at hended
      exact absurd (staffed.ended _ hmem hended) (not_ended_of_acts acts)

/-- In every run in which no worker of a port makes the call that stops it, no thread ever comes to
join itself. -/
theorem no_self_join {threads : ℕ} (run : Reaches QueueThreads.step
    (fun s input => keepsWorkers s input = true) (start threads) tr s) : ¬ SelfJoins s := by
  have staffed : Staffed s := by
    refine run.state_invariant (P := Staffed) (staffed_start threads) ?_
    rintro s ⟨i, e, c⟩ t ev staffed keeps hstep
    exact staffed.step keeps hstep
  rintro ⟨i, p, k, rest, hstack, hself⟩
  obtain ⟨stack, hs, hworker⟩ := staffed.workers p i (List.mem_of_getElem? hself)
  obtain rfl : stack = .join p k :: rest := Option.some.inj (hs.symm.trans hstack)
  rcases hworker with hworker | h
  · have hstops := staffed.stops _ (List.mem_of_getElem? hstack) p hworker (.join p k) (by simp)
    simp [QueueFrame.stopsPort] at hstops
  · simp at h

/-- A worker runs a callback of its queue, and a thread closes the last handle of the queue. -/
def closeBusy (closer : ℕ) : List (ℕ × QueueEnv × QueueChoice) :=
  [first (.call (.create .threadPool .threadPool)), first (.call (.submit 0 .work 0 7)),
    (1, {}, .go), (closer, {}, .call (.close 0)), (closer, {}, .go), (closer, {}, .go)]

def joining (s : QueueThreads) (i : ℕ) : Option ℕ :=
  match s.threads[i]? with
  | some (.join p k :: _) => (s.memory.workers p)[k]?
  | _ => none

theorem selfJoins_of_joining (h : s.joining i = some i) : SelfJoins s := by
  unfold joining at h
  split at h
  · rename_i p k rest hstack
    exact ⟨i, p, k, rest, hstack, h⟩
  · cases h

theorem closeBusy_outside :
    (execute step (start 1) (closeBusy 0)).map (fun r => r.1.joining 0) = some (some 1) := by
  decide +kernel

theorem closeBusy_inside :
    (execute step (start 1) (closeBusy 1)).map (fun r => r.1.joining 1) = some (some 1) := by
  decide +kernel

theorem no_self_join_outside : ∃ (tr : List QueueEvent) (s : QueueThreads),
    Reaches QueueThreads.step (fun s input => keepsWorkers s input = true) (start 1) tr s ∧
    s.joining 0 = some 1 ∧ ¬ SelfJoins s := by
  obtain ⟨⟨s, tr⟩, hrun, hjoining⟩ := Option.map_eq_some_iff.mp closeBusy_outside
  have run : Reaches QueueThreads.step (fun s input => keepsWorkers s input = true) (start 1) tr s :=
    reaches_of_execute _ hrun (by decide +kernel)
  exact ⟨tr, s, run, hjoining, no_self_join run⟩

/-- A callback that closes the last handle of its queue makes the worker join itself. -/
theorem worker_joins_itself : ∃ (tr : List QueueEvent) (s : QueueThreads),
    Reaches QueueThreads.step always (start 1) tr s ∧ SelfJoins s := by
  obtain ⟨⟨s, tr⟩, hrun, hjoining⟩ := Option.map_eq_some_iff.mp closeBusy_inside
  exact ⟨tr, s, reaches_of_run hrun, selfJoins_of_joining hjoining⟩

end QueueThreads

end IW4x.Gdk
