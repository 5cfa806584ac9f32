import IW4x.Gdk.PoolThreads

/-!
# The tickets of the submissions

Every context that is allocated has a number of its own. What a port holds was submitted to it, and
what is called was either held by a port or has just been submitted; a ticket that no port holds is
not called any more.
-/

namespace IW4x.Gdk

open Runs

namespace QueueMemory

structure Tickets (m : QueueMemory) (mv : QueueMove) : Prop where
  count : m.tickets ≤ mv.memory.tickets
  waiting : ∀ p x, x ∈ (mv.memory.pool.owned p).callbacks →
    x ∈ (m.pool.owned p).callbacks ∨
      x.number = m.tickets ∧ x.port = p ∧ m.tickets < mv.memory.tickets
  called : ∀ x, .called x ∈ mv.events →
    (∃ p, x ∈ (m.pool.owned p).callbacks) ∨ x.number = m.tickets

theorem tickets_of_owned {m : QueueMemory} {mv : QueueMove}
    (tickets : m.tickets ≤ mv.memory.tickets)
    (owned : ∀ p x, x ∈ (mv.memory.pool.owned p).callbacks → x ∈ (m.pool.owned p).callbacks)
    (uncalled : ∀ x, .called x ∉ mv.events) : Tickets m mv :=
  ⟨tickets, fun p x hx => .inl (owned p x hx), fun x hx => absurd hx (uncalled x)⟩

theorem Ran.called {m : QueueMemory} {n : Ticket} {canceled : Bool} {mv : QueueMove}
    (ran : Ran m n canceled mv) {x : Ticket} (h : .called x ∈ mv.events) : x = n := by
  rw [ran.events] at h
  cases hjob : n.job <;> simpa [told, hjob] using h

theorem sent_tickets {m m' : QueueMemory} {e : QueueEnv} {p : PortId} {delay : ℕ} {j : Job}
    {old rest instead : List QueueFrame} {undo : QueueMemory → QueueMemory}
    {ev : List QueueEvent} {mv : QueueMove} (sends : Sends m old m' j rest undo instead ev)
    (sent : Sent m' e p delay j rest undo instead ev mv) : Tickets m mv := by
  have base := sends.base
  have quiet : ∀ x, .called x ∉ ev := by
    intro x
    cases sends <;> simp
  cases sent with
  | unallocated _ =>
    refine tickets_of_owned ?_ ?_ (by simpa using quiet)
    · rw [(sends.undone m').tickets, base.tickets]
    · rw [(sends.undone m').pool, base.pool]
      exact fun _ _ h => h
  | refused _ _ =>
    refine tickets_of_owned ?_ ?_ (by simpa using quiet)
    · rw [(sends.undone _).tickets, base.tickets]
      exact Nat.le_succ _
    · rw [(sends.undone _).pool, base.pool]
      exact fun _ _ h => h
  | @accepted t _ taken =>
    obtain ⟨hcallbacks, -⟩ := TaskPort.submit_accepted taken
    rw [base.pool] at hcallbacks
    refine ⟨?_, ?_, by simp⟩
    · rw [base.tickets]
      exact Nat.le_succ _
    · intro q x hx
      by_cases hq : q = p
      · subst hq
        simp only [QueuePool.setPort_owned, Function.update_self, hcallbacks,
          List.mem_append, List.mem_singleton] at hx
        rcases hx with hx | rfl
        · exact .inl hx
        · exact .inr ⟨base.tickets, rfl, by rw [base.tickets]; exact Nat.lt_succ_self _⟩
      · simp only [QueuePool.setPort_owned, Function.update_of_ne hq, base.pool] at hx
        exact .inl hx
  | @immediate mv _ _ ran =>
    refine ⟨?_, ?_, ?_⟩
    · rw [ran.tickets, base.tickets]
      exact Nat.le_succ _
    · intro q x hx
      rw [ran.pool, base.pool] at hx
      exact .inl hx
    · intro x hx
      have hx : QueueEvent.called x ∈ mv.events := by simpa using hx
      rw [ran.called hx]
      exact .inr base.tickets

theorem dispatched_tickets {m : QueueMemory} {p : PortId} {rest : List QueueFrame}
    {mv : QueueMove} (dispatched : Dispatched m p rest mv) : Tickets m mv := by
  cases dispatched with
  | idle _ => exact tickets_of_owned (le_refl _) (fun _ _ h => h) (by simp)
  | @took t mv took ran =>
    obtain ⟨hperm, -⟩ := TaskPort.take_spec took
    refine ⟨?_, ?_, ?_⟩
    · rw [ran.tickets]
      exact le_refl _
    · intro q x hx
      rw [ran.pool] at hx
      by_cases hq : q = p
      · subst hq
        simp only [withPool, QueuePool.setPort_owned, Function.update_self] at hx
        exact .inl (hperm.symm.subset (List.mem_cons_of_mem _ hx))
      · simp only [withPool, QueuePool.setPort_owned, Function.update_of_ne hq] at hx
        exact .inl hx
    · intro x hx
      rw [ran.called hx]
      exact .inl ⟨p, hperm.symm.subset List.mem_cons_self⟩

theorem callbacks_setPort {p : QueuePool Ticket} {i : PortId} {t : TaskPort Ticket}
    (h : t.callbacks = (p.owned i).callbacks) (j : PortId) :
    ((p.setPort i t).owned j).callbacks = (p.owned j).callbacks := by
  by_cases hj : j = i
  · subst hj; simpa using h
  · simp [hj]

theorem Moved.tickets {m : QueueMemory} {e : QueueEnv} {threads : List (List QueueFrame)}
    {ch : QueueChoice} {old : List QueueFrame} {mv : QueueMove}
    (moved : Moved m e threads ch old mv) : Tickets m mv := by
  -- the callbacks of the ports stay where they are
  have stay : (∀ p, (mv.memory.pool.owned p).callbacks = (m.pool.owned p).callbacks) →
      mv.memory.tickets = m.tickets → (∀ x, .called x ∉ mv.events) → Tickets m mv := by
    intro howned htickets huncalled
    refine tickets_of_owned (le_of_eq htickets.symm) ?_ huncalled
    intro p x hx
    rwa [howned] at hx
  cases moved with
  | plain plain =>
    refine stay (fun p => by rw [plain.owned]) plain.tickets ?_
    intro x hx
    cases plain.events _ hx
  | opens opens _ =>
    refine tickets_of_owned (le_of_eq opens.tickets.symm) opens.pool.kept.callbacks ?_
    simp [opens.events]
  | composes composes =>
    exact stay (fun p => by rw [composes.owned]) composes.tickets (by simp [composes.events])
  | sends sends => exact sent_tickets sends (send_sent _ _ _ _ _ _ _ _ _)
  | dispatches _ => exact dispatched_tickets (dispatch_dispatched _ _ _)
  | @finish k =>
    refine stay ?_ ?_ ?_
    all_goals unfold QueueMemory.finish; split_ifs <;> simp [setStage]
  | again _ _ _ => exact stay (fun _ => rfl) rfl (by simp)
  | @quits q w c wait _ _ _ =>
    exact stay (callbacks_setPort (TaskPort.callbacks_terminate _)) rfl (by simp)
  | @terminates q w c wait _ _ _ =>
    exact stay (callbacks_setPort (TaskPort.callbacks_terminate _)) rfl (by simp)
  | @terminatePort q w c wait =>
    exact stay (callbacks_setPort (TaskPort.callbacks_terminate _)) rfl (by simp)
  | terminated => exact stay (fun _ => rfl) rfl (by simp)
  | stops => exact stay (fun _ => rfl) rfl (by simp)
  | @stopPort p => exact stay (callbacks_setPort (TaskPort.callbacks_stop _)) rfl (by simp)
  | join _ _ => exact stay (fun _ => rfl) rfl (by simp)
  | joined => exact stay (fun _ => rfl) rfl (by simp)
  | @release q =>
    refine stay ?_ rfl ?_
    · intro p
      change ((m.pool.releaseQueue q).2.owned p).callbacks = _
      rw [(m.pool.releaseQueue_alike q).owned]
    · simp only [QueueMemory.release]
      split_ifs <;> simp
  | @givePorts q was done _ =>
    refine stay ?_ rfl (by simp)
    intro p
    change ((m.pool.givePorts done).owned p).callbacks = _
    rw [(m.pool.givePorts_alike done).owned]
  | inside _ => exact stay (fun _ => rfl) rfl (by simp)
  | announces _ =>
    refine stay ?_ ?_ ?_
    all_goals unfold QueueMemory.announce; split_ifs <;> simp [setStage]
  | @returning n =>
    refine stay (fun _ => rfl) rfl ?_
    dsimp only
    split_ifs <;> simp
  | waits => exact stay (fun _ => rfl) rfl (by simp)
  | ends _ => exact stay (fun _ => rfl) rfl (by simp)

end QueueMemory

namespace QueueThreads

variable {tr : List QueueEvent} {s t : QueueThreads} {i : ℕ} {e : QueueEnv} {c : QueueChoice}
  {ev : List QueueEvent}

/-- What the ports hold was submitted. -/
def Numbered (s : QueueThreads) : Prop :=
  ∀ p x, x ∈ (s.memory.pool.owned p).callbacks → x.number < s.memory.tickets

theorem Numbered.step (numbered : Numbered s) (h : step s (i, e, c) = some (t, ev)) :
    Numbered t := by
  obtain ⟨old, rest, mv, -, acts, -, rfl⟩ := step_cases h
  have tickets := (moved_of_acts acts).tickets
  have hcount : s.memory.tickets ≤ mv.memory.tickets := tickets.count
  intro p x hx
  change x.number < mv.memory.tickets
  rcases tickets.waiting p x hx with hx | ⟨hx, -, hlt⟩
  · have hnumber := numbered p x hx
    omega
  · rw [hx]
    exact hlt

theorem reaches_numbered {ok : QueueThreads → ℕ × QueueEnv × QueueChoice → Prop} {threads : ℕ}
    (run : Reaches QueueThreads.step ok (start threads) tr s) : Numbered s := by
  refine run.state_invariant (P := Numbered) ?_ ?_
  · intro p x hx
    cases hx
  · rintro s ⟨i, e, c⟩ t ev numbered - hstep
    exact numbered.step hstep

/-- The ticket was given out and no port holds it. -/
structure Gone (n : Ticket) (s : QueueThreads) : Prop where
  number : n.number < s.memory.tickets
  nowhere : ∀ p, n ∉ (s.memory.pool.owned p).callbacks

theorem Gone.step {n : Ticket} (gone : Gone n s) (h : step s (i, e, c) = some (t, ev)) :
    .called n ∉ ev ∧ Gone n t := by
  obtain ⟨old, rest, mv, -, acts, rfl, rfl⟩ := step_cases h
  have tickets := (moved_of_acts acts).tickets
  have hnumber : n.number < (s.memory.tick e).tickets := gone.number
  refine ⟨?_, ?_, ?_⟩
  · intro hcalled
    rcases tickets.called n hcalled with ⟨p, hp⟩ | hn
    · exact gone.nowhere p hp
    · omega
  · exact lt_of_lt_of_le hnumber tickets.count
  · intro p hp
    rcases tickets.waiting p n hp with hp | ⟨hn, -⟩
    · exact gone.nowhere p hp
    · omega

theorem Gone.run {ok : QueueThreads → ℕ × QueueEnv × QueueChoice → Prop} {n : Ticket}
    (gone : Gone n s) (run : Reaches QueueThreads.step ok s tr t) : .called n ∉ tr := by
  have kept : .called n ∉ tr ∧ Gone n t := by
    refine run.invariant (P := fun tr t => .called n ∉ tr ∧ Gone n t) ⟨by simp, gone⟩ ?_
    rintro tr t ⟨i, e, c⟩ u ev ⟨huncalled, gone⟩ - hstep
    obtain ⟨hev, gone'⟩ := gone.step hstep
    exact ⟨by simp [huncalled, hev], gone'⟩
  exact kept.1

end QueueThreads

end IW4x.Gdk
