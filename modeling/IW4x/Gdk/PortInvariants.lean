import IW4x.Gdk.PortThreads

/-!
# What holds in every run of a port

Three invariants of the threads of a port, each proved over the cases of a step: the ledger of
callbacks (an accepted callback is in the ring or was taken once, a taken one is about to be called
or was called once), the flags against the trace, and the state of affairs around `stop`.
-/

namespace IW4x.Gdk
namespace PortThreads

open Runs

variable {α : Type}

theorem giveBack_events {i : ℕ} {ran : Bool} {rest : List (Activity α)} {e : PortEvent α}
    (h : e ∈ (giveBack i ran rest).2) : e = .stopped i ∨ e = .answered i ran := by
  unfold giveBack at h
  split at h <;> cases ran <;> simp_all

section Ledger

variable [DecidableEq α]

/-- The thread has taken the callback with the flag and is about to call it. -/
def aboutToRun (x : α) (c : Bool) : Activity α → ℕ
  | .run y d => if y = x ∧ d = c then 1 else 0
  | _ => 0

/-- How often the callback was taken out of the ring. -/
def takings (x : α) (tr : List (PortEvent α)) : ℕ :=
  tr.count (.took x false) + tr.count (.took x true)

theorem takings_append (x : α) (tr ev : List (PortEvent α)) :
    takings x (tr ++ ev) = takings x tr + takings x ev := by
  simp only [takings, List.count_append]
  omega

@[simp] theorem weight_giveBack (x : α) (c : Bool) (i : ℕ) (ran : Bool)
    (rest : List (Activity α)) :
    Stacks.weight (aboutToRun x c) (giveBack i ran rest).1 =
      Stacks.weight (aboutToRun x c) rest := by
  unfold giveBack
  split <;> cases ran <;> simp [aboutToRun]

theorem count_giveBack {i : ℕ} {ran : Bool} {rest : List (Activity α)} {e : PortEvent α}
    (hstopped : e ≠ .stopped i) (hanswered : e ≠ .answered i ran) :
    (giveBack i ran rest).2.count e = 0 := by
  rw [List.count_eq_zero]
  intro h
  rcases giveBack_events h with rfl | rfl
  · exact hstopped rfl
  · exact hanswered rfl

structure Ledger (tr : List (PortEvent α)) (s : PortThreads α) : Prop where
  accepted : ∀ x, tr.count (.accepted x) = s.port.callbacks.count x + takings x tr
  taken : ∀ x c, tr.count (.took x c) =
    Stacks.total (aboutToRun x c) s.threads + tr.count (.started x c)

theorem moved_accepted {s : PortThreads α} {i : ℕ} {stack : List (Activity α)} {m : Move α}
    (h : Moved s i stack m) (x : α) :
    m.events.count (.accepted x) + s.port.callbacks.count x =
      m.port.callbacks.count x + takings x m.events := by
  cases h with
  | accept _ taken =>
    obtain ⟨hcallbacks, -⟩ := TaskPort.submit_accepted taken
    simp only [hcallbacks, takings, List.count_append, List.count_singleton]
    rw [Nat.add_comm]
    simp
  | refuse => simp [takings]
  | dispatch => simp [takings]
  | terminate => simp [takings]
  | stop => simp [takings]
  | finish => simp [takings, count_giveBack]
  | work => simp [takings]
  | lock => simp [takings]
  | leave => simp [leave, takings, count_giveBack]
  | @took f rest now t _ taken =>
    obtain ⟨hperm, -⟩ := TaskPort.take_spec taken
    rw [hperm.count_eq x]
    cases t.canceled <;> simp [takings, List.count_cons]
  | wait => simp [takings]
  | start => simp [takings]
  | lastJoin => simp [takings]
  | nextJoin => simp [takings]
  | drain => simp [takings]

theorem moved_taken {s : PortThreads α} {i : ℕ} {stack : List (Activity α)} {m : Move α}
    (h : Moved s i stack m) (x : α) (c : Bool) :
    m.events.count (.took x c) + Stacks.weight (aboutToRun x c) stack =
      Stacks.weight (aboutToRun x c) m.stack + m.events.count (.started x c) := by
  cases h with
  | accept => simp
  | refuse => simp
  | dispatch => simp [aboutToRun]
  | terminate => simp
  | stop => simp [aboutToRun]
  | finish => simp [aboutToRun, count_giveBack]
  | work => simp [aboutToRun]
  | lock => simp [aboutToRun]
  | leave inside =>
    rcases inside with rfl | ⟨t, rfl⟩ | ⟨d, rfl⟩ <;> simp [leave, aboutToRun, count_giveBack]
  | @took f rest now t inside _ =>
    rcases inside with ⟨t, rfl⟩ | ⟨d, rfl⟩ <;> simp [aboutToRun, List.count_singleton]
  | wait inside => rcases inside with ⟨t, rfl⟩ | ⟨d, rfl⟩ <;> simp [aboutToRun]
  | @start y d rest => simp [aboutToRun, List.count_singleton]; omega
  | lastJoin => simp [aboutToRun]
  | nextJoin => simp [aboutToRun]
  | drain => simp [aboutToRun]

theorem ledger_step {tr : List (PortEvent α)} {s s' : PortThreads α} {input : ℕ × PortAct α}
    {ev : List (PortEvent α)} (hl : Ledger tr s) (h : step s input = some (s', ev)) :
    Ledger (tr ++ ev) s' := by
  obtain ⟨stack, m, hstack, hmoved, rfl, rfl⟩ := step_cases h
  constructor
  · intro x
    have haccepted := moved_accepted hmoved x
    have hold := hl.accepted x
    simp only [List.count_append, takings_append]
    omega
  · intro x c
    have htaken := moved_taken hmoved x c
    have hset := Stacks.total_set (aboutToRun x c) hstack m.stack
    have hold := hl.taken x c
    simp only [List.count_append]
    omega

theorem ledger_opened [Inhabited α] (mode : DispatchMode) (workers outside : ℕ) :
    Ledger [] (opened mode workers outside : PortThreads α) := by
  constructor
  · intro x
    simp [opened, takings]
  · intro x c
    have hzero : Stacks.total (aboutToRun x c)
        (opened mode workers outside : PortThreads α).threads = 0 := by
      rw [Stacks.total_eq_zero_iff]
      intro stack hstack f hf
      rcases List.mem_append.mp hstack with h | h
      · obtain ⟨-, rfl⟩ := List.mem_replicate.mp h
        simp only [List.mem_singleton] at hf
        subst hf
        rfl
      · obtain ⟨-, rfl⟩ := List.mem_replicate.mp h
        simp at hf
    simp [hzero]

/-- How often the callback was called. -/
def starts (x : α) (tr : List (PortEvent α)) : ℕ :=
  tr.count (.started x false) + tr.count (.started x true)

/-- How many threads have taken the callback and not called it yet. -/
def aboutToStart (x : α) (s : PortThreads α) : ℕ :=
  Stacks.total (aboutToRun x false) s.threads + Stacks.total (aboutToRun x true) s.threads

theorem Ledger.takings_eq {tr : List (PortEvent α)} {s : PortThreads α} (h : Ledger tr s) (x : α) :
    takings x tr = aboutToStart x s + starts x tr := by
  have hfalse := h.taken x false
  have htrue := h.taken x true
  simp only [takings, aboutToStart, starts]
  omega

end Ledger

section Flags

/-- The flag a callback is passed when it is taken after these events. -/
def Flagged (mode : DispatchMode) (tr : List (PortEvent α)) : Prop :=
  .stopping ∈ tr ∨ (mode ≠ .manual ∧ .terminated ∈ tr)

/-- Every callback of the trace was passed the flag that the events before its taking set. -/
def Passed (mode : DispatchMode) (tr : List (PortEvent α)) : Prop :=
  ∀ pre x c post, tr = pre ++ .took x c :: post → (c = true ↔ Flagged mode pre)

theorem flagged_append (mode : DispatchMode) (tr ev : List (PortEvent α)) :
    Flagged mode (tr ++ ev) ↔ Flagged mode tr ∨ Flagged mode ev := by
  simp only [Flagged, List.mem_append]
  tauto

theorem Passed.append {mode : DispatchMode} {tr ev : List (PortEvent α)} (h : Passed mode tr)
    (hev : ∀ pre x c post, ev = pre ++ .took x c :: post →
      (c = true ↔ Flagged mode (tr ++ pre))) : Passed mode (tr ++ ev) := by
  intro pre x c post heq
  refine split_append (P := fun pre e => ∀ x c, e = .took x c → (c = true ↔ Flagged mode pre))
    ?_ ?_ pre _ post heq x c rfl
  · rintro pre _ post htr x c rfl
    exact h pre x c post htr
  · rintro pre _ post hev' x c rfl
    exact hev pre x c post hev'

/-- The fields of the port against the trace. -/
structure Flags (mode : DispatchMode) (tr : List (PortEvent α)) (s : PortThreads α) : Prop where
  kept : s.port.mode = mode
  queued : s.port.queued = s.port.ring.count
  canceled : s.port.canceled = true ↔ Flagged mode tr
  terminated : s.port.terminated = true ↔ .stopping ∈ tr ∨ .terminated ∈ tr
  passed : Passed mode tr

/-- Events that neither take a callback nor terminate nor stop the port. -/
def Quiet (ev : List (PortEvent α)) : Prop :=
  ∀ e ∈ ev, e ≠ .stopping ∧ e ≠ .terminated ∧ ∀ x c, e ≠ .took x c

theorem quiet_giveBack (i : ℕ) (ran : Bool) (rest : List (Activity α)) :
    Quiet (giveBack i ran rest).2 := by
  intro e he
  rcases giveBack_events he with rfl | rfl <;> simp

theorem Flags.quiet {mode : DispatchMode} {tr ev : List (PortEvent α)} {s s' : PortThreads α}
    (h : Flags mode tr s) (hev : Quiet ev) (hmode : s'.port.mode = s.port.mode)
    (hqueued : s'.port.queued = s'.port.ring.count)
    (hcanceled : s'.port.canceled = s.port.canceled)
    (hterminated : s'.port.terminated = s.port.terminated) : Flags mode (tr ++ ev) s' := by
  have hstopping : .stopping ∉ ev := fun hmem => (hev _ hmem).1 rfl
  have hterm : .terminated ∉ ev := fun hmem => (hev _ hmem).2.1 rfl
  refine ⟨hmode.trans h.kept, hqueued, ?_, ?_, ?_⟩
  · rw [hcanceled, h.canceled, flagged_append]
    simp [Flagged, hstopping, hterm]
  · rw [hterminated, h.terminated]
    simp [hstopping, hterm]
  · refine h.passed.append fun pre x c post heq => ?_
    exact absurd rfl ((hev (.took x c) (by rw [heq]; simp)).2.2 x c)

theorem flags_step {mode : DispatchMode} {tr : List (PortEvent α)} {s s' : PortThreads α}
    {input : ℕ × PortAct α} {ev : List (PortEvent α)} (hf : Flags mode tr s)
    (h : step s input = some (s', ev)) : Flags mode (tr ++ ev) s' := by
  obtain ⟨stack, m, hstack, hmoved, rfl, rfl⟩ := step_cases h
  cases hmoved with
  | accept _ taken =>
    obtain ⟨-, hmode, hterm, hcanceled, hqueued, -⟩ := TaskPort.submit_accepted taken
    exact hf.quiet (by simp [Quiet]) hmode hqueued hcanceled hterm
  | refuse => exact hf.quiet (by simp [Quiet]) rfl hf.queued rfl rfl
  | dispatch => exact hf.quiet (by simp [Quiet]) rfl hf.queued rfl rfl
  | terminate =>
    refine ⟨hf.kept, hf.queued, ?_, ?_, hf.passed.append (by simp [List.cons_eq_append_iff])⟩
    · have hold := hf.canceled
      rw [flagged_append]
      by_cases hmanual : mode = .manual
      · simp [TaskPort.terminate, Flagged, hf.kept, hmanual] at hold ⊢
        exact hold
      · simp [TaskPort.terminate, Flagged, hf.kept, hmanual]
    · simp [TaskPort.terminate]
  | stop =>
    refine ⟨hf.kept, hf.queued, ?_, ?_, hf.passed.append (by simp [List.cons_eq_append_iff])⟩
    · simp [TaskPort.stop, Flagged]
    · simp [TaskPort.stop]
  | finish => exact hf.quiet (quiet_giveBack _ _ _) rfl hf.queued rfl rfl
  | work => exact hf.quiet (by simp [Quiet]) rfl hf.queued rfl rfl
  | lock => exact hf.quiet (by simp [Quiet]) rfl hf.queued rfl rfl
  | leave => exact hf.quiet (quiet_giveBack _ _ _) rfl hf.queued rfl rfl
  | @took f rest now t _ taken =>
    obtain ⟨-, hpassed, hmode, hterm, hcanceled, hqueued⟩ := TaskPort.take_spec taken
    refine ⟨hmode.trans hf.kept, hqueued, ?_, ?_, hf.passed.append ?_⟩
    · rw [hcanceled, hf.canceled, flagged_append]
      simp [Flagged]
    · rw [hterm, hf.terminated]
      simp
    · -- the one event is the taking itself, so nothing of the step comes before it
      intro pre x c post heq
      obtain ⟨rfl, hitem⟩ : pre = [] ∧ t.canceled = c := by
        cases pre with
        | nil => exact ⟨rfl, (PortEvent.took.inj (List.cons.inj heq).1).2⟩
        | cons e pre => simp at heq
      rw [← hitem, hpassed, hf.canceled, List.append_nil]
  | wait => exact hf.quiet (by simp [Quiet]) rfl hf.queued rfl rfl
  | start => exact hf.quiet (by simp [Quiet]) rfl hf.queued rfl rfl
  | lastJoin => exact hf.quiet (by simp [Quiet]) rfl hf.queued rfl rfl
  | nextJoin => exact hf.quiet (by simp [Quiet]) rfl hf.queued rfl rfl
  | drain => exact hf.quiet (by simp [Quiet]) rfl hf.queued rfl rfl

theorem flags_opened [Inhabited α] (mode : DispatchMode) (workers outside : ℕ) :
    Flags mode [] (opened mode workers outside : PortThreads α) :=
  ⟨rfl, rfl, by simp [opened, TaskPort.openPort, Flagged], by simp [opened, TaskPort.openPort],
    by simp [Passed]⟩

end Flags

section Stop

theorem mem_giveBack {i : ℕ} {ran : Bool} {rest : List (Activity α)} {f : Activity α}
    (h : f ∈ (giveBack i ran rest).1) : f ∈ rest := by
  unfold giveBack at h
  split at h <;> cases ran <;> simp_all

theorem moved_ended {s : PortThreads α} {i : ℕ} {m : Move α} (h : Moved s i [] m) :
    s.started ≤ i := by
  cases h with
  | accept call => simpa [mayCall] using call
  | refuse call => simpa [mayCall] using call
  | dispatch call => simpa [mayCall] using call
  | terminate call => simpa [mayCall] using call
  | stop call => simpa [mayCall] using call

theorem moved_terminated {s : PortThreads α} {i : ℕ} {stack : List (Activity α)} {m : Move α}
    (h : Moved s i stack m) (hterm : s.port.terminated = true) : m.port.terminated = true := by
  cases h with
  | accept _ taken => simp [(TaskPort.submit_accepted taken).2.2.1, hterm]
  | terminate => rfl
  | stop => rfl
  | took _ taken => simp [(TaskPort.take_spec taken).2.2.2.1, hterm]
  | _ => exact hterm

theorem moved_callbacks {s : PortThreads α} {i : ℕ} {stack : List (Activity α)} {m : Move α}
    (h : Moved s i stack m) (hterm : s.port.terminated = true) (hempty : s.port.callbacks = []) :
    m.port.callbacks = [] ∧ ∀ x c, .run x c ∈ m.stack → .run x c ∈ stack := by
  cases h with
  | accept _ taken =>
    have hopen := (TaskPort.submit_accepted taken).2.2.2.2.2.2
    simp [hterm] at hopen
  | took _ taken =>
    have hperm := (TaskPort.take_spec taken).1
    rw [hempty] at hperm
    exact absurd hperm.length_eq (by simp)
  | finish => exact ⟨hempty, fun x c hrun => List.mem_cons_of_mem _ (mem_giveBack hrun)⟩
  | leave => exact ⟨hempty, fun x c hrun => List.mem_cons_of_mem _ (mem_giveBack hrun)⟩
  | refuse => exact ⟨hempty, fun x c hrun => hrun⟩
  | terminate => exact ⟨hempty, fun x c hrun => hrun⟩
  | _ => exact ⟨hempty, fun x c hrun => by simp_all⟩

theorem moved_join {s : PortThreads α} {i j : ℕ} {stack : List (Activity α)} {m : Move α}
    (h : Moved s i stack m) (hj : .join j ∈ m.stack) :
    .join j ∈ stack ∨ (j = 0 ∧ m.port.terminated = true) ∨
      ∃ k, j = k + 1 ∧ .join k ∈ stack ∧ s.threads[k]? = some [] := by
  cases h with
  | stop =>
    rcases List.mem_cons.mp hj with hj | hj
    · exact .inr (.inl ⟨Activity.join.inj hj, rfl⟩)
    · exact .inl hj
  | nextJoin ended =>
    rcases List.mem_cons.mp hj with hj | hj
    · exact .inr (.inr ⟨_, Activity.join.inj hj, List.mem_cons_self, ended⟩)
    · exact .inl (List.mem_cons_of_mem _ hj)
  | finish => exact .inl (List.mem_cons_of_mem _ (mem_giveBack hj))
  | leave => exact .inl (List.mem_cons_of_mem _ (mem_giveBack hj))
  | _ => left; simp_all

theorem moved_drain {s : PortThreads α} {i : ℕ} {stack : List (Activity α)} {m : Move α}
    (h : Moved s i stack m) (hd : .drain ∈ m.stack) :
    .drain ∈ stack ∨ .join s.workers ∈ stack := by
  cases h with
  | lastJoin all => exact .inr (by simp [all])
  | finish => exact .inl (List.mem_cons_of_mem _ (mem_giveBack hd))
  | leave => exact .inl (List.mem_cons_of_mem _ (mem_giveBack hd))
  | _ => left; simp_all

theorem moved_stopped {s : PortThreads α} {i j : ℕ} {stack : List (Activity α)} {m : Move α}
    (h : Moved s i stack m) (hj : .stopped j ∈ m.events) :
    j = i ∧ ∃ f, stack = f :: .drain :: m.stack ∧ m.port = s.port ∧
      (s.port.queued = 0 ∨ ∃ now, s.port.take now = none) := by
  have hback : ∀ (ran : Bool) (rest : List (Activity α)), .stopped j ∈ (giveBack i ran rest).2 →
      j = i ∧ ran = false ∧ rest = .drain :: (giveBack i ran rest).1 := by
    intro ran rest hmem
    unfold giveBack at hmem ⊢
    split at hmem <;> cases ran <;> simp_all
  cases h with
  | finish => exact absurd (hback _ _ hj).2.1 (by simp)
  | @leave f rest _ empty =>
    obtain ⟨rfl, -, hrest⟩ := hback _ _ hj
    exact ⟨rfl, f, congrArg (f :: ·) hrest, rfl, empty⟩
  | _ => simp at hj

/-- Only the top of a stack can be about to call a callback. -/
theorem moved_run {s : PortThreads α} {i : ℕ} {stack : List (Activity α)} {m : Move α}
    (h : Moved s i stack m) (htop : ∀ x c, .run x c ∉ stack.tail) :
    ∀ x c, .run x c ∉ m.stack.tail := by
  have hback : ∀ (ran : Bool) (f : Activity α) (rest : List (Activity α)),
      (∀ x c, .run x c ∉ (f :: rest).tail) → ∀ x c, .run x c ∉ (giveBack i ran rest).1.tail :=
    fun ran f rest hrest x c hrun => hrest x c (mem_giveBack (List.mem_of_mem_tail hrun))
  cases h with
  | finish => exact hback _ _ _ htop
  | leave => exact hback _ _ _ htop
  | dispatch call =>
    intro x c hrun
    cases stack with
    | nil => simp at hrun
    | cons f rest =>
      cases f <;> simp [mayCall] at call
      rcases List.mem_cons.mp hrun with h | h
      · cases h
      · exact htop x c h
  | stop call =>
    intro x c hrun
    cases stack with
    | nil => simp at hrun
    | cons f rest =>
      cases f <;> simp [mayCall] at call
      rcases List.mem_cons.mp hrun with h | h
      · cases h
      · exact htop x c h
  | work => simpa using htop
  | drain => simpa using htop
  | _ => exact htop

/-- Every worker has left `work`. -/
def AllEnded (s : PortThreads α) : Prop := ∀ k < s.started, s.threads[k]? = some []

/-- What holds around a `stop`: its activations join the workers in order, and once one has
returned the port stays empty. -/
structure Stopping (tr : List (PortEvent α)) (s : PortThreads α) : Prop where
  top : ∀ (i : ℕ) (stack : List (Activity α)), s.threads[i]? = some stack →
    ∀ x c, .run x c ∉ stack.tail
  joins : ∀ (i : ℕ) (stack : List (Activity α)), s.threads[i]? = some stack →
    ∀ j, .join j ∈ stack → s.port.terminated = true ∧ ∀ k < j, k < s.started → s.threads[k]? = some []
  drains : ∀ (i : ℕ) (stack : List (Activity α)), s.threads[i]? = some stack →
    .drain ∈ stack → s.port.terminated = true ∧ s.AllEnded
  workers : s.workers = s.started ∨ s.AllEnded
  stopped : ∀ i, .stopped i ∈ tr → s.port.terminated = true ∧ s.port.callbacks = [] ∧
    s.AllEnded ∧
    ∀ stack : List (Activity α), s.threads[i]? = some stack → ∀ x c, .run x c ∉ stack

theorem Stopping.allJoined {tr : List (PortEvent α)} {s : PortThreads α} (h : Stopping tr s)
    {i : ℕ} {stack : List (Activity α)} (hstack : s.threads[i]? = some stack)
    (hj : .join s.workers ∈ stack) : s.AllEnded := by
  rcases h.workers with hcount | hdone
  · intro k hk
    exact (h.joins i stack hstack _ hj).2 k (by omega) hk
  · exact hdone

theorem get_set {threads : List (List (Activity α))} {i : ℕ} {old : List (Activity α)}
    (hold : threads[i]? = some old) (new : List (Activity α)) (k : ℕ) :
    (threads.set i new)[k]? = if k = i then some new else threads[k]? := by
  obtain ⟨hlt, -⟩ := List.getElem?_eq_some_iff.mp hold
  by_cases hk : k = i
  · subst hk; simp [hlt]
  · simp [hk, Ne.symm hk]

theorem stopping_step {mode : DispatchMode} {tr : List (PortEvent α)} {s s' : PortThreads α}
    {input : ℕ × PortAct α} {ev : List (PortEvent α)} (hf : Flags mode tr s)
    (hs : Stopping tr s) (h : step s input = some (s', ev)) : Stopping (tr ++ ev) s' := by
  obtain ⟨stack, m, hstack, hmoved, rfl, rfl⟩ := step_cases h
  have hget := fun k => get_set hstack m.stack k
  -- a worker that has ended is not the thread that moves
  have hended : ∀ k < s.started, s.threads[k]? = some [] →
      (s.threads.set input.1 m.stack)[k]? = some [] := by
    intro k hk hnil
    have hne : k ≠ input.1 := by
      rintro rfl
      rw [hstack] at hnil
      cases hnil
      exact absurd (moved_ended hmoved) (by omega)
    rw [hget, if_neg hne, hnil]
  have hall : s.AllEnded → ∀ k < s.started, (s.threads.set input.1 m.stack)[k]? = some [] :=
    fun hall k hk => hended k hk (hall k hk)
  constructor
  · intro i stack' hstack' x c
    simp only [hget] at hstack'
    split_ifs at hstack' with hi
    · cases hstack'
      exact moved_run hmoved (hs.top _ _ hstack) x c
    · exact hs.top i stack' hstack' x c
  · intro i stack' hstack' j hj
    simp only [hget] at hstack'
    have hkeep : ∀ (i : ℕ) (stack : List (Activity α)), s.threads[i]? = some stack → .join j ∈ stack →
        m.port.terminated = true ∧
          ∀ k < j, k < s.started → (s.threads.set input.1 m.stack)[k]? = some [] := by
      intro i stack hstack hmem
      obtain ⟨hterm, hjoined⟩ := hs.joins i stack hstack j hmem
      exact ⟨moved_terminated hmoved hterm, fun k hk hlt => hended k hlt (hjoined k hk hlt)⟩
    split_ifs at hstack' with hi
    · cases hstack'
      rcases moved_join hmoved hj with hmem | ⟨rfl, hterm⟩ | ⟨k, rfl, hmem, hnil⟩
      · exact hkeep _ _ hstack hmem
      · exact ⟨hterm, by simp⟩
      · obtain ⟨hterm, hjoined⟩ := hs.joins _ _ hstack k hmem
        refine ⟨moved_terminated hmoved hterm, fun l hl hlt => hended l hlt ?_⟩
        rcases Nat.lt_succ_iff_lt_or_eq.mp hl with hl | rfl
        · exact hjoined l hl hlt
        · exact hnil
    · exact hkeep i stack' hstack' hj
  · intro i stack' hstack' hd
    simp only [hget] at hstack'
    have hkeep : ∀ (i : ℕ) (stack : List (Activity α)), s.threads[i]? = some stack → .drain ∈ stack →
        m.port.terminated = true ∧
          ∀ k < s.started, (s.threads.set input.1 m.stack)[k]? = some [] := by
      intro i stack hstack hmem
      obtain ⟨hterm, hdone⟩ := hs.drains i stack hstack hmem
      exact ⟨moved_terminated hmoved hterm, hall hdone⟩
    split_ifs at hstack' with hi
    · cases hstack'
      rcases moved_drain hmoved hd with hmem | hmem
      · exact hkeep _ _ hstack hmem
      · -- the last join: `worker_count_` workers were joined
        obtain ⟨hterm, -⟩ := hs.joins _ _ hstack _ hmem
        exact ⟨moved_terminated hmoved hterm, hall (hs.allJoined hstack hmem)⟩
    · exact hkeep i stack' hstack' hd
  · have hkeep : s.workers = s.started ∨
        ∀ k < s.started, (s.threads.set input.1 m.stack)[k]? = some [] := hs.workers.imp_right hall
    cases hmoved with
    | lastJoin all => exact .inr (hall (hs.allJoined hstack (by simp [all])))
    | _ => exact hkeep
  · intro i hi
    rcases List.mem_append.mp hi with hi | hi
    · obtain ⟨hterm, hempty, hdone, hrun⟩ := hs.stopped i hi
      obtain ⟨hempty', hrun'⟩ := moved_callbacks hmoved hterm hempty
      refine ⟨moved_terminated hmoved hterm, hempty', hall hdone, ?_⟩
      intro stack' hstack' x c hmem
      simp only [hget] at hstack'
      split_ifs at hstack' with heq
      · cases hstack'
        subst heq
        exact hrun stack hstack x c (hrun' x c hmem)
      · exact hrun stack' hstack' x c hmem
    · obtain ⟨rfl, f, rfl, hport, hfound⟩ := moved_stopped hmoved hi
      obtain ⟨hterm, hdone⟩ := hs.drains _ _ hstack (by simp)
      have hempty : s.port.callbacks = [] := by
        rcases hfound with hqueued | ⟨now, hnone⟩
        · rw [← List.length_eq_zero_iff, TaskPort.length_callbacks, ← hf.queued, hqueued]
        · exact (TaskPort.take_terminated hterm).mp hnone
      refine ⟨by simpa [hport] using hterm, by simpa [hport] using hempty, hall hdone, ?_⟩
      intro stack' hstack' x c hmem
      simp only [hget, if_pos] at hstack'
      cases hstack'
      exact hs.top _ _ hstack x c (by simp [hmem])

theorem stopping_opened [Inhabited α] (mode : DispatchMode) (workers outside : ℕ) :
    Stopping [] (opened mode workers outside : PortThreads α) := by
  have hstack : ∀ (i : ℕ) (stack : List (Activity α)),
      (opened mode workers outside : PortThreads α).threads[i]? = some stack →
      stack = [.work] ∨ stack = [] := by
    intro i stack h
    rcases List.mem_append.mp (List.mem_of_getElem? h) with h | h
    · exact .inl (List.mem_replicate.mp h).2
    · exact .inr (List.mem_replicate.mp h).2
  refine ⟨?_, ?_, ?_, .inl rfl, by simp⟩
  · intro i stack h x c
    rcases hstack i stack h with rfl | rfl <;> simp
  · intro i stack h j hj
    rcases hstack i stack h with rfl | rfl <;> simp at hj
  · intro i stack h hd
    rcases hstack i stack h with rfl | rfl <;> simp at hd

end Stop

/-! ### Every run of an opened port -/

section Run

theorem reaches_started [Inhabited α] {mode : DispatchMode} {workers outside : ℕ}
    {tr : List (PortEvent α)} {s : PortThreads α}
    (h : Reaches step always (opened mode workers outside) tr s) : s.started = workers := by
  refine h.state_invariant (P := fun s => s.started = workers) rfl ?_
  intro s input t ev hs _ hstep
  obtain ⟨_, _, _, _, _, rfl⟩ := step_cases hstep
  exact hs

variable [DecidableEq α] [Inhabited α]

theorem reaches_invariants {mode : DispatchMode} {workers outside : ℕ} {tr : List (PortEvent α)}
    {s : PortThreads α} (h : Reaches step always (opened mode workers outside) tr s) :
    Ledger tr s ∧ Flags mode tr s ∧ Stopping tr s := by
  refine h.invariant (P := fun tr s => Ledger tr s ∧ Flags mode tr s ∧ Stopping tr s)
    ⟨ledger_opened mode workers outside, flags_opened mode workers outside,
      stopping_opened mode workers outside⟩ ?_
  rintro tr s input t ev ⟨hledger, hflags, hstopping⟩ - hstep
  exact ⟨ledger_step hledger hstep, flags_step hflags hstep, stopping_step hflags hstopping hstep⟩

/-- In every run of an opened port, with any number of threads: each accepted callback is in the
ring, or is held by one thread that is about to call it, or was called, once in all; it is called
with the flag that it was taken with, which says whether `stop`, or `terminate` in a mode other
than manual, came before; the ring stays within its capacity, and the atomic count is exact. Once
`stop` has returned the ring is empty for good, and neither a worker nor the thread that called
`stop` has a callback left to call: only a `dispatch` of another thread can. -/
theorem port_runs_each_callback_once {mode : DispatchMode} {workers outside : ℕ}
    {tr : List (PortEvent α)} {s : PortThreads α}
    (h : Reaches step always (opened mode workers outside) tr s) :
    (∀ x, tr.count (.accepted x) =
      s.port.callbacks.count x + aboutToStart x s + starts x tr) ∧
    (∀ x c, tr.count (.took x c) =
      Stacks.total (aboutToRun x c) s.threads + tr.count (.started x c)) ∧
    (∀ pre x c post, tr = pre ++ .took x c :: post → (c = true ↔ Flagged mode pre)) ∧
    s.port.callbacks.length ≤ TaskPort.capacity ∧ s.port.queued = s.port.ring.count ∧
    ∀ i, .stopped i ∈ tr →
      (∀ x, tr.count (.accepted x) = aboutToStart x s + starts x tr) ∧
      ∀ j stack, s.threads[j]? = some stack → j < workers ∨ j = i → ∀ x c, .run x c ∉ stack := by
  obtain ⟨hledger, hflags, hstopping⟩ := reaches_invariants h
  have haccepted : ∀ x, tr.count (.accepted x) =
      s.port.callbacks.count x + aboutToStart x s + starts x tr := by
    intro x
    rw [hledger.accepted x, hledger.takings_eq x, Nat.add_assoc]
  refine ⟨haccepted, hledger.taken, hflags.passed, ?_, hflags.queued, ?_⟩
  · rw [TaskPort.length_callbacks]
    exact s.port.ring.bounded
  · intro i hi
    obtain ⟨-, hempty, hdone, hrun⟩ := hstopping.stopped i hi
    refine ⟨fun x => by simp [haccepted x, hempty], ?_⟩
    rintro j stack hstack (hworker | rfl) x c
    · have hnil := hdone j (by rw [reaches_started h]; exact hworker)
      rw [hstack] at hnil
      cases hnil
      simp
    · exact hrun stack hstack x c

/-- A manual port and two threads: the second takes the callback out of the ring, and before it
calls it the first goes through the whole of `stop`. -/
def lateStart : List (ℕ × PortAct ℕ) :=
  [(0, .submit 0 0 7), (1, .dispatch (some 0)), (1, .go 0 0 0), (1, .go 0 0 0), (0, .stop),
    (0, .go 0 0 0), (0, .go 0 0 0), (0, .go 0 0 0)]

theorem lateStart_trace : (execute step (opened .manual 0 2) lateStart).map Prod.snd =
    some [.accepted 7, .took 7 false, .stopping, .stopped 0] := by
  decide

/-- At `lateStart` the ledger says where the callback is: with the second thread. -/
theorem port_runs_each_callback_once_lateStart :
    ∃ s : PortThreads ℕ, Reaches step always (opened .manual 0 2)
      [.accepted 7, .took 7 false, .stopping, .stopped 0] s ∧ aboutToStart 7 s = 1 := by
  obtain ⟨⟨s, tr⟩, hrun, htr⟩ := Option.map_eq_some_iff.mp lateStart_trace
  dsimp only at htr
  subst htr
  have h := reaches_of_run hrun
  have hcount := ((port_runs_each_callback_once h).2.2.2.2.2 0 (by simp)).1 7
  exact ⟨s, h, by simpa [starts] using hcount.symm⟩

/-- It is not so that `stop` returns only after every accepted callback was called. -/
theorem stop_returns_before_start :
    ¬ ∀ (tr : List (PortEvent ℕ)) (s : PortThreads ℕ),
      Reaches step always (opened .manual 0 2) tr s → ∀ i, .stopped i ∈ tr →
        ∀ x, tr.count (.accepted x) = starts x tr := by
  intro hclaim
  obtain ⟨⟨s, tr⟩, hrun, htr⟩ := Option.map_eq_some_iff.mp lateStart_trace
  dsimp only at htr
  subst htr
  have h := hclaim _ s (reaches_of_run hrun) 0 (by simp) 7
  simp [starts] at h

end Run

end PortThreads
end IW4x.Gdk
