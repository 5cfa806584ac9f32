import IW4x.Gdk.ProcessQueue

/-!
# The process queue in every run

What `process_queue` returns is followed through the runs of any number of threads. Every queue it
returns was created, made current and not released since, as long as `release_queue` is not entered
for one of the two process queues and nobody clears the current one before a last load of
`process_queue`; a step that breaks either lets the next call return a released queue or
dereference a null pointer.
-/

namespace IW4x.Gdk

open Runs QueuePool

namespace QueueThreads

/-- Callers make only queues current that exist, and close only handles they were given. -/
def proper (s : QueueThreads) (input : ℕ × QueueEnv × QueueChoice) : Bool :=
  match input.2.2 with
  | .call (.setCurrent (some q)) => s.memory.pool.madeUsed q
  | .call (.close q) => 0 < s.memory.given q
  | _ => true

/-- The activation is past the compare-exchange of `process_queue`, before its last load. -/
def reloads : QueueFrame → Bool
  | .reload _ => true
  | _ => false

/-- The activation has the static queue. -/
def hasFallback : QueueFrame → Bool
  | .install _ => true
  | .reload _ => true
  | _ => false

/-- `release_queue` is not entered for one of the two process queues, and the current one is not
cleared while a thread is about to load it for the last time. -/
def keepsProcess (s : QueueThreads) (input : ℕ × QueueEnv × QueueChoice) : Bool :=
  match input.2.2, s.threads[input.1]? with
  | .go, some (.release q :: _) =>
    s.memory.pool.current ≠ some q && s.memory.pool.fallback ≠ some q
  | .call (.setCurrent none), _ => s.threads.all fun stack => !stack.head?.any reloads
  | _, _ => true

structure ProcessKept (tr : List QueueEvent) (s : QueueThreads) : Prop where
  stands : ProcessStands tr
  used : ∀ q, s.memory.pool.madeUsed q = true → Alive tr q
  current : ∀ q, s.memory.pool.current = some q →
    s.memory.pool.madeUsed q = true ∧ Standing tr q
  fallback : ∀ q, s.memory.pool.fallback = some q → s.memory.pool.madeUsed q = true
  /-- Only the activation on top of a stack can be in the middle of `process_queue`. -/
  top : ∀ stack ∈ s.threads, ∀ f ∈ stack.tail, f.early = true
  install : ∀ stack ∈ s.threads, ∀ f ∈ stack, hasFallback f = true →
    s.memory.pool.fallback ≠ none
  reload : ∀ stack ∈ s.threads, ∀ f ∈ stack, reloads f = true → s.memory.pool.current ≠ none

theorem processKept_start (threads : ℕ) : ProcessKept [] (start threads) := by
  have idle : ∀ stack ∈ (start threads).threads, stack = [] := fun _ h => List.eq_of_mem_replicate h
  constructor
  · intro a r b h
    simp at h
  · intro q hq
    cases hq
  · intro q hq
    cases hq
  · intro q hq
    cases hq
  · intro stack hstack f hf
    simp [idle stack hstack] at hf
  · intro stack hstack f hf
    simp [idle stack hstack] at hf
  · intro stack hstack f hf
    simp [idle stack hstack] at hf

theorem hasFallback_of_early {f : QueueFrame} (h : f.early = true) : hasFallback f = false := by
  cases f <;> simp_all [hasFallback, QueueFrame.early]

theorem reloads_of_early {f : QueueFrame} (h : f.early = true) : reloads f = false := by
  cases f <;> simp_all [reloads, QueueFrame.early]

theorem early_of_outside {f : QueueFrame} (h : f.outside = true) : f.early = true := by
  cases f <;> simp_all [QueueFrame.outside, QueueFrame.early]

variable {tr : List QueueEvent} {s : QueueThreads} {i : ℕ} {e : QueueEnv} {c : QueueChoice}
  {old rest : List QueueFrame} {mv : QueueMove}

theorem ProcessKept.below (kept : ProcessKept tr s) (hstack : s.threads[i]? = some (old ++ rest))
    (acts : Acts (s.memory.tick e) e s.threads c old rest mv) : ∀ f ∈ rest, f.early = true := by
  have htop := kept.top _ (List.mem_of_getElem? hstack)
  intro f hf
  cases acts with
  | call may _ =>
    cases rest with
    | nil => cases hf
    | cons g below =>
      rcases List.mem_cons.mp hf with rfl | hf
      · exact early_of_outside may
      · exact htop f hf
  | answer _ => exact htop f hf
  | go _ => exact htop f hf

theorem ProcessKept.tops (kept : ProcessKept tr s) {new : List QueueFrame}
    {spawned : List (List QueueFrame)} (below : ∀ f ∈ rest, f.early = true)
    (early : ∀ f ∈ new.tail, f.early = true)
    (fresh : ∀ stack ∈ spawned, ∀ f ∈ stack, f.early = true) :
    ∀ stack ∈ s.threads.set i (new ++ rest) ++ spawned, ∀ f ∈ stack.tail, f.early = true := by
  intro stack hstack f hf
  rcases List.mem_append.mp hstack with hstack | hstack
  · rcases List.mem_or_eq_of_mem_set hstack with hstack | rfl
    · exact kept.top stack hstack f hf
    · cases new with
      | nil => exact below f (List.mem_of_mem_tail hf)
      | cons g new =>
        rcases List.mem_append.mp hf with hf | hf
        · exact early f hf
        · exact below f hf
  · exact fresh stack hstack f (List.mem_of_mem_tail hf)

theorem unreleased_of_mild {ev : List QueueEvent} (mild : ∀ e ∈ ev, e.mild = true) (q : QueueId) :
    .released q ∉ ev := by
  intro h
  cases mild _ h

theorem silent_of_mild {ev : List QueueEvent} (mild : ∀ e ∈ ev, e.mild = true) :
    ∀ e ∈ ev, ∀ r, e ≠ .process r := by
  rintro e he r rfl
  cases mild _ he

/-- A step that leaves the queue objects and the two process queues alone. -/
theorem ProcessKept.tame (kept : ProcessKept tr s) {threads : List (List QueueFrame)}
    {m : QueueMemory} {ev : List QueueEvent} (same : SameObjects s.memory.pool m.pool)
    (unreleased : ∀ q, .released q ∉ ev) (stands : ProcessStands (tr ++ ev))
    (top : ∀ stack ∈ threads, ∀ f ∈ stack.tail, f.early = true)
    (install : ∀ stack ∈ threads, ∀ f ∈ stack, hasFallback f = true →
      s.memory.pool.fallback ≠ none)
    (reload : ∀ stack ∈ threads, ∀ f ∈ stack, reloads f = true → s.memory.pool.current ≠ none) :
    ProcessKept (tr ++ ev) ⟨m, threads⟩ := by
  constructor
  · exact stands
  · intro q hq
    exact (kept.used q (same.used ▸ hq)).append (unreleased q)
  · intro q hq
    obtain ⟨hused, hstanding⟩ := kept.current q (same.current ▸ hq)
    exact ⟨same.used.symm ▸ hused, hstanding.append (unreleased q)⟩
  · intro q hq
    exact same.used.symm ▸ kept.fallback q (same.fallback ▸ hq)
  · exact top
  · simpa only [same.fallback] using install
  · simpa only [same.current] using reload

/-- A queue object is handed out; `m` may name it as the static queue. -/
theorem ProcessKept.handsOut (kept : ProcessKept tr s) {threads : List (List QueueFrame)}
    {m : QueueMemory} {q : QueueId} {more : List QueueEvent}
    (mild : ∀ x ∈ more, x.mild = true) (free : s.memory.pool.madeUsed q = false)
    (used : m.pool.madeUsed = Function.update s.memory.pool.madeUsed q true)
    (current : m.pool.current = s.memory.pool.current)
    (fallback : m.pool.fallback = s.memory.pool.fallback ∨ m.pool.fallback = some q)
    (top : ∀ stack ∈ threads, ∀ f ∈ stack.tail, f.early = true)
    (install : ∀ stack ∈ threads, ∀ f ∈ stack, hasFallback f = true → m.pool.fallback ≠ none)
    (reload : ∀ stack ∈ threads, ∀ f ∈ stack, reloads f = true → s.memory.pool.current ≠ none) :
    ProcessKept (tr ++ .created q :: more) ⟨m, threads⟩ := by
  have unreleased : ∀ x, .released x ∉ .created q :: more := by
    intro x
    rw [List.mem_cons, not_or]
    exact ⟨by simp, unreleased_of_mild mild x⟩
  have other : ∀ x, s.memory.pool.madeUsed x = true → m.pool.madeUsed x = true := by
    intro x hx
    rw [used]
    by_cases hxq : x = q
    · subst hxq; simp
    · simpa [hxq] using hx
  constructor
  · refine kept.stands.silent ?_
    rintro x hx r rfl
    rcases List.mem_cons.mp hx with hx | hx
    · cases hx
    · cases mild _ hx
  · intro x hx
    by_cases hxq : x = q
    · subst hxq
      refine ⟨tr, more, rfl, ?_⟩
      rintro y hy rfl
      exact unreleased_of_mild mild _ hy
    · rw [used, Function.update_of_ne hxq] at hx
      exact (kept.used x hx).append (unreleased x)
  · intro x hx
    obtain ⟨hused, hstanding⟩ := kept.current x (current ▸ hx)
    exact ⟨other x hused, hstanding.append (unreleased x)⟩
  · intro x hx
    rcases fallback with hsame | hnew
    · exact other x (kept.fallback x (hsame ▸ hx))
    · obtain rfl : q = x := Option.some.inj (hnew.symm.trans hx)
      change m.pool.madeUsed q = true
      rw [used]
      simp
  · exact top
  · exact install
  · simpa only [current] using reload

/-- One of the queues in use, or none, becomes current. -/
theorem ProcessKept.installs (kept : ProcessKept tr s) {threads : List (List QueueFrame)}
    {m : QueueMemory} {q : Option QueueId}
    (hpool : m.pool = s.memory.pool.setProcessQueue q)
    (used : ∀ x, q = some x → s.memory.pool.madeUsed x = true)
    (top : ∀ stack ∈ threads, ∀ f ∈ stack.tail, f.early = true)
    (install : ∀ stack ∈ threads, ∀ f ∈ stack, hasFallback f = true →
      s.memory.pool.fallback ≠ none)
    (reload : ∀ stack ∈ threads, ∀ f ∈ stack, reloads f = true → q ≠ none) :
    ProcessKept (tr ++ [.installed q]) ⟨m, threads⟩ := by
  have hused : m.pool.madeUsed = s.memory.pool.madeUsed := by rw [hpool]; rfl
  have hfallback : m.pool.fallback = s.memory.pool.fallback := by rw [hpool]; rfl
  have hcurrent : m.pool.current = q := by rw [hpool]; rfl
  constructor
  · exact kept.stands.silent (by simp)
  · intro x hx
    exact (kept.used x (hused ▸ hx)).append (by simp)
  · intro x hx
    obtain rfl : q = some x := hcurrent.symm.trans hx
    have hx := used x rfl
    exact ⟨hused.symm ▸ hx, tr, [], rfl, by simp, kept.used x hx⟩
  · intro x hx
    exact hused.symm ▸ kept.fallback x (hfallback ▸ hx)
  · exact top
  · simpa only [hfallback] using install
  · simpa only [hcurrent] using reload

/-- A queue object that is no process queue is given back. -/
theorem ProcessKept.releases (kept : ProcessKept tr s) {threads : List (List QueueFrame)}
    {m : QueueMemory} {q : QueueId} (hpool : m.pool = (s.memory.pool.releaseQueue q).2)
    (current : s.memory.pool.current ≠ some q) (fallback : s.memory.pool.fallback ≠ some q)
    (top : ∀ stack ∈ threads, ∀ f ∈ stack.tail, f.early = true)
    (install : ∀ stack ∈ threads, ∀ f ∈ stack, hasFallback f = true →
      s.memory.pool.fallback ≠ none)
    (reload : ∀ stack ∈ threads, ∀ f ∈ stack, reloads f = true → s.memory.pool.current ≠ none) :
    ProcessKept (tr ++ if s.memory.pool.madeUsed q then [.released q] else []) ⟨m, threads⟩ := by
  obtain ⟨hused, hcurrent, hfallback⟩ := s.memory.pool.releaseQueue_used q
  rw [← hpool] at hused hcurrent hfallback
  have unreleased : ∀ x, x ≠ q →
      .released x ∉ (if s.memory.pool.madeUsed q then [.released q] else [] : List QueueEvent) := by
    intro x hx
    split_ifs <;> simp [hx]
  constructor
  · refine kept.stands.silent ?_
    intro ev hev r
    split_ifs at hev
    · obtain rfl := List.mem_singleton.mp hev
      simp
    · cases hev
  · intro x hx
    have hxq : x ≠ q := by
      rintro rfl
      simp [hused] at hx
    exact (kept.used x (by simpa [hused, hxq] using hx)).append (unreleased x hxq)
  · intro x hx
    have hx : s.memory.pool.current = some x := hcurrent ▸ hx
    have hxq : x ≠ q := by
      rintro rfl
      exact current hx
    obtain ⟨hx, hstanding⟩ := kept.current x hx
    exact ⟨by simpa [hused, hxq] using hx, hstanding.append (unreleased x hxq)⟩
  · intro x hx
    have hx : s.memory.pool.fallback = some x := hfallback ▸ hx
    have hxq : x ≠ q := by
      rintro rfl
      exact fallback hx
    simpa [hused, hxq] using kept.fallback x hx
  · exact top
  · simpa only [hfallback] using install
  · simpa only [hcurrent] using reload

/-- The activations that a move puts on a stack, where none of them is in the middle of
`process_queue`. -/
theorem ProcessKept.quietFrames (kept : ProcessKept tr s) (new : List QueueFrame)
    {spawned : List (List QueueFrame)} (hstack : s.threads[i]? = some (old ++ rest))
    (early : ∀ f ∈ new, f.early = true)
    (fresh : ∀ stack ∈ spawned, ∀ f ∈ stack, f.early = true) :
    (∀ stack ∈ s.threads.set i (new ++ rest) ++ spawned, ∀ f ∈ stack, hasFallback f = true →
      s.memory.pool.fallback ≠ none) ∧
    ∀ stack ∈ s.threads.set i (new ++ rest) ++ spawned, ∀ f ∈ stack, reloads f = true →
      s.memory.pool.current ≠ none := by
  have hfallback : ∀ f : QueueFrame, f.early = true → hasFallback f = true →
      s.memory.pool.fallback ≠ none := by
    intro f hearly h
    simp [hasFallback_of_early hearly] at h
  have hreloads : ∀ f : QueueFrame, f.early = true → reloads f = true →
      s.memory.pool.current ≠ none := by
    intro f hearly h
    simp [reloads_of_early hearly] at h
  exact ⟨Stacks.forall_set kept.install hstack new spawned (fun f hf => hfallback f (early f hf))
      fun stack hs f hf => hfallback f (fresh stack hs f hf),
    Stacks.forall_set kept.reload hstack new spawned (fun f hf => hreloads f (early f hf))
      fun stack hs f hf => hreloads f (fresh stack hs f hf)⟩

theorem objectStep_of_acts {m : QueueMemory} {threads : List (List QueueFrame)}
    (acts : Acts m e threads c old rest mv) : QueueMemory.ObjectStep m c old mv := by
  cases acts with
  | call _ called => exact QueueMemory.call_objects called
  | answer answered => exact .tame (QueueMemory.answer_tame answered)
  | go goes => exact QueueMemory.go_objects goes

theorem ProcessKept.step (kept : ProcessKept tr s) {t : QueueThreads} {ev : List QueueEvent}
    (proper : proper s (i, e, c)) (keeps : keepsProcess s (i, e, c))
    (h : step s (i, e, c) = some (t, ev)) : ProcessKept (tr ++ ev) t := by
  obtain ⟨old, rest, mv, hstack, acts, rfl, rfl⟩ := step_cases h
  have below := kept.below hstack acts
  have objects := objectStep_of_acts acts
  have none : ∀ stack ∈ ([] : List (List QueueFrame)), ∀ f ∈ stack, f.early = true := by simp
  cases objects with
  | tame tame =>
    rw [tame.spawned]
    obtain ⟨install, reload⟩ := kept.quietFrames _ hstack tame.frames none
    exact kept.tame tame.objects (unreleased_of_mild tame.events)
      (kept.stands.silent (silent_of_mild tame.events))
      (kept.tops below (fun f hf => tame.frames f (List.mem_of_mem_tail hf)) none) install reload
  | @created _ q more spawned n hands mild early =>
    obtain ⟨install, reload⟩ := kept.quietFrames [] hstack (by simp) early
    refine kept.handsOut mild hands.free hands.used hands.current (.inl hands.fallback)
      (kept.tops below (by simp) early) ?_ reload
    intro stack hs f hf hfallback
    exact hands.fallback.symm ▸ install stack hs f hf hfallback
  | @sets q =>
    obtain ⟨install, reload⟩ := kept.quietFrames [] hstack (by simp) none
    refine kept.installs rfl ?_ (kept.tops below (by simp) none) install ?_
    · rintro x rfl
      exact proper
    · rintro stack hs f hf hreloads rfl
      -- nobody is about to load the current queue for the last time
      obtain ⟨u, rfl⟩ : ∃ u, f = .reload u := by
        cases f <;> simp [reloads] at hreloads
        exact ⟨_, rfl⟩
      have hall : ∀ stack ∈ s.threads, ∀ f ∈ stack, f ≠ QueueFrame.reload u := by
        rintro stack hst f hf rfl
        cases stack with
        | nil => cases hf
        | cons f' below =>
          rcases List.mem_cons.mp hf with rfl | hf
          · have hnone := List.all_eq_true.mp keeps _ hst
            simp [reloads] at hnone
          · cases kept.top _ hst _ hf
      exact Stacks.forall_set (P := fun f => f ≠ QueueFrame.reload u) hall hstack
        [] [] (by simp) (by simp) stack hs _ hf rfl
  | @returns f u q loads current =>
    obtain ⟨install, reload⟩ := kept.quietFrames [.use u q] hstack (by simp [QueueFrame.early]) none
    exact kept.tame (.refl _) (by simp) (kept.stands.returns (kept.current q current).2)
      (kept.tops below (by simp) none) install reload
  | @crashes u current =>
    exact absurd current (kept.reload _ (List.mem_of_getElem? hstack) (.reload u) (by simp) rfl)
  | @found u q fallback =>
    have hfallback : s.memory.pool.fallback ≠ .none := by
      rw [show s.memory.pool.fallback = some q from fallback]
      simp
    have install := Stacks.forall_set kept.install hstack [.install u] []
      (fun _ _ _ => hfallback) (by simp)
    have reload := Stacks.forall_set kept.reload hstack [.install u] []
      (by simp [reloads]) (by simp)
    exact kept.tame (.refl _) (by simp) (kept.stands.silent (by simp))
      (kept.tops below (by simp) none) install reload
  | @makes u q more spawned n hands mild early =>
    have reload := Stacks.forall_set kept.reload hstack [.install u] spawned (by simp [reloads])
      (fun stack hs f hf h => by simp [reloads_of_early (early stack hs f hf)] at h)
    exact kept.handsOut mild hands.free hands.used hands.current (.inr rfl)
      (kept.tops below (by simp) early) (fun _ _ _ _ _ => by simp [QueueMemory.withPool]) reload
  | @keeps u q current =>
    have hfallback := kept.install _ (List.mem_of_getElem? hstack) (.install u) (by simp) rfl
    have hcurrent : s.memory.pool.current ≠ .none := by
      rw [show s.memory.pool.current = some q from current]
      simp
    have install := Stacks.forall_set kept.install hstack [.reload u] []
      (fun _ _ _ => hfallback) (by simp)
    have reload := Stacks.forall_set kept.reload hstack [.reload u] []
      (fun _ _ _ => hcurrent) (by simp)
    exact kept.tame (.refl _) (by simp) (kept.stands.silent (by simp))
      (kept.tops below (by simp) none) install reload
  | @installs u current =>
    have hfallback := kept.install _ (List.mem_of_getElem? hstack) (.install u) (by simp) rfl
    have install := Stacks.forall_set kept.install hstack [.reload u] []
      (fun _ _ _ => hfallback) (by simp)
    exact kept.installs rfl kept.fallback (kept.tops below (by simp) none) install
      (fun _ _ _ _ _ => hfallback)
  | @releases q new early =>
    obtain ⟨install, reload⟩ := kept.quietFrames new hstack early none
    have hkeeps : s.memory.pool.current ≠ some q ∧ s.memory.pool.fallback ≠ some q := by
      simpa [keepsProcess, hstack] using keeps
    exact kept.releases rfl hkeeps.1 hkeeps.2
      (kept.tops below (fun f hf => early f (List.mem_of_mem_tail hf)) none) install reload

theorem reaches_processKept {threads : ℕ} (run : Reaches step
    (fun s input => proper s input ∧ keepsProcess s input) (start threads) tr s) :
    ProcessKept tr s := by
  refine run.invariant (P := ProcessKept) (processKept_start threads) ?_
  rintro tr s ⟨i, e, c⟩ t ev kept ⟨proper, keeps⟩ hstep
  exact kept.step proper keeps hstep

theorem getCurrent_returns {t : QueueThreads} {j : ℕ} {stack : List QueueFrame} {q : QueueId}
    (hstack : t.threads[j]? = some stack) (may : mayCall stack = true)
    (current : t.memory.pool.current = some q) :
    (execute step t [(j, {}, .call .getCurrent), (j, {}, .go)]).map Prod.snd =
      some [.process (some q)] := by
  have hset : ∀ new, (t.threads.set j new)[j]? = some new := fun new =>
    List.getElem?_set_self (List.getElem?_eq_some_iff.mp hstack).1
  simp [execute, step, move, hstack, may, hset, QueueMemory.call, QueueMemory.go, current,
    QueueMemory.tick]

/-- A thread in no call clears the current process queue and asks for it: it is given the static
queue. -/
theorem getCurrent_fallback {t : QueueThreads} {j : ℕ} {stack : List QueueFrame} {q : QueueId}
    (hstack : t.threads[j]? = some stack) (may : mayCall stack = true)
    (fallback : t.memory.pool.fallback = some q) :
    (execute step t [(j, {}, .call (.setCurrent none)), (j, {}, .call .getCurrent), (j, {}, .go),
      (j, {}, .go), (j, {}, .go), (j, {}, .go)]).map Prod.snd =
      some [.installed none, .installed (some q), .process (some q)] := by
  have hset : ∀ new, (t.threads.set j new)[j]? = some new := fun new =>
    List.getElem?_set_self (List.getElem?_eq_some_iff.mp hstack).1
  simp [execute, step, move, hstack, may, hset, QueueMemory.call, QueueMemory.go, fallback,
    QueueMemory.tick, QueueMemory.withPool, setProcessQueue]

theorem reload_crashes {t : QueueThreads} {j : ℕ} {u : Use} {rest : List QueueFrame}
    (hstack : t.threads[j]? = some (.reload u :: rest)) (current : t.memory.pool.current = none) :
    (execute step t [(j, {}, .go)]).map Prod.snd = some [.process none] := by
  simp [execute, step, move, hstack, QueueMemory.go, current, QueueMemory.tick]

theorem not_stands {a b : List QueueEvent} {q : QueueId} (uncreated : .created q ∉ b) :
    ¬ ProcessStands (a ++ .released q :: b ++ [.process (some q)]) := by
  intro stands
  obtain ⟨x, hx, hstanding⟩ := stands _ (some q) [] rfl
  cases hx
  exact not_alive uncreated hstanding.alive

/-- A step that does not keep the process queues lets a thread that is free to call, or one that is
about to load, be given a released queue or a null pointer. -/
theorem unkept_undoes (kept : ProcessKept tr s) {t : QueueThreads} {ev : List QueueEvent}
    (unkept : ¬ keepsProcess s (i, e, c)) (h : step s (i, e, c) = some (t, ev)) {j : ℕ}
    {stack : List QueueFrame} (other : j ≠ i) (hj : s.threads[j]? = some stack)
    (may : mayCall stack = true) :
    ∃ inputs u tr', execute step t inputs = some (u, tr') ∧ Along step (proper · ·) t inputs ∧
      ¬ ProcessStands (tr ++ ev ++ tr') := by
  obtain ⟨old, rest, mv, hstack, acts, rfl, ht⟩ := step_cases h
  cases acts with
  | @answer finishes f _ _ _ => simp [keepsProcess] at unkept
  | @call c _ _ _ called =>
    cases c with
    | setCurrent q =>
      cases q with
      | some q => simp [keepsProcess] at unkept
      | none =>
        cases called
        obtain ⟨loading, hloading, htop⟩ : ∃ stack ∈ s.threads, stack.head?.any reloads = true := by
          simpa [keepsProcess] using unkept
        obtain ⟨k, hk⟩ := List.getElem?_of_mem hloading
        obtain ⟨u, below, rfl⟩ : ∃ u below, loading = .reload u :: below := by
          cases loading with
          | nil => simp at htop
          | cons f below =>
            cases f <;> simp [reloads] at htop
            exact ⟨_, below, rfl⟩
        have hki : k ≠ i := by
          rintro rfl
          obtain rfl : rest = .reload u :: below := Option.some.inj (hstack.symm.trans hk)
          simp [mayCall, QueueFrame.outside] at *
        have hkt : t.threads[k]? = some (.reload u :: below) := by
          simpa [ht, List.getElem?_set_ne (Ne.symm hki)] using hk
        obtain ⟨⟨v, tr'⟩, hrun, rfl⟩ :=
          Option.map_eq_some_iff.mp (reload_crashes hkt (by rw [ht]; rfl))
        refine ⟨[(k, {}, .go)], v, _, hrun, along_of_forall _ _ (by simp [proper]), ?_⟩
        intro stands
        obtain ⟨x, hx, -⟩ := stands _ none [] rfl
        cases hx
    | _ => simp [keepsProcess] at unkept
  | @go f _ _ goes =>
    obtain ⟨q, rfl, hprocess⟩ : ∃ q, f = .release q ∧
        (s.memory.pool.current = some q ∨ s.memory.pool.fallback = some q) := by
      cases f <;> simp [keepsProcess, hstack] at unkept
      rename_i q
      exact ⟨q, rfl, by tauto⟩
    cases goes
    have hused : s.memory.pool.madeUsed q = true := by
      rcases hprocess with hcurrent | hfallback
      · exact (kept.current q hcurrent).1
      · exact kept.fallback q hfallback
    obtain ⟨-, hcurrent', hfallback'⟩ := s.memory.pool.releaseQueue_used q
    have hjt : t.threads[j]? = some stack := by
      rw [ht]
      simp only [QueueMemory.release, List.append_nil]
      rw [List.getElem?_set_ne (Ne.symm other), hj]
    have hev : ((s.memory.tick e).release q).events = [.released q] := if_pos hused
    rw [hev]
    rcases hprocess with hcurrent | hfallback
    · have ht' : t.memory.pool.current = some q := by
        rw [ht]
        exact hcurrent'.trans hcurrent
      obtain ⟨⟨v, tr'⟩, hrun, rfl⟩ :=
        Option.map_eq_some_iff.mp (getCurrent_returns hjt may ht')
      refine ⟨_, v, _, hrun, along_of_forall _ _ (by simp [proper]), ?_⟩
      simpa using not_stands (a := tr) (b := []) (q := q) (by simp)
    · have ht' : t.memory.pool.fallback = some q := by
        rw [ht]
        exact hfallback'.trans hfallback
      obtain ⟨⟨v, tr'⟩, hrun, rfl⟩ :=
        Option.map_eq_some_iff.mp (getCurrent_fallback hjt may ht')
      refine ⟨_, v, _, hrun, along_of_forall _ _ (by simp [proper]), ?_⟩
      simpa using not_stands (a := tr) (b := [.installed none, .installed (some q)]) (q := q)
        (by simp)

/-- `process_queue` returns only queues that were made current while they existed and were not
released since, in every run that keeps the two process queues. Any other step lets the next call of
another thread, or the last load of one, be given something else. -/
theorem process_queue_stands {threads : ℕ} {tr : List QueueEvent} {s : QueueThreads}
    (run : Reaches step (fun s input => proper s input ∧ keepsProcess s input) (start threads)
      tr s) :
    ProcessStands tr ∧
    ∀ i e c t ev, ¬ keepsProcess s (i, e, c) → step s (i, e, c) = some (t, ev) →
      ∀ j stack, j ≠ i → s.threads[j]? = some stack → mayCall stack = true →
        ∃ inputs u tr', execute step t inputs = some (u, tr') ∧
          Along step (proper · ·) t inputs ∧ ¬ ProcessStands (tr ++ ev ++ tr') := by
  have kept := reaches_processKept run
  refine ⟨kept.stands, ?_⟩
  intro i e c t ev unkept hstep j stack other hj may
  exact unkept_undoes kept unkept hstep other hj may

section Run

def makeCurrent : List (ℕ × QueueEnv × QueueChoice) :=
  [(0, {}, .call (.create .manual .manual)), (0, {}, .call (.setCurrent (some 0)))]

/-- A thread asks for the current process queue, which is there. -/
def askOnce (i : ℕ) : List (ℕ × QueueEnv × QueueChoice) :=
  [(i, {}, .call .getCurrent), (i, {}, .go)]

theorem askOnce_trace : (execute step (start 2) (makeCurrent ++ askOnce 1)).map Prod.snd =
    some [.created 0, .opened 0 .manual, .opened 1 .manual, .installed (some 0),
      .process (some 0)] := by
  decide +kernel

theorem process_queue_stands_asked : ∃ tr s,
    Reaches step (fun s input => proper s input ∧ keepsProcess s input) (start 2) tr s ∧
    .process (some 0) ∈ tr ∧ ProcessStands tr := by
  obtain ⟨⟨s, tr⟩, hrun, htr⟩ := Option.map_eq_some_iff.mp askOnce_trace
  dsimp only at htr
  subst htr
  have h : Reaches step (fun s input => proper s input ∧ keepsProcess s input) (start 2) _ s :=
    reaches_of_execute _ hrun (by decide +kernel)
  exact ⟨_, s, h, by simp, (process_queue_stands h).1⟩

def closeCurrent : List (ℕ × QueueEnv × QueueChoice) :=
  [(0, {}, .call (.close 0)), (0, {}, .go)]

theorem releasedCurrent_trace :
    (execute step (start 2) (makeCurrent ++ closeCurrent ++ askOnce 1)).map Prod.snd =
    some [.created 0, .opened 0 .manual, .opened 1 .manual, .installed (some 0), .released 0,
      .process (some 0)] := by
  decide +kernel

/-- The current process queue is cleared after the compare-exchange of another thread. -/
def clearCurrent : List (ℕ × QueueEnv × QueueChoice) :=
  [(0, {}, .call .getCurrent), (0, {}, .go), (0, {}, .go), (0, {}, .go),
    (1, {}, .call (.setCurrent none)), (0, {}, .go)]

theorem clearedCurrent_trace : (execute step (start 2) clearCurrent).map Prod.snd =
    some [.created 0, .opened 0 .threadPool,
      .opened 1 .threadPool, .installed (some 0), .installed none, .process none] := by
  decide +kernel

theorem process_queue_dangles :
    (∃ tr s, Reaches step (fun s input => proper s input) (start 2) tr s ∧
      ∃ a, tr = a ++ [.process (some 0)] ∧ ¬ Alive a 0) ∧
    ∃ tr s, Reaches step (fun s input => proper s input) (start 2) tr s ∧ .process none ∈ tr := by
  constructor
  · obtain ⟨⟨s, tr⟩, hrun, htr⟩ := Option.map_eq_some_iff.mp releasedCurrent_trace
    dsimp only at htr
    subst htr
    refine ⟨_, s, reaches_of_execute _ hrun (by decide +kernel),
      [.created 0, .opened 0 .manual, .opened 1 .manual, .installed (some 0), .released 0], rfl, ?_⟩
    exact not_alive (a := [.created 0, .opened 0 .manual, .opened 1 .manual, .installed (some 0)])
      (b := []) (by simp)
  · obtain ⟨⟨s, tr⟩, hrun, htr⟩ := Option.map_eq_some_iff.mp clearedCurrent_trace
    dsimp only at htr
    subst htr
    exact ⟨_, s, reaches_of_execute _ hrun (by decide +kernel), by simp⟩

end Run

end QueueThreads

end IW4x.Gdk
