import IW4x.Gdk.QueueThreads

/-!
# The process queue

The current process queue and the static queue that takes its place are pointers without a
reference. Here is what a trace has to say of a queue that `process_queue` may return, and what each
move does to the queue objects and to these two pointers.
-/

namespace IW4x.Gdk

open Runs

/-- The trace created the queue and did not release it since. -/
def Alive (tr : List QueueEvent) (q : QueueId) : Prop :=
  Since (.created q) (· = .released q) tr

/-- The trace made the queue current while it was alive and did not release it since. -/
def Standing (tr : List QueueEvent) (q : QueueId) : Prop :=
  ∃ a b, tr = a ++ .installed (some q) :: b ∧ .released q ∉ b ∧ Alive a q

/-- What `process_queue` returns is always a queue, and it stands. -/
def ProcessStands (tr : List QueueEvent) : Prop :=
  ∀ a r b, tr = a ++ .process r :: b → ∃ q, r = some q ∧ Standing a q

/-- The event says nothing about the queue objects. -/
def QueueEvent.mild : QueueEvent → Bool
  | .created _ => false
  | .released _ => false
  | .installed _ => false
  | .process _ => false
  | _ => true

/-- The activation has not come to the compare-exchange of `process_queue`, or is past it. -/
def QueueFrame.early : QueueFrame → Bool
  | .install _ => false
  | .reload _ => false
  | _ => true

theorem Alive.append {tr ev : List QueueEvent} {q : QueueId} (alive : Alive tr q)
    (unreleased : .released q ∉ ev) : Alive (tr ++ ev) q := by
  refine since_append.mpr (.inr ⟨alive, ?_⟩)
  rintro y hy rfl
  exact unreleased hy

theorem Standing.append {tr ev : List QueueEvent} {q : QueueId} (standing : Standing tr q)
    (unreleased : .released q ∉ ev) : Standing (tr ++ ev) q := by
  obtain ⟨a, b, rfl, hb, alive⟩ := standing
  refine ⟨a, b ++ ev, by simp, ?_, alive⟩
  rw [List.mem_append, not_or]
  exact ⟨hb, unreleased⟩

theorem not_alive {a b : List QueueEvent} {q : QueueId} (uncreated : .created q ∉ b) :
    ¬ Alive (a ++ .released q :: b) q := by
  intro alive
  rcases since_append.mp alive with h | ⟨-, h⟩
  · rcases since_cons.mp h with h | ⟨h, -⟩
    · exact uncreated h.mem
    · cases h
  · exact h _ List.mem_cons_self rfl

theorem Standing.alive {tr : List QueueEvent} {q : QueueId} (standing : Standing tr q) :
    Alive tr q := by
  obtain ⟨a, b, rfl, hb, alive⟩ := standing
  refine alive.append ?_
  rw [List.mem_cons, not_or]
  exact ⟨by simp, hb⟩

theorem ProcessStands.append {tr ev : List QueueEvent} (stands : ProcessStands tr)
    (new : ∀ a r b, ev = a ++ .process r :: b → ∃ q, r = some q ∧ Standing (tr ++ a) q) :
    ProcessStands (tr ++ ev) := by
  intro a r b h
  refine split_append (P := fun a e => ∀ r, e = .process r → ∃ q, r = some q ∧ Standing a q)
    ?_ ?_ a _ b h r rfl
  · rintro a _ b htr r rfl
    exact stands a r b htr
  · rintro a _ b hev r rfl
    exact new a r b hev

theorem ProcessStands.silent {tr ev : List QueueEvent} (stands : ProcessStands tr)
    (silent : ∀ e ∈ ev, ∀ r, e ≠ .process r) : ProcessStands (tr ++ ev) := by
  refine stands.append ?_
  rintro a r b rfl
  exact absurd rfl (silent (.process r) (by simp) r)

theorem ProcessStands.returns {tr : List QueueEvent} {q : QueueId} (stands : ProcessStands tr)
    (standing : Standing tr q) : ProcessStands (tr ++ [.process (some q)]) := by
  refine stands.append ?_
  intro a r b h
  cases a with
  | nil =>
    cases h
    exact ⟨q, rfl, by simpa using standing⟩
  | cons x a => simp at h

namespace QueuePool

variable {α : Type}

structure SameObjects (p q : QueuePool α) : Prop where
  used : q.madeUsed = p.madeUsed
  current : q.current = p.current
  fallback : q.fallback = p.fallback

theorem SameObjects.refl (p : QueuePool α) : SameObjects p p := ⟨rfl, rfl, rfl⟩

theorem SameObjects.trans {p q r : QueuePool α} (hpq : SameObjects p q) (hqr : SameObjects q r) :
    SameObjects p r :=
  ⟨hqr.used.trans hpq.used, hqr.current.trans hpq.current, hqr.fallback.trans hpq.fallback⟩

theorem setPort_objects (p : QueuePool α) (i : PortId) (t : TaskPort α) :
    SameObjects p (p.setPort i t) := ⟨rfl, rfl, rfl⟩

theorem takePort_objects (p : QueuePool α) : SameObjects p p.takePort.2 := by
  unfold takePort
  split <;> exact ⟨rfl, rfl, rfl⟩

theorem givePort_objects (p : QueuePool α) (i : Option PortId) : SameObjects p (p.givePort i) := by
  cases i with
  | none => exact .refl p
  | some i => exact ⟨rfl, rfl, rfl⟩

theorem dropPort_objects (p : QueuePool α) (owns : Bool) (i : Option PortId) :
    SameObjects p (p.dropPort owns i).2 := by
  cases i with
  | none => exact .refl p
  | some i =>
    unfold dropPort
    dsimp only
    split_ifs <;> exact ⟨rfl, rfl, rfl⟩

theorem borrow_objects (p : QueuePool α) (i : Option PortId) : SameObjects p (p.borrow i) := by
  cases i with
  | none => exact .refl p
  | some i => exact ⟨rfl, rfl, rfl⟩

/-- A queue object that was free is handed out; the two process queues stay. -/
structure HandsOut (p q : QueuePool α) (i : QueueId) : Prop where
  free : p.madeUsed i = false
  used : q.madeUsed = Function.update p.madeUsed i true
  current : q.current = p.current
  fallback : q.fallback = p.fallback

theorem HandsOut.after {p q r : QueuePool α} {i : QueueId} (hands : HandsOut q r i)
    (same : SameObjects p q) : HandsOut p r i := by
  constructor
  · rw [← same.used]; exact hands.free
  · rw [hands.used, same.used]
  · rw [hands.current, same.current]
  · rw [hands.fallback, same.fallback]

theorem HandsOut.before {p q r : QueuePool α} {i : QueueId} (hands : HandsOut p q i)
    (same : SameObjects q r) : HandsOut p r i := by
  constructor
  · exact hands.free
  · rw [same.used, hands.used]
  · rw [same.current, hands.current]
  · rw [same.fallback, hands.fallback]

theorem takeQueue_hands {p q : QueuePool α} {i : QueueId} (h : p.takeQueue = (some i, q)) :
    HandsOut p q i := by
  unfold takeQueue at h
  split at h
  · rename_i j hfind
    cases h
    exact ⟨by simpa using List.find?_some hfind, rfl, rfl, rfl⟩
  · cases h

theorem createQueue_hands {p q : QueuePool α} {w c : DispatchMode} {i : QueueId}
    (h : p.createQueue w c = (some i, q)) : HandsOut p q i := by
  unfold createQueue at h
  dsimp only at h
  have hports := p.takePort_objects.trans p.takePort.2.takePort_objects
  split at h
  · split at h
    · rename_i j r hqueue
      cases h
      have hands := (takeQueue_hands hqueue).after hports
      exact ⟨hands.free, hands.used, hands.current, hands.fallback⟩
    · cases h
  · cases h

theorem createCompositeQueue_hands {p q : QueuePool α} {w c : Option PortId} {i : QueueId}
    (h : p.createCompositeQueue w c = (some i, q)) : HandsOut p q i := by
  unfold createCompositeQueue at h
  split at h
  · cases h
  · rename_i j r hqueue
    cases h
    refine (takeQueue_hands hqueue).before ?_
    have hborrow : ∀ p : QueuePool α, SameObjects p ((p.borrow w).borrow c) := fun p =>
      (p.borrow_objects w).trans ((p.borrow w).borrow_objects c)
    exact ⟨(hborrow _).used, (hborrow _).current, (hborrow _).fallback⟩

theorem givePorts_objects (p : QueuePool α) (done : Option PortId × Option PortId) :
    SameObjects p (p.givePorts done) :=
  (p.givePort_objects done.1).trans ((p.givePort done.1).givePort_objects done.2)

theorem releaseQueue_used (p : QueuePool α) (i : QueueId) :
    (p.releaseQueue i).2.madeUsed = Function.update p.madeUsed i false ∧
      (p.releaseQueue i).2.current = p.current ∧ (p.releaseQueue i).2.fallback = p.fallback := by
  unfold releaseQueue
  split_ifs with hused
  · have hwork := p.dropPort_objects (p.madeOwns i) (p.madePorts i).work
    have hcompletion := (p.dropPort (p.madeOwns i) (p.madePorts i).work).2.dropPort_objects
      (p.madeOwns i) (p.madePorts i).completion
    have hsame := hwork.trans hcompletion
    exact ⟨by simp only [hsame.used], hsame.current, hsame.fallback⟩
  · refine ⟨?_, rfl, rfl⟩
    rw [Function.update_eq_self_iff.mpr (by simpa using hused)]

end QueuePool

open QueuePool

namespace QueueMemory

structure Tame (m : QueueMemory) (mv : QueueMove) : Prop where
  objects : SameObjects m.pool mv.memory.pool
  frames : ∀ f ∈ mv.new, f.early = true
  events : ∀ e ∈ mv.events, e.mild = true
  spawned : mv.spawned = []

theorem Tame.rest {m : QueueMemory} {mv : QueueMove} {rest : List QueueFrame} (tame : Tame m mv)
    (early : ∀ f ∈ rest, f.early = true) : Tame m ⟨mv.memory, mv.new ++ rest, mv.events, []⟩ := by
  refine ⟨tame.objects, ?_, tame.events, rfl⟩
  intro f hf
  rcases List.mem_append.mp hf with hf | hf
  · exact tame.frames f hf
  · exact early f hf

theorem run_tame (m : QueueMemory) (n : Ticket) (canceled : Bool) : Tame m (m.run n canceled) := by
  unfold run
  split
  · exact ⟨.refl _, by simp [QueueFrame.early], by simp [QueueEvent.mild], rfl⟩
  · refine ⟨.refl _, ?_, by simp [QueueEvent.mild], rfl⟩
    cases canceled <;> simp [QueueFrame.early]
  · exact ⟨.refl _, by simp [QueueFrame.early], by simp [QueueEvent.mild], rfl⟩
  · split_ifs
    · exact ⟨.refl _, by simp [QueueFrame.early], by simp [QueueEvent.mild], rfl⟩
    · exact ⟨.refl _, by simp [QueueFrame.early], by simp [QueueEvent.mild], rfl⟩
  · exact ⟨⟨rfl, rfl, rfl⟩, by simp [QueueFrame.early], by simp [QueueEvent.mild], rfl⟩

theorem offer_objects (m : QueueMemory) (e : QueueEnv) (p : PortId) (delay : ℕ) (j : Job) :
    match m.offer e p delay j with
    | .unallocated => True
    | .refused _ n => SameObjects m.pool n.pool
    | .accepted _ n => SameObjects m.pool n.pool
    | .immediate _ n => SameObjects m.pool n.pool := by
  unfold offer
  by_cases halloc : e.alloc = false
  · simp [halloc]
  · simp only [halloc]
    cases (m.pool.owned p).submit m.clock delay ⟨m.tickets, p, j⟩ with
    | immediate => exact .refl _
    | accepted t => exact m.pool.setPort_objects p t
    | refused => exact .refl _

theorem send_tame {m m' : QueueMemory} {e : QueueEnv} {p : PortId} {delay : ℕ} {j : Job}
    {rest instead : List QueueFrame} {undo : QueueMemory → QueueMemory} {ev : List QueueEvent}
    (same : SameObjects m.pool m'.pool) (hundo : ∀ n, SameObjects n.pool (undo n).pool)
    (hrest : ∀ f ∈ rest, f.early = true) (hinstead : ∀ f ∈ instead, f.early = true)
    (mild : ∀ x ∈ ev, x.mild = true) :
    Tame m (m'.send e p delay j rest undo instead ev) := by
  have hoffer := m'.offer_objects e p delay j
  unfold send
  cases h : m'.offer e p delay j with
  | unallocated =>
    refine ⟨same.trans (hundo m'), hinstead, ?_, rfl⟩
    simpa [QueueEvent.mild] using mild
  | refused n n' =>
    rw [h] at hoffer
    refine ⟨(same.trans hoffer).trans (hundo n'), hinstead, ?_, rfl⟩
    simpa [QueueEvent.mild] using mild
  | accepted n n' =>
    rw [h] at hoffer
    exact ⟨same.trans hoffer, hrest, by simp [QueueEvent.mild], rfl⟩
  | immediate n n' =>
    rw [h] at hoffer
    have run := (n'.run_tame n false).rest hrest
    refine ⟨(same.trans hoffer).trans run.objects, run.frames, ?_, rfl⟩
    simpa [QueueEvent.mild] using run.events

theorem put_tame (m : QueueMemory) (e : QueueEnv) (p : PortId) (delay : ℕ) (j : Job) :
    Tame m (m.put e p delay j) :=
  send_tame (.refl _) (fun _ => .refl _) (by simp) (by simp) (by simp)

theorem dispatch_tame {m : QueueMemory} {p : PortId} {ran idle : List QueueFrame}
    (hran : ∀ f ∈ ran, f.early = true) (hidle : ∀ f ∈ idle, f.early = true) :
    Tame m (m.dispatch p ran idle) := by
  unfold dispatch
  split
  · exact ⟨.refl _, hidle, by simp, rfl⟩
  · rename_i t _
    have run := ((m.withPool (m.pool.setPort p t.port)).run_tame t.item.callback t.canceled).rest
      hran
    exact ⟨(m.pool.setPort_objects p _).trans run.objects, run.frames, run.events, rfl⟩

theorem resolve_early (u : Use) (q : Option QueueId) :
    ∀ f ∈ resolve u q, f.early = true := by
  cases q <;> simp [resolve, QueueFrame.early]

inductive ObjectStep (m : QueueMemory) : QueueChoice → List QueueFrame → QueueMove → Prop
  | tame {c old mv} (tame : Tame m mv) : ObjectStep m c old mv
  | created {c q more spawned} {n : QueueMemory} (hands : HandsOut m.pool n.pool q)
      (mild : ∀ e ∈ more, e.mild = true)
      (early : ∀ stack ∈ spawned, ∀ f ∈ stack, f.early = true) :
      ObjectStep m c [] ⟨n, [], .created q :: more, spawned⟩
  | sets {q} : ObjectStep m (.call (.setCurrent q)) []
      ⟨m.withPool (m.pool.setProcessQueue q), [], [.installed q], []⟩
  | returns {f u q} (loads : f = .load u ∨ f = .reload u) (current : m.pool.current = some q) :
      ObjectStep m .go [f] ⟨m, [.use u q], [.process (some q)], []⟩
  | crashes {u} (current : m.pool.current = none) :
      ObjectStep m .go [.reload u] ⟨m, [.crashed], [.process none], []⟩
  | found {u q} (fallback : m.pool.fallback = some q) :
      ObjectStep m .go [.fallback u] ⟨m, [.install u], [], []⟩
  | makes {u q more spawned} {n : QueueMemory} (hands : HandsOut m.pool n.pool q)
      (mild : ∀ e ∈ more, e.mild = true)
      (early : ∀ stack ∈ spawned, ∀ f ∈ stack, f.early = true) :
      ObjectStep m .go [.fallback u]
        ⟨n.withPool { n.pool with fallback := some q }, [.install u], .created q :: more, spawned⟩
  | keeps {u q} (current : m.pool.current = some q) :
      ObjectStep m .go [.install u] ⟨m, [.reload u], [], []⟩
  | installs {u} (current : m.pool.current = none) :
      ObjectStep m .go [.install u] ⟨m.withPool (m.pool.setProcessQueue m.pool.fallback),
        [.reload u], [.installed m.pool.fallback], []⟩
  | releases {q new} (early : ∀ f ∈ new, f.early = true) :
      ObjectStep m .go [.release q] ⟨m.withPool (m.pool.releaseQueue q).2, new,
        if m.pool.madeUsed q then [.released q] else [], []⟩

structure Creates (m : QueueMemory) (q : QueueId) (mv : QueueMove) : Prop where
  hands : HandsOut m.pool mv.memory.pool q
  new : mv.new = []
  events : ∃ more, mv.events = .created q :: more ∧ ∀ e ∈ more, e.mild = true
  spawned : ∀ stack ∈ mv.spawned, ∀ f ∈ stack, f.early = true

theorem created_creates {m : QueueMemory} {e : QueueEnv} {threads : List (List QueueFrame)}
    {w c : DispatchMode} {q : QueueId} {mv : QueueMove}
    (h : m.created e threads w c = some (some (q, mv))) : Creates m q mv := by
  unfold created at h
  split at h
  · cases h
  · rename_i i p hcreate
    split at h
    · split_ifs at h
      cases h
      refine ⟨createQueue_hands hcreate, rfl, ⟨_, rfl, by simp [QueueEvent.mild]⟩, ?_⟩
      intro stack hstack f hf
      simp only [hire, List.mem_append, List.mem_replicate] at hstack
      rcases hstack with ⟨-, rfl⟩ | ⟨-, rfl⟩ <;> simp_all [QueueFrame.early]
    · cases h

theorem terminate_tame {m : QueueMemory} {threads : List (List QueueFrame)} {q : QueueId}
    {wait f : Bool} {mv : QueueMove} (h : m.terminate threads q wait f = some mv) : Tame m mv := by
  unfold terminate at h
  split at h
  · split_ifs at h
    · cases h
      exact ⟨.refl _, by simp, by simp [QueueEvent.mild], rfl⟩
    · cases h
      exact ⟨⟨rfl, rfl, rfl⟩, by simp [QueueFrame.early], by simp [QueueEvent.mild], rfl⟩
    · cases h
      exact ⟨⟨rfl, rfl, rfl⟩, by simp [QueueFrame.early], by simp [QueueEvent.mild], rfl⟩
  · cases h

theorem tame_frames (m : QueueMemory) {new : List QueueFrame}
    (early : ∀ f ∈ new, f.early = true) : Tame m ⟨m, new, [], []⟩ :=
  ⟨.refl _, early, by simp, rfl⟩

theorem call_objects {m : QueueMemory} {e : QueueEnv} {threads : List (List QueueFrame)}
    {c : QueueCall} {mv : QueueMove} (h : m.call e threads c = some mv) :
    ObjectStep m (.call c) [] mv := by
  have idle : Tame m ⟨m, [], [], []⟩ := tame_frames m (by simp)
  cases c with
  | create w c =>
    simp only [call] at h
    split at h
    · cases h
    · cases h; exact .tame idle
    · rename_i q mv' hcreated
      have creates := created_creates hcreated
      obtain ⟨n, new, ev, spawned⟩ := mv'
      obtain ⟨more, rfl, mild⟩ := creates.events
      obtain rfl : new = [] := creates.new
      cases h
      exact .created (creates.hands.before ⟨rfl, rfl, rfl⟩) mild creates.spawned
  | createComposite w c =>
    simp only [call] at h
    split at h
    · cases h; exact .tame idle
    · rename_i q p hcreate
      cases h
      exact .created ((createCompositeQueue_hands hcreate).before ⟨rfl, rfl, rfl⟩) (by simp)
        (by simp)
  | duplicate q => cases h; exact .tame ⟨⟨rfl, rfl, rfl⟩, by simp, by simp, rfl⟩
  | close q =>
    cases h
    refine .tame ⟨⟨rfl, rfl, rfl⟩, ?_, by simp [close], rfl⟩
    intro f hf
    unfold close at hf
    dsimp only at hf
    split_ifs at hf
    · obtain rfl := List.mem_singleton.mp hf
      rfl
    · cases hf
  | setCurrent q => cases h; exact .sets
  | getCurrent => cases h; exact .tame (tame_frames m (by simp [QueueFrame.early]))
  | getPort q => cases h; exact .tame (tame_frames m (resolve_early _ _))
  | submit q p delay x =>
    simp only [call] at h
    split at h
    · cases h
    · cases h; exact .tame (m.put_tame _ _ _ _)
  | dispatch q p =>
    simp only [call] at h
    split at h
    · cases h
    · cases h; exact .tame (dispatch_tame (by simp) (by simp))
  | terminate q wait f => exact .tame (terminate_tame h)
  | stop => cases h; exact .tame (tame_frames m (by simp [QueueFrame.early]))
  | begin queue routine => cases h; exact .tame (tame_frames m (resolve_early _ _))
  | provide queue routine => cases h; exact .tame (tame_frames m (resolve_early _ _))
  | schedule k delay =>
    simp only [call] at h
    split_ifs at h
    · split at h
      · cases h
      · cases h; exact .tame (m.put_tame _ _ _ _)
    · cases h; exact .tame idle
  | post q x => cases h; exact .tame (tame_frames m (resolve_early _ _))
  | finish k =>
    cases h
    refine .tame (tame_frames m ?_)
    intro f hf
    split_ifs at hf
    · obtain rfl := List.mem_singleton.mp hf
      rfl
    · cases hf
  | cancel k =>
    cases h
    refine .tame (tame_frames m ?_)
    split_ifs <;> simp [QueueFrame.early]
  | takeResult k =>
    cases h
    refine .tame (tame_frames m ?_)
    split_ifs <;> simp [QueueFrame.early]
  | rewrite k queue routine => cases h; exact .tame ⟨⟨rfl, rfl, rfl⟩, by simp, by simp, rfl⟩

theorem useStep_tame {m : QueueMemory} {e : QueueEnv} {q : QueueId} {u : Use} {mv : QueueMove}
    (h : m.useStep e q u = some mv) : Tame m mv := by
  cases u with
  | current => cases h; exact ⟨⟨rfl, rfl, rfl⟩, by simp, by simp, rfl⟩
  | port => cases h; exact tame_frames m (by simp)
  | begin queue routine =>
    simp only [useStep] at h
    split at h
    · cases h
    · cases h
      exact send_tame ⟨rfl, rfl, rfl⟩ (fun _ => ⟨rfl, rfl, rfl⟩) (by simp) (by simp) (by simp)
  | provide queue routine => cases h; exact ⟨⟨rfl, rfl, rfl⟩, by simp, by simp, rfl⟩
  | post x =>
    simp only [useStep] at h
    split at h
    · cases h
    · cases h; exact m.put_tame _ _ _ _
  | announce k =>
    simp only [useStep] at h
    split at h
    · cases h
    · cases h
      exact send_tame ⟨rfl, rfl, rfl⟩ (fun _ => ⟨rfl, rfl, rfl⟩) (by simp) (by simp) (by simp)

theorem finish_tame (m : QueueMemory) (k : ℕ) : Tame m (m.finish k) := by
  unfold finish
  split_ifs
  · exact ⟨⟨rfl, rfl, rfl⟩, resolve_early _ _, by simp [QueueEvent.mild], rfl⟩
  · exact ⟨⟨rfl, rfl, rfl⟩, by simp, by simp [QueueEvent.mild], rfl⟩
  · exact tame_frames m (by simp)

theorem go_objects {m : QueueMemory} {e : QueueEnv} {threads : List (List QueueFrame)}
    {f : QueueFrame} {mv : QueueMove} (h : m.go e threads f = some mv) :
    ObjectStep m .go [f] mv := by
  cases f with
  | inside n canceled => simp [go] at h
  | announcing n canceled =>
    simp only [go] at h
    split at h
    · rename_i k hjob
      cases h
      unfold announce
      split_ifs <;>
        exact .tame ⟨⟨rfl, rfl, rfl⟩, by simp [QueueFrame.early], by simp [QueueEvent.mild], rfl⟩
    · cases h
  | retire k => cases h; exact .tame ⟨⟨rfl, rfl, rfl⟩, by simp, by simp, rfl⟩
  | returning n =>
    cases h
    refine .tame ⟨.refl _, by simp, ?_, rfl⟩
    split_ifs <;> simp [QueueEvent.mild]
  | calling t => simp [go] at h
  | finish k => cases h; exact .tame (m.finish_tame k)
  | load u =>
    simp only [go] at h
    split at h
    · rename_i q hcurrent
      cases h
      exact .returns (.inl rfl) hcurrent
    · cases h; exact .tame (tame_frames m (by simp [QueueFrame.early]))
  | fallback u =>
    simp only [go] at h
    split at h
    · rename_i q hfallback
      cases h
      exact .found hfallback
    · split at h
      · rename_i q mv' hcreated
        have creates := created_creates hcreated
        obtain ⟨n, new, ev, spawned⟩ := mv'
        obtain ⟨more, rfl, mild⟩ := creates.events
        cases h
        exact .makes creates.hands mild creates.spawned
      · cases h
  | install u =>
    simp only [go] at h
    split at h
    · rename_i q hcurrent
      cases h
      exact .keeps hcurrent
    · rename_i hcurrent
      cases h
      exact .installs hcurrent
  | reload u =>
    simp only [go] at h
    split at h
    · rename_i q hcurrent
      cases h
      exact .returns (.inr rfl) hcurrent
    · rename_i hcurrent
      cases h
      exact .crashes hcurrent
  | use u q => exact .tame (useStep_tame h)
  | crashed => simp [go] at h
  | release q =>
    cases h
    refine .releases ?_
    intro f hf
    simp only [List.mem_append, List.mem_map] at hf
    rcases hf with (⟨p, -, rfl⟩ | ⟨p, -, rfl⟩) | hf
    · rfl
    · rfl
    · split_ifs at hf
      · obtain rfl := List.mem_singleton.mp hf
        rfl
      · cases hf
  | submitLast t q w c wait =>
    cases h
    exact .tame (send_tame (.refl _) (fun _ => .refl _) (by simp [QueueFrame.early])
      (by simp [QueueFrame.early]) (by simp [QueueEvent.mild]))
  | terminatePort q w c wait =>
    cases h
    refine .tame ⟨m.pool.setPort_objects c _, ?_, by simp [QueueEvent.mild], rfl⟩
    split_ifs <;> simp [QueueFrame.early]
  | terminated q w c => cases h; exact .tame ⟨.refl _, by simp, by simp [QueueEvent.mild], rfl⟩
  | stopPort p =>
    cases h
    exact .tame ⟨m.pool.setPort_objects p _, by simp [QueueFrame.early],
      by simp [QueueEvent.mild], rfl⟩
  | join p joined =>
    simp only [go] at h
    split_ifs at h
    · cases h; exact .tame ⟨⟨rfl, rfl, rfl⟩, by simp [QueueFrame.early], by simp, rfl⟩
    · split at h
      · cases h
      · split_ifs at h
        cases h
        exact .tame (tame_frames m (by simp [QueueFrame.early]))
  | drain p =>
    cases h
    exact .tame (dispatch_tame (by simp [QueueFrame.early]) (by simp))
  | givePorts q was done =>
    simp only [go] at h
    split_ifs at h
    cases h
    refine .tame ⟨m.pool.givePorts_objects done, by simp, ?_, rfl⟩
    intro x hx
    simp only [List.mem_append, List.mem_map] at hx
    rcases hx with ⟨p, -, rfl⟩ | ⟨p, -, rfl⟩ <;> rfl
  | worker p =>
    simp only [go] at h
    split at h
    · cases h
      refine .tame (tame_frames m ?_)
      split_ifs <;> simp [QueueFrame.early]
    · cases h
      exact .tame (dispatch_tame (by simp [QueueFrame.early]) (by simp))
  | ended => simp [go] at h

theorem answer_tame {m : QueueMemory} {finishes : Bool} {f : QueueFrame} {mv : QueueMove}
    (h : m.answer finishes f = some mv) : Tame m mv := by
  cases f with
  | inside n canceled =>
    simp only [answer] at h
    split at h
    · split_ifs at h
      · cases h; exact tame_frames m (by simp [QueueFrame.early])
      · cases h; exact tame_frames m (by simp [QueueFrame.early])
    · cases h; exact tame_frames m (by simp [QueueFrame.early])
  | calling t => cases h; exact tame_frames m (by simp)
  | _ => simp [answer] at h

end QueueMemory

end IW4x.Gdk
