import IW4x.Gdk.Contexts

/-!
# The courses of the operations and of the terminations

What a step of the task queues does to the completion of an operation and to the callback of a
termination: the callback is called or is where it will be called from, and the routine of an
operation is published, waits in a port, was refused or was dispatched.
-/

namespace IW4x.Gdk

/-- The ticket is that of the callback of the termination. -/
def Ticket.ends (t : ℕ) (n : Ticket) : ℕ := if n.job = .last t then 1 else 0

/-- The activation is about to submit the callback of the termination. -/
def QueueFrame.ends (t : ℕ) : QueueFrame → ℕ
  | .submitLast x _ _ _ _ => if x = t then 1 else 0
  | _ => 0

/-- The ticket is that of the completion routine of the operation. -/
def Ticket.announces (k : ℕ) (n : Ticket) : ℕ := if n.job = .announce k then 1 else 0

/-- The ticket is that of the work of the operation. -/
def Ticket.names (k : ℕ) (n : Ticket) : ℕ := if n.job = .work k then 1 else 0

/-- The activation completes the operation, or does its work. -/
def QueueFrame.names (k : ℕ) : QueueFrame → ℕ
  | .finish x => if x = k then 1 else 0
  | .inside n _ => n.names k
  | _ => 0

/-- The activation is about to look for the completion routine of the operation. -/
def QueueFrame.announces (k : ℕ) : QueueFrame → ℕ
  | .announcing n _ => n.announces k
  | _ => 0

/-- The activation is on no way to complete an operation or to submit the callback of a
termination. -/
def QueueFrame.still : QueueFrame → Bool
  | .inside _ _ => false
  | .announcing _ _ => false
  | .submitLast _ _ _ _ _ => false
  | .release _ => true
  | f => !f.light

/-- The event is of no termination's callback, completes no operation and accepts nothing. -/
def QueueEvent.aside : QueueEvent → Bool
  | .last _ => false
  | .routine _ => false
  | .finished _ _ => false
  | .accepted _ => false
  | _ => true

def QueueEvent.settles (k : ℕ) : QueueEvent → Bool
  | .routine x => x = k
  | .finished x published => x = k && !published
  | _ => false

namespace QueueMemory

/-- A move that is about no termination, submits nothing, dispatches nothing and completes no
operation. -/
structure Elsewhere (m : QueueMemory) (old : List QueueFrame) (mv : QueueMove) : Prop where
  weigh : ∀ v, mv.memory.pool.weigh v = m.pool.weigh v
  /-- Ports keep what they hold, or are opened. -/
  rings : ∀ p, (mv.memory.pool.owned p).ring.contents = (m.pool.owned p).ring.contents ∨
    (mv.memory.pool.owned p).ring.contents = []
  clock : mv.memory.clock = m.clock
  begun : m.begun ≤ mv.memory.begun
  tickets : mv.memory.tickets = m.tickets
  stage : ∀ k, (mv.memory.operations k).stage = (m.operations k).stage ∨
    (k = m.begun ∧ m.begun < mv.memory.begun ∧ (mv.memory.operations k).stage = .running)
  terminations : mv.memory.terminations = m.terminations
  publishes : ∀ k, Stacks.weight (QueueFrame.publishes k) mv.new ≤
    Stacks.weight (QueueFrame.publishes k) old
  names : ∀ k, mv.memory.begun ≤ k → Stacks.weight (QueueFrame.names k) old = 0 →
    Stacks.weight (QueueFrame.names k) mv.new = 0
  announces : ∀ k, Stacks.weight (QueueFrame.announces k) mv.new = 0 ∧
    Stacks.weight (QueueFrame.announces k) old = 0
  ends : ∀ t, Stacks.weight (QueueFrame.ends t) mv.new = 0 ∧
    Stacks.weight (QueueFrame.ends t) old = 0
  events : ∀ x ∈ mv.events, x.aside = true

inductive Concern (m : QueueMemory) (ch : QueueChoice) : List QueueFrame → QueueMove → Prop
  | elsewhere {old mv} (elsewhere : Elsewhere m old mv) : Concern m ch old mv
  | sends {old m' e p delay j rest undo instead ev mv}
      (sends : Sends m old m' j rest undo instead ev)
      (sent : Sent m' e p delay j rest undo instead ev mv) : Concern m ch old mv
  | dispatches {p rest mv} (loop : Dispatches m p ch rest) (still : ∀ f ∈ rest, f.still = true)
      (dispatched : Dispatched m p rest mv) : Concern m ch rest mv
  | finish {k} : Concern m ch [.finish k] (m.finish k)
  | announces {n canceled k} (job : n.job = .announce k) :
      Concern m ch [.announcing n canceled] (m.announce n canceled k)
  | terminates {q T wait mv} (weigh : ∀ v, mv.memory.pool.weigh v = m.pool.weigh v)
      (rings : ∀ p, (mv.memory.pool.owned p).ring = (m.pool.owned p).ring)
      (clock : mv.memory.clock = m.clock)
      (operations : mv.memory.operations = m.operations) (begun : mv.memory.begun = m.begun)
      (tickets : mv.memory.tickets = m.tickets) (before : T.before = m.tickets)
      (terminations : mv.memory.terminations = m.terminations ++ [T])
      (new : mv.new = [.submitLast m.terminations.length q T.work T.completion wait])
      (events : ∀ x ∈ mv.events, x.aside = true) : Concern m ch [] mv

theorem still_weights {f : QueueFrame} (h : f.still = true) (i : ℕ) :
    f.publishes i = 0 ∧ f.names i = 0 ∧ f.announces i = 0 ∧ f.ends i = 0 := by
  cases f <;> first | exact ⟨rfl, rfl, rfl, rfl⟩ | cases h

theorem light_weights {f : QueueFrame} (h : f.light = true) (i : ℕ) :
    f.announces i = 0 ∧ f.ends i = 0 := by
  cases f <;> first | exact ⟨rfl, rfl⟩ | cases h

theorem weights_of_still {fs : List QueueFrame} (h : ∀ f ∈ fs, f.still = true) (i : ℕ) :
    Stacks.weight (QueueFrame.publishes i) fs = 0 ∧ Stacks.weight (QueueFrame.names i) fs = 0 ∧
      Stacks.weight (QueueFrame.announces i) fs = 0 ∧ Stacks.weight (QueueFrame.ends i) fs = 0 := by
  simp only [Stacks.weight_eq_zero_iff]
  exact ⟨fun f hf => (still_weights (h f hf) i).1, fun f hf => (still_weights (h f hf) i).2.1,
    fun f hf => (still_weights (h f hf) i).2.2.1, fun f hf => (still_weights (h f hf) i).2.2.2⟩

theorem rings_setPort {p : QueuePool Ticket} {i : PortId} {t : TaskPort Ticket}
    (h : t.ring = (p.owned i).ring) (j : PortId) :
    ((p.setPort i t).owned j).ring = (p.owned j).ring := by
  by_cases hj : j = i
  · subst hj; simpa using h
  · simp [hj]

theorem marked_rings (m : QueueMemory) (q : QueueId) (w : PortId) (p : PortId) :
    (((m.pool.markTerminated q).setPort w
      ((m.pool.markTerminated q).owned w).terminate).owned p).ring = (m.pool.owned p).ring := by
  have hring : ((m.pool.markTerminated q).owned w).terminate.ring =
      ((m.pool.markTerminated q).owned w).ring := rfl
  exact rings_setPort hring p

theorem weigh_of_rings {p q : QueuePool Ticket} (rings : ∀ i, (q.owned i).ring = (p.owned i).ring)
    (lost : q.lost = p.lost) (v : Ticket → ℕ) : q.weigh v = p.weigh v := by
  simp only [QueuePool.weigh, TaskPort.callbacks, rings, lost]

/-- Only the ports and their threads change. -/
theorem elsewhere_of_still {m : QueueMemory} {old : List QueueFrame} {mv : QueueMove}
    (rings : ∀ p, (mv.memory.pool.owned p).ring = (m.pool.owned p).ring)
    (lost : mv.memory.pool.lost = m.pool.lost)
    (same : mv.memory = { m with pool := mv.memory.pool, workers := mv.memory.workers })
    (before : old.all QueueFrame.still = true) (frames : mv.new.all QueueFrame.still = true)
    (events : mv.events.all QueueEvent.aside = true) : Elsewhere m old mv := by
  have hold := weights_of_still (List.all_eq_true.mp before)
  have hnew := weights_of_still (List.all_eq_true.mp frames)
  constructor
  case weigh => exact weigh_of_rings rings lost
  case rings => exact fun p => .inl (by rw [rings])
  case stage =>
    intro k
    rw [same]
    exact .inl rfl
  case publishes =>
    intro k
    rw [(hnew k).1]
    exact Nat.zero_le _
  case names => exact fun k _ _ => (hnew k).2.1
  case announces => exact fun k => ⟨(hnew k).2.2.1, (hold k).2.2.1⟩
  case ends => exact fun t => ⟨(hnew t).2.2.2, (hold t).2.2.2⟩
  case events => exact List.all_eq_true.mp events
  all_goals rw [same]

theorem Plain.elsewhere {m : QueueMemory} {old : List QueueFrame} {mv : QueueMove}
    (plain : Plain m old mv) : Elsewhere m old mv := by
  have weightless : ∀ {fs : List QueueFrame}, (∀ f ∈ fs, f.light = true) → ∀ i,
      Stacks.weight (QueueFrame.announces i) fs = 0 ∧ Stacks.weight (QueueFrame.ends i) fs = 0 := by
    intro fs h i
    simp only [Stacks.weight_eq_zero_iff]
    exact ⟨fun f hf => (light_weights (h f hf) i).1, fun f hf => (light_weights (h f hf) i).2⟩
  refine ⟨fun _ => QueuePool.weigh_congr plain.owned plain.lost,
    fun p => .inl (by rw [plain.owned]), plain.clock, plain.begun, plain.tickets, plain.stage,
    plain.terminations, plain.publishes, ?_,
    fun k => ⟨(weightless plain.frames k).1, (weightless plain.before k).1⟩,
    fun t => ⟨(weightless plain.frames t).2, (weightless plain.before t).2⟩, ?_⟩
  · intro k hk _
    rw [Stacks.weight_eq_zero_iff]
    intro f hf
    have hlight := plain.frames f hf
    cases f with
    | finish x =>
      have hx := plain.finishes x hf
      simp only [QueueFrame.names]
      rw [if_neg (by omega)]
    | inside n canceled => cases hlight
    | _ => rfl
  · intro x hx
    have hdull := plain.events x hx
    cases x <;> simp [QueueEvent.dull, QueueEvent.aside] at hdull ⊢

/-- Every move is about one of these. -/
theorem Moved.concern {m : QueueMemory} {e : QueueEnv} {threads : List (List QueueFrame)}
    {ch : QueueChoice} {old : List QueueFrame} {mv : QueueMove}
    (moved : Moved m e threads ch old mv) : Concern m ch old mv := by
  cases moved with
  | plain plain => exact .elsewhere plain.elsewhere
  | @opens _ _ _ _ _ wi ci _ opens frames _ =>
    have hframes : ∀ i, Stacks.weight (QueueFrame.publishes i) mv.new ≤
        Stacks.weight (QueueFrame.publishes i) old ∧ Stacks.weight (QueueFrame.names i) mv.new = 0 ∧
        (Stacks.weight (QueueFrame.announces i) mv.new = 0 ∧
          Stacks.weight (QueueFrame.announces i) old = 0) ∧
        Stacks.weight (QueueFrame.ends i) mv.new = 0 ∧
          Stacks.weight (QueueFrame.ends i) old = 0 := by
      intro i
      rcases frames with ⟨rfl, h⟩ | ⟨u, rfl, h⟩ <;>
        simp [h, QueueFrame.publishes, QueueFrame.names, QueueFrame.announces, QueueFrame.ends]
    refine .elsewhere ⟨opens.pool.weigh, fun p => ?_, opens.clock, opens.begun.ge, opens.tickets,
      fun k => .inl ?_, opens.terminations, fun k => (hframes k).1, fun k _ _ => (hframes k).2.1,
      fun k => (hframes k).2.2.1, fun t => (hframes t).2.2.2, ?_⟩
    · rw [opens.pool.owned]
      by_cases hc : p = ci
      · subst hc
        rw [Function.update_self]
        exact .inr rfl
      · rw [Function.update_of_ne hc]
        by_cases hw : p = wi
        · subst hw
          rw [Function.update_self]
          exact .inr rfl
        · rw [Function.update_of_ne hw]
          exact .inl rfl
    · rw [opens.operations]
    · simp [opens.events, QueueEvent.aside]
  | composes composes =>
    refine .elsewhere ⟨fun _ => QueuePool.weigh_congr composes.owned composes.lost,
      fun p => .inl (by rw [composes.owned]), composes.clock, composes.begun.ge, composes.tickets,
      fun k => .inl (by rw [composes.operations]), composes.terminations, ?_, ?_, ?_, ?_, ?_⟩
    all_goals simp [composes.new, composes.events, QueueEvent.aside]
  | sends sends => exact .sends sends (send_sent _ _ _ _ _ _ _ _ _)
  | dispatches loop =>
    refine .dispatches loop ?_ (dispatch_dispatched _ _ _)
    cases loop <;> simp [QueueFrame.still, QueueFrame.light]
  | finish => exact .finish
  | again _ _ _ => exact .elsewhere (elsewhere_of_still (fun _ => rfl) rfl rfl rfl rfl rfl)
  | @quits q w c wait _ _ _ =>
    exact .elsewhere (elsewhere_of_still (m.marked_rings q w) rfl rfl rfl rfl rfl)
  | @terminates q w c wait _ _ _ =>
    exact .terminates (m.marked_weigh q w) (m.marked_rings q w) rfl rfl rfl rfl rfl rfl rfl
      (by simp [QueueEvent.aside])
  | @terminatePort q w c wait =>
    refine .elsewhere (elsewhere_of_still (rings_setPort rfl) rfl rfl rfl ?_ rfl)
    cases wait <;> rfl
  | terminated => exact .elsewhere (elsewhere_of_still (fun _ => rfl) rfl rfl rfl rfl rfl)
  | stops =>
    refine .elsewhere (elsewhere_of_still (fun _ => rfl) rfl rfl rfl ?_ rfl)
    simp [QueueFrame.still, QueueFrame.light]
  | stopPort => exact .elsewhere (elsewhere_of_still (rings_setPort rfl) rfl rfl rfl rfl rfl)
  | join _ _ => exact .elsewhere (elsewhere_of_still (fun _ => rfl) rfl rfl rfl rfl rfl)
  | joined => exact .elsewhere (elsewhere_of_still (fun _ => rfl) rfl rfl rfl rfl rfl)
  | @release q =>
    have halike := m.pool.releaseQueue_alike q
    have hrings : ∀ p, ((m.pool.releaseQueue q).2.owned p).ring = (m.pool.owned p).ring :=
      fun p => by rw [halike.owned]
    refine .elsewhere (elsewhere_of_still hrings halike.lost rfl rfl ?_ ?_)
    · simp only [QueueMemory.release, List.all_append, List.all_map, Bool.and_eq_true]
      refine ⟨⟨List.all_eq_true.mpr fun _ _ => rfl, List.all_eq_true.mpr fun _ _ => rfl⟩, ?_⟩
      split_ifs <;> rfl
    · simp only [QueueMemory.release]
      split_ifs <;> rfl
  | @givePorts q was done _ =>
    have halike := m.pool.givePorts_alike done
    have hrings : ∀ p, ((m.pool.givePorts done).owned p).ring = (m.pool.owned p).ring :=
      fun p => by rw [halike.owned]
    refine .elsewhere (elsewhere_of_still hrings halike.lost rfl rfl rfl ?_)
    simp only [List.all_append, List.all_map, Bool.and_eq_true]
    exact ⟨List.all_eq_true.mpr fun _ _ => rfl, List.all_eq_true.mpr fun _ _ => rfl⟩
  | @inside _ n canceled new leaves =>
    refine .elsewhere ⟨fun _ => rfl, fun _ => .inl rfl, rfl, le_refl _, rfl, fun _ => .inl rfl, rfl,
      ?_, ?_, ?_, ?_, by simp⟩
    · intro k
      rcases leaves with rfl | ⟨k', -, rfl⟩ <;> simp [QueueFrame.publishes]
    · intro k _ hold
      rcases leaves with rfl | ⟨k', hjob, rfl⟩
      · rfl
      · simpa [QueueFrame.names, Ticket.names, hjob] using hold
    · intro k
      rcases leaves with rfl | ⟨k', -, rfl⟩ <;> simp [QueueFrame.announces]
    · intro t
      rcases leaves with rfl | ⟨k', -, rfl⟩ <;> simp [QueueFrame.ends]
  | announces job => exact .announces job
  | @returning n =>
    refine .elsewhere (elsewhere_of_still (fun _ => rfl) rfl rfl rfl rfl ?_)
    cases hheld : n.job.held <;> simp [QueueEvent.aside]
  | waits => exact .elsewhere (elsewhere_of_still (fun _ => rfl) rfl rfl rfl rfl rfl)
  | ends _ => exact .elsewhere (elsewhere_of_still (fun _ => rfl) rfl rfl rfl rfl rfl)

theorem Ran.lasts {m : QueueMemory} {n : Ticket} {canceled : Bool} {mv : QueueMove}
    (ran : Ran m n canceled mv) (t : ℕ) :
    mv.events.count (.last t) = n.ends t ∧ Stacks.weight (QueueFrame.ends t) mv.new = 0 := by
  constructor
  · rw [ran.events]
    cases hjob : n.job <;> simp [told, Ticket.ends, hjob, List.count_cons]
  · rcases ran.new with ⟨-, h⟩ | ⟨-, h⟩ | ⟨k, -, h⟩ | ⟨k, -, h⟩ <;> simp [h, QueueFrame.ends]

theorem Sends.lasts {m m' : QueueMemory} {old rest instead : List QueueFrame} {j : Job}
    {undo : QueueMemory → QueueMemory} {ev : List QueueEvent}
    (sends : Sends m old m' j rest undo instead ev) (t : ℕ) :
    Stacks.weight (QueueFrame.ends t) old = (if j = .last t then 1 else 0) ∧
      Stacks.weight (QueueFrame.ends t) rest = 0 ∧
      Stacks.weight (QueueFrame.ends t) instead = 0 ∧
      ev.count (.last t) = if j = .last t then 1 else 0 := by
  cases sends <;> simp [QueueFrame.ends, List.count_cons]

theorem sent_lasts {m m' : QueueMemory} {e : QueueEnv} {p : PortId} {delay : ℕ} {j : Job}
    {old rest instead : List QueueFrame} {undo : QueueMemory → QueueMemory}
    {ev : List QueueEvent} {mv : QueueMove} (sends : Sends m old m' j rest undo instead ev)
    (sent : Sent m' e p delay j rest undo instead ev mv) (t : ℕ) :
    mv.memory.terminations = m.terminations ∧
      mv.events.count (.last t) + mv.memory.pool.weigh (Ticket.ends t) +
        Stacks.weight (QueueFrame.ends t) mv.new =
      m.pool.weigh (Ticket.ends t) + Stacks.weight (QueueFrame.ends t) old := by
  have base := sends.base
  obtain ⟨hold, hrest, hinstead, hev⟩ := sends.lasts t
  cases sent with
  | unallocated _ =>
    have undone := sends.undone m'
    refine ⟨undone.terminations.trans base.terminations, ?_⟩
    rw [undone.pool, base.pool, hold, hinstead]
    simp [hev, Nat.add_comm]
  | refused _ _ =>
    have undone := sends.undone { m' with tickets := m'.tickets + 1 }
    refine ⟨undone.terminations.trans base.terminations, ?_⟩
    rw [undone.pool, hold, hinstead]
    change _ + m'.pool.weigh _ + 0 = _
    rw [base.pool]
    simp [hev, Nat.add_comm]
  | @accepted port _ taken =>
    have hweigh := QueuePool.weigh_accepted (Ticket.ends t) taken
    refine ⟨base.terminations, ?_⟩
    rw [hold, hrest, ← base.pool]
    change _ + (m'.pool.setPort p port).weigh (Ticket.ends t) + 0 = _
    rw [hweigh]
    simp [Ticket.ends]
  | @immediate mv _ _ ran =>
    obtain ⟨hcount, hnew⟩ := ran.lasts t
    refine ⟨ran.terminations.trans base.terminations, ?_⟩
    simp only [ran.pool, base.pool, hold, Stacks.weight_append, hnew, hrest]
    simp [hcount, Ticket.ends, Nat.add_comm]

/-- The callback of a termination is called, or is where it will be called from. -/
theorem Concern.lasts {m : QueueMemory} {ch : QueueChoice} {old : List QueueFrame}
    {mv : QueueMove} (concern : Concern m ch old mv) (t : ℕ) :
    m.terminations.length ≤ mv.memory.terminations.length ∧
      mv.events.count (.last t) + mv.memory.pool.weigh (Ticket.ends t) +
        Stacks.weight (QueueFrame.ends t) mv.new +
        (if t < m.terminations.length then 1 else 0) =
      m.pool.weigh (Ticket.ends t) + Stacks.weight (QueueFrame.ends t) old +
        (if t < mv.memory.terminations.length then 1 else 0) := by
  have none : (∀ x ∈ mv.events, x.aside = true) → mv.events.count (.last t) = 0 := by
    intro h
    refine List.count_eq_zero_of_not_mem fun hmem => ?_
    cases h _ hmem
  cases concern with
  | elsewhere elsewhere =>
    obtain ⟨hnew, hold⟩ := elsewhere.ends t
    rw [elsewhere.terminations, elsewhere.weigh, hnew, hold, none elsewhere.events]
    omega
  | sends sends sent =>
    obtain ⟨hterminations, hlasts⟩ := sent_lasts sends sent t
    rw [hterminations]
    omega
  | @dispatches p _ _ _ still dispatched =>
    have hrest := (weights_of_still still t).2.2.2
    cases dispatched with
    | idle _ => simp [hrest]
    | @took port mv took ran =>
      obtain ⟨hcount, hnew⟩ := ran.lasts t
      have hweigh := QueuePool.weigh_taken (Ticket.ends t) took
      have hpool : mv.memory.pool = m.pool.setPort p port.port := ran.pool
      have hterminations : mv.memory.terminations = m.terminations := ran.terminations
      simp only [hcount, hpool, Stacks.weight_append, hnew, hrest, hterminations]
      omega
  | @finish k =>
    have hpool : (m.finish k).memory.pool = m.pool ∧
        (m.finish k).memory.terminations = m.terminations ∧
        (m.finish k).events.count (.last t) = 0 ∧
        Stacks.weight (QueueFrame.ends t) (m.finish k).new = 0 := by
      unfold QueueMemory.finish
      split_ifs
      · cases (m.operations k).queue <;> simp [setStage, resolve, QueueFrame.ends]
      · simp [setStage]
      · simp
    obtain ⟨hpool, hterminations, hcount, hnew⟩ := hpool
    rw [hpool, hterminations, hcount, hnew]
    simp [QueueFrame.ends]
  | @announces n canceled k _ =>
    have hnone : (m.announce n canceled k).memory.pool = m.pool ∧
        (m.announce n canceled k).memory.terminations = m.terminations ∧
        (m.announce n canceled k).events.count (.last t) = 0 ∧
        Stacks.weight (QueueFrame.ends t) (m.announce n canceled k).new = 0 := by
      unfold QueueMemory.announce
      split_ifs <;> simp [setStage, QueueFrame.ends]
    obtain ⟨hpool, hterminations, hcount, hnew⟩ := hnone
    rw [hpool, hterminations, hcount, hnew]
    simp [QueueFrame.ends]
  | terminates weigh _ _ _ _ _ _ terminations new events =>
    rw [weigh, terminations, new, none events]
    simp only [List.length_append, List.length_singleton, Stacks.weight_cons, Stacks.weight_nil,
      QueueFrame.ends]
    split_ifs <;> omega

theorem Ran.accepts_none {m : QueueMemory} {n : Ticket} {canceled : Bool} {mv : QueueMove}
    (ran : Ran m n canceled mv) (x : Ticket) : mv.events.count (.accepted x) = 0 := by
  rw [ran.events]
  cases n.job <;> simp [told]

/-- What a port accepts is a new ticket. -/
theorem Concern.accepts {m : QueueMemory} {ch : QueueChoice} {old : List QueueFrame}
    {mv : QueueMove} (concern : Concern m ch old mv) (n : Ticket) :
    m.tickets ≤ mv.memory.tickets ∧ mv.events.count (.accepted n) ≤
      if n.number = m.tickets ∧ m.tickets < mv.memory.tickets then 1 else 0 := by
  have none : (∀ x ∈ mv.events, x.aside = true) → mv.events.count (.accepted n) = 0 := by
    intro h
    refine List.count_eq_zero_of_not_mem fun hmem => ?_
    cases h _ hmem
  cases concern with
  | elsewhere elsewhere => exact ⟨elsewhere.tickets.ge, by simp [none elsewhere.events]⟩
  | @sends _ m' _ p _ j _ _ _ ev _ sends sent =>
    have base := sends.base
    have hev : ev.count (.accepted n) = 0 := by
      cases sends <;> simp
    have new : (if (⟨m'.tickets, p, j⟩ : Ticket) = n then 1 else 0) ≤
        if n.number = m.tickets ∧ m.tickets < m'.tickets + 1 then 1 else 0 := by
      rw [base.tickets]
      by_cases hn : (⟨m.tickets, p, j⟩ : Ticket) = n
      · subst hn
        simp
      · simp [hn]
    cases sent with
    | unallocated _ =>
      exact ⟨((sends.undone m').tickets.trans base.tickets).ge, by simp [hev]⟩
    | refused _ _ =>
      refine ⟨?_, by simp [hev]⟩
      rw [(sends.undone _).tickets, base.tickets]
      exact Nat.le_succ _
    | accepted _ _ =>
      refine ⟨?_, ?_⟩
      · rw [base.tickets]
        exact Nat.le_succ _
      · simpa [List.count_cons] using new
    | @immediate mv _ _ ran =>
      refine ⟨?_, ?_⟩
      · rw [ran.tickets, base.tickets]
        exact Nat.le_succ _
      · rw [ran.tickets]
        simpa [List.count_cons, ran.accepts_none n] using new
  | dispatches _ _ dispatched =>
    cases dispatched with
    | idle _ => exact ⟨le_refl _, by simp⟩
    | took _ ran => exact ⟨ran.tickets.ge, by simp [ran.accepts_none n]⟩
  | finish =>
    unfold QueueMemory.finish
    split_ifs <;> exact ⟨le_refl _, by simp⟩
  | announces _ =>
    unfold QueueMemory.announce
    split_ifs <;> exact ⟨le_refl _, by simp⟩
  | terminates _ _ _ _ _ tickets _ _ _ events => exact ⟨tickets.ge, by simp [none events]⟩

theorem Ran.names {m : QueueMemory} {n : Ticket} {canceled : Bool} {mv : QueueMove}
    (ran : Ran m n canceled mv) {k : ℕ} (h : n.names k = 0) :
    Stacks.weight (QueueFrame.names k) mv.new = 0 := by
  rcases ran.new with ⟨-, hnew⟩ | ⟨-, hnew⟩ | ⟨x, hjob, hnew⟩ | ⟨x, -, hnew⟩
  · simp [hnew, QueueFrame.names, h]
  · simp [hnew, QueueFrame.names]
  · simpa [hnew, QueueFrame.names, Ticket.names, hjob] using h
  · simp [hnew, QueueFrame.names]

theorem Sends.names {m m' : QueueMemory} {old rest instead : List QueueFrame} {j : Job}
    {undo : QueueMemory → QueueMemory} {ev : List QueueEvent}
    (sends : Sends m old m' j rest undo instead ev) (k : ℕ) :
    m.begun ≤ m'.begun ∧ (∀ n, (undo n).begun = n.begun) ∧
      Stacks.weight (QueueFrame.names k) rest = 0 ∧
      Stacks.weight (QueueFrame.names k) instead = 0 ∧ (m'.begun ≤ k → j ≠ .work k) := by
  cases sends with
  | schedule begun =>
    refine ⟨le_refl _, fun _ => rfl, rfl, rfl, ?_⟩
    rintro hk ⟨⟩
    omega
  | begin =>
    refine ⟨Nat.le_succ _, fun _ => rfl, rfl, rfl, ?_⟩
    rintro hk ⟨⟩
    exact absurd hk (Nat.not_succ_le_self _)
  | _ => exact ⟨le_refl _, fun _ => rfl, rfl, rfl, fun _ => by simp⟩

/-- Nothing is about an operation that was not begun. -/
theorem Concern.names {m : QueueMemory} {ch : QueueChoice} {old : List QueueFrame}
    {mv : QueueMove} (concern : Concern m ch old mv) (k : ℕ) :
    m.begun ≤ mv.memory.begun ∧ (mv.memory.begun ≤ k →
      Stacks.weight (QueueFrame.names k) old = 0 → m.pool.weigh (Ticket.names k) = 0 →
        Stacks.weight (QueueFrame.names k) mv.new = 0 ∧
          mv.memory.pool.weigh (Ticket.names k) = 0) := by
  cases concern with
  | elsewhere elsewhere =>
    refine ⟨elsewhere.begun, fun hk hold hweigh => ⟨elsewhere.names k hk hold, ?_⟩⟩
    rw [elsewhere.weigh, hweigh]
  | @sends _ m' _ p _ j _ undo _ _ _ sends sent =>
    have base := sends.base
    obtain ⟨hbegun, hundo, hrest, hinstead, hjob⟩ := sends.names k
    cases sent with
    | unallocated _ =>
      refine ⟨hbegun.trans (hundo m').ge, fun _ _ hweigh => ⟨hinstead, ?_⟩⟩
      rw [(sends.undone m').pool, base.pool, hweigh]
    | refused _ _ =>
      have hundone := hundo { m' with tickets := m'.tickets + 1 }
      refine ⟨hbegun.trans hundone.ge, fun _ _ hweigh => ⟨hinstead, ?_⟩⟩
      rw [(sends.undone _).pool]
      change m'.pool.weigh _ = 0
      rw [base.pool, hweigh]
    | @accepted port _ taken =>
      refine ⟨hbegun, fun hk _ hweigh => ⟨hrest, ?_⟩⟩
      change (m'.pool.setPort p port).weigh _ = 0
      rw [QueuePool.weigh_accepted _ taken, base.pool, hweigh]
      simp [Ticket.names, hjob hk]
    | @immediate mv _ _ ran =>
      have hmoved : mv.memory.begun = m'.begun := ran.begun
      refine ⟨hbegun.trans hmoved.ge, fun hk _ hweigh => ⟨?_, ?_⟩⟩
      · rw [hmoved] at hk
        rw [Stacks.weight_append, hrest, ran.names (by simp [Ticket.names, hjob hk])]
      · rw [ran.pool]
        change m'.pool.weigh _ = 0
        rw [base.pool, hweigh]
  | @dispatches p _ _ _ still dispatched =>
    have hrest := (weights_of_still still k).2.1
    cases dispatched with
    | idle _ => exact ⟨le_refl _, fun _ _ hweigh => ⟨rfl, hweigh⟩⟩
    | @took port mv took ran =>
      have hleaves := QueuePool.weigh_taken (Ticket.names k) took
      refine ⟨ran.begun.ge, fun _ _ hweigh => ⟨?_, ?_⟩⟩
      · rw [Stacks.weight_append, hrest, ran.names (by omega)]
      · rw [ran.pool]
        change (m.pool.setPort p port.port).weigh _ = 0
        omega
  | @finish x =>
    have hmoved : (m.finish x).memory.begun = m.begun ∧ (m.finish x).memory.pool = m.pool ∧
        Stacks.weight (QueueFrame.names k) (m.finish x).new = 0 := by
      unfold QueueMemory.finish
      split_ifs
      · cases (m.operations x).queue <;> simp [setStage, resolve, QueueFrame.names]
      · simp [setStage]
      · simp
    obtain ⟨hbegun, hpool, hnew⟩ := hmoved
    exact ⟨hbegun.ge, fun _ _ hweigh => ⟨hnew, by rw [hpool, hweigh]⟩⟩
  | @announces n canceled x job =>
    have hn : n.names k = 0 := by simp [Ticket.names, job]
    unfold QueueMemory.announce
    split_ifs <;> exact ⟨le_refl _, fun _ _ hweigh => ⟨by simp [QueueFrame.names, hn], hweigh⟩⟩
  | terminates weigh _ _ _ begun _ _ _ new _ =>
    refine ⟨begun.ge, fun _ _ hweigh => ⟨?_, by rw [weigh, hweigh]⟩⟩
    rw [new]
    rfl

/-- How often the routine of the operation waits in a port or is about to be looked for. -/
def onWay (k : ℕ) (m : QueueMemory) (fs : List QueueFrame) : ℕ :=
  m.pool.weigh (Ticket.announces k) + Stacks.weight (QueueFrame.announces k) fs

theorem onWay_le {k : ℕ} {m m' : QueueMemory} {old new : List QueueFrame}
    (waits : m'.pool.weigh (Ticket.announces k) ≤ m.pool.weigh (Ticket.announces k))
    (looks : Stacks.weight (QueueFrame.announces k) new = 0) : onWay k m' new ≤ onWay k m old := by
  rw [onWay, onWay, looks]
  omega

/-- What becomes of the completion of an operation. -/
inductive Turn (k : ℕ) (m : QueueMemory) (old : List QueueFrame) (mv : QueueMove) : Prop
  | stays
      (stage : (mv.memory.operations k).stage = (m.operations k).stage ∨
        k = m.begun ∧ m.begun < mv.memory.begun ∧
          ((mv.memory.operations k).stage = .running ∨ (mv.memory.operations k).stage = .refused))
      (publishes : Stacks.weight (QueueFrame.publishes k) mv.new ≤
        Stacks.weight (QueueFrame.publishes k) old)
      (waits : onWay k mv.memory mv.new ≤ onWay k m old)
      (quiet : ∀ x ∈ mv.events, x.settles k = false)
  | finished (was : (m.operations k).stage = .running) (routine : Bool)
      (stage : (mv.memory.operations k).stage = if routine then .publishing else .silent)
      (named : 1 ≤ Stacks.weight (QueueFrame.names k) old)
      (publishes : Stacks.weight (QueueFrame.publishes k) mv.new ≤ if routine then 1 else 0)
      (waits : onWay k mv.memory mv.new ≤ onWay k m old)
      (events : mv.events = [.finished k routine])
  | handed (published : 1 ≤ Stacks.weight (QueueFrame.publishes k) old)
      (publishes : Stacks.weight (QueueFrame.publishes k) mv.new = 0)
      (stage :
        (mv.memory.operations k).stage = .waiting ∧ onWay k mv.memory mv.new ≤ onWay k m old + 1 ∨
        (mv.memory.operations k).stage = .refused ∧ onWay k mv.memory mv.new ≤ onWay k m old)
      (quiet : ∀ x ∈ mv.events, x.settles k = false)
  | announced
      (looked : 1 ≤ Stacks.weight (QueueFrame.announces k) old)
      (came : onWay k mv.memory mv.new + 1 ≤ onWay k m old)
      (publishes : Stacks.weight (QueueFrame.publishes k) mv.new ≤
        Stacks.weight (QueueFrame.publishes k) old)
      (stage : (mv.memory.operations k).stage =
        if (m.operations k).heeded then .heard else .unheard)
      (events : mv.events = if (m.operations k).heeded then [.routine k] else [])

theorem resolve_announces (u : Use) (q : Option QueueId) (k : ℕ) :
    Stacks.weight (QueueFrame.announces k) (resolve u q) = 0 := by
  cases q <;> simp [resolve, QueueFrame.announces]

/-- What a task does to the completion of an operation. -/
theorem Ran.turn {m : QueueMemory} {n : Ticket} {canceled : Bool} {mv : QueueMove}
    (ran : Ran m n canceled mv) (k : ℕ) :
    Stacks.weight (QueueFrame.publishes k) mv.new = 0 ∧
      Stacks.weight (QueueFrame.announces k) mv.new = n.announces k ∧
      ∀ x ∈ mv.events, x.settles k = false := by
  refine ⟨?_, ?_, ?_⟩
  · rcases ran.new with ⟨-, h⟩ | ⟨-, h⟩ | ⟨x, -, h⟩ | ⟨x, -, h⟩ <;>
      simp [h, QueueFrame.publishes]
  · rcases ran.new with ⟨hjob, h⟩ | ⟨hjob, h⟩ | ⟨x, hjob, h⟩ | ⟨x, hjob, h⟩ <;>
      simp [h, QueueFrame.announces, Ticket.announces, hjob]
  · rw [ran.events]
    cases n.job <;> simp [told, QueueEvent.settles]

theorem Sends.unannounced {m m' : QueueMemory} {old rest instead : List QueueFrame} {j : Job}
    {undo : QueueMemory → QueueMemory} {ev : List QueueEvent}
    (sends : Sends m old m' j rest undo instead ev) (k : ℕ) :
    Stacks.weight (QueueFrame.announces k) rest = 0 ∧
      Stacks.weight (QueueFrame.announces k) instead = 0 := by
  cases sends <;> simp [QueueFrame.announces]

/-- What the submission of anything but its routine does to an operation. -/
theorem Sends.other {m m' : QueueMemory} {old rest instead : List QueueFrame} {j : Job}
    {undo : QueueMemory → QueueMemory} {ev : List QueueEvent}
    (sends : Sends m old m' j rest undo instead ev) {k : ℕ} (hj : j ≠ .announce k) :
    (k = m.begun ∧ m.begun < m'.begun ∧ (m'.operations k).stage = .running ∧
        (∀ n, ((undo n).operations k).stage = .refused) ∨
      (m'.operations k).stage = (m.operations k).stage ∧
        ∀ n, ((undo n).operations k).stage = (n.operations k).stage) ∧
      (∀ n, (undo n).begun = n.begun) ∧ Stacks.weight (QueueFrame.publishes k) rest = 0 ∧
      Stacks.weight (QueueFrame.publishes k) instead = 0 ∧ ∀ x ∈ ev, x.settles k = false := by
  cases sends with
  | @begin queue routine q =>
    refine ⟨?_, fun _ => rfl, rfl, rfl, by simp⟩
    by_cases hk : k = m.begun
    · subst hk
      exact .inl ⟨rfl, Nat.lt_succ_self _, by simp [addOperation], by simp [setStage, retire]⟩
    · exact .inr ⟨by simp [addOperation, hk], by simp [setStage, retire, hk]⟩
  | @announce x q =>
    have hx : k ≠ x := by
      rintro rfl
      exact hj rfl
    exact ⟨.inr ⟨by simp [setStage, hx], by simp [setStage, hx]⟩, fun _ => rfl, rfl, rfl, by simp⟩
  | _ =>
    exact ⟨.inr ⟨rfl, fun _ => rfl⟩, fun _ => rfl, by simp [QueueFrame.publishes],
      by simp [QueueFrame.publishes], by simp [QueueEvent.settles]⟩

theorem sent_turn {m m' : QueueMemory} {e : QueueEnv} {p : PortId} {delay : ℕ} {j : Job}
    {old rest instead : List QueueFrame} {undo : QueueMemory → QueueMemory}
    {ev : List QueueEvent} {mv : QueueMove} (sends : Sends m old m' j rest undo instead ev)
    (sent : Sent m' e p delay j rest undo instead ev mv) {k : ℕ} (hj : j ≠ .announce k) :
    Turn k m old mv := by
  have base := sends.base
  obtain ⟨hstage, hundo, hrest, hinstead, hev⟩ := sends.other hj
  obtain ⟨hgone, hback⟩ := sends.unannounced k
  -- a submission that is refused
  have undone : ∀ n : QueueMemory, n.operations = m'.operations → n.begun = m'.begun →
      (((undo n).operations k).stage = (m.operations k).stage ∨
        k = m.begun ∧ m.begun < (undo n).begun ∧ (((undo n).operations k).stage = .running ∨
          ((undo n).operations k).stage = .refused)) := by
    intro n hn hbegun
    rcases hstage with ⟨hk, hborn, -, hrefused⟩ | ⟨hsame, hkept⟩
    · refine .inr ⟨hk, ?_, .inr (hrefused n)⟩
      rw [hundo, hbegun]
      exact hborn
    · refine .inl ?_
      rw [hkept, hn, hsame]
  -- a submission that is taken
  have taken : (m'.operations k).stage = (m.operations k).stage ∨
      k = m.begun ∧ m.begun < m'.begun ∧
        ((m'.operations k).stage = .running ∨ (m'.operations k).stage = .refused) := by
    rcases hstage with ⟨hk, hborn, hrunning, -⟩ | ⟨hsame, -⟩
    · exact .inr ⟨hk, hborn, .inl hrunning⟩
    · exact .inl hsame
  cases sent with
  | unallocated _ =>
    refine .stays (undone m' rfl rfl) (hinstead.trans_le (Nat.zero_le _)) ?_ ?_
    · refine onWay_le (le_of_eq ?_) hback
      rw [(sends.undone m').pool, base.pool]
    · simpa [QueueEvent.settles] using hev
  | refused _ _ =>
    refine .stays (undone _ rfl rfl) (hinstead.trans_le (Nat.zero_le _)) ?_ ?_
    · refine onWay_le (le_of_eq ?_) hback
      rw [(sends.undone _).pool, ← base.pool]
    · simpa [QueueEvent.settles] using hev
  | @accepted port _ accepted =>
    have hweigh := QueuePool.weigh_accepted (Ticket.announces k) accepted
    refine .stays taken (hrest.trans_le (Nat.zero_le _)) ?_ (by simp [QueueEvent.settles])
    refine onWay_le (le_of_eq ?_) hgone
    change (m'.pool.setPort p port).weigh (Ticket.announces k) = _
    rw [hweigh, base.pool]
    simp [Ticket.announces, hj]
  | @immediate mv _ _ ran =>
    obtain ⟨hnew, hlooks, hquiet⟩ := ran.turn k
    have hsame : mv.memory.operations = m'.operations := ran.operations
    have hbegun : mv.memory.begun = m'.begun := ran.begun
    refine .stays ?_ ?_ ?_ ?_
    · rw [hsame, hbegun]
      exact taken
    · rw [Stacks.weight_append, hnew, hrest]
      exact Nat.zero_le _
    · refine onWay_le (le_of_eq ?_) ?_
      · rw [ran.pool, ← base.pool]
      · rw [Stacks.weight_append, hlooks, hgone]
        simp [Ticket.announces, hj]
    · simpa [QueueEvent.settles] using hquiet

/-- The routine of an operation is handed to a port. -/
theorem sent_announce {m : QueueMemory} {e : QueueEnv} {p : PortId} {delay k : ℕ} {q : QueueId}
    {mv : QueueMove} (sent : Sent (m.setStage k .waiting) e p delay (.announce k) []
      (·.setStage k .refused) [] [] mv) : Turn k m [.use (.announce k) q] mv := by
  have published : 1 ≤ Stacks.weight (QueueFrame.publishes k) [.use (.announce k) q] := by
    simp [QueueFrame.publishes, Use.publishes]
  cases sent with
  | unallocated _ =>
    refine .handed published rfl (.inr ⟨by simp [setStage], le_refl _⟩) ?_
    simp [QueueEvent.settles]
  | refused _ _ =>
    refine .handed published rfl (.inr ⟨by simp [setStage], le_refl _⟩) ?_
    simp [QueueEvent.settles]
  | @accepted port _ accepted =>
    have hweigh := QueuePool.weigh_accepted (Ticket.announces k) accepted
    refine .handed published rfl (.inl ⟨by simp [setStage], ?_⟩) (by simp [QueueEvent.settles])
    change ((m.setStage k .waiting).pool.setPort p port).weigh (Ticket.announces k) + 0 ≤ _
    rw [hweigh]
    simp [onWay, Ticket.announces, setStage]
  | @immediate mv _ _ ran =>
    obtain ⟨hnew, hlooks, hquiet⟩ := ran.turn k
    refine .handed published ?_ (.inl ⟨?_, ?_⟩) ?_
    · rw [Stacks.weight_append, hnew]
      rfl
    · rw [ran.operations]
      simp [setStage]
    · rw [onWay, ran.pool, Stacks.weight_append, hlooks]
      simp [onWay, Ticket.announces, setStage]
    · simpa [QueueEvent.settles] using hquiet

/-- How the completion of an operation goes on. -/
theorem Concern.turn {m : QueueMemory} {ch : QueueChoice} {old : List QueueFrame}
    {mv : QueueMove} (concern : Concern m ch old mv) (k : ℕ) : Turn k m old mv := by
  have quiet : (∀ x ∈ mv.events, x.aside = true) → ∀ x ∈ mv.events, x.settles k = false := by
    intro h x hx
    have haside := h x hx
    cases x <;> simp [QueueEvent.aside, QueueEvent.settles] at haside ⊢
  cases concern with
  | elsewhere elsewhere =>
    refine .stays ?_ (elsewhere.publishes k) ?_ (quiet elsewhere.events)
    · rcases elsewhere.stage k with h | ⟨hk, hborn, h⟩
      · exact .inl h
      · exact .inr ⟨hk, hborn, .inl h⟩
    · exact onWay_le (elsewhere.weigh _).le (elsewhere.announces k).1
  | @sends _ m' _ _ _ j _ _ _ _ _ sends sent =>
    by_cases hj : j = .announce k
    · subst hj
      cases sends
      exact sent_announce sent
    · exact sent_turn sends sent hj
  | @dispatches p _ _ _ still dispatched =>
    obtain ⟨hrest, -, hgone, -⟩ := weights_of_still still k
    cases dispatched with
    | idle _ => exact .stays (.inl rfl) (Nat.zero_le _) (onWay_le (le_refl _) rfl) (by simp)
    | @took port mv took ran =>
      have hleaves := QueuePool.weigh_taken (Ticket.announces k) took
      have hpool : mv.memory.pool = m.pool.setPort p port.port := ran.pool
      obtain ⟨hnew, hlooks, hquiet⟩ := ran.turn k
      refine .stays (.inl (by rw [ran.operations]; rfl)) ?_ ?_ hquiet
      · rw [Stacks.weight_append, hnew, hrest]
      · rw [onWay, onWay, hpool, Stacks.weight_append, hlooks, hgone]
        omega
  | @finish x =>
    unfold QueueMemory.finish
    by_cases hx : k = x
    · subst hx
      split_ifs with hstage hroutine
      · have hpublishes : Stacks.weight (QueueFrame.publishes k)
            (resolve (.announce k) (m.operations k).queue) = 1 := by
          rw [resolve_publishes, Use.publishes, if_pos rfl]
        exact .finished hstage true (by simp [setStage]) (by simp [QueueFrame.names])
          hpublishes.le (onWay_le (le_refl _) (resolve_announces _ _ _)) rfl
      · exact .finished hstage false (by simp [setStage]) (by simp [QueueFrame.names])
          (Nat.zero_le _) (onWay_le (le_refl _) rfl) rfl
      · exact .stays (.inl rfl) (Nat.zero_le _) (onWay_le (le_refl _) rfl) (by simp)
    · have hne : x ≠ k := Ne.symm hx
      split_ifs
      · have hpublishes : Stacks.weight (QueueFrame.publishes k)
            (resolve (.announce x) (m.operations x).queue) = 0 := by
          rw [resolve_publishes, Use.publishes, if_neg hne]
        exact .stays (.inl (by simp [setStage, hx])) (hpublishes.trans_le (Nat.zero_le _))
          (onWay_le (le_refl _) (resolve_announces _ _ _)) (by simp [QueueEvent.settles, hne])
      · exact .stays (.inl (by simp [setStage, hx])) (Nat.zero_le _) (onWay_le (le_refl _) rfl)
          (by simp [QueueEvent.settles, hne])
      · exact .stays (.inl rfl) (Nat.zero_le _) (onWay_le (le_refl _) rfl) (by simp)
  | @announces n canceled x job =>
    unfold QueueMemory.announce
    by_cases hx : k = x
    · subst hx
      have hcame : ∀ s f, f.announces k = 0 →
          onWay k (m.setStage k s) [f] + 1 ≤ onWay k m [.announcing n canceled] := by
        intro s f hf
        have hold : QueueFrame.announces k (.announcing n canceled) = 1 := if_pos job
        simp [onWay, setStage, hf, hold]
      have hlooked : 1 ≤ Stacks.weight (QueueFrame.announces k) [.announcing n canceled] := by
        simp [QueueFrame.announces, Ticket.announces, job]
      split_ifs with heeded
      · exact .announced hlooked (hcame _ _ rfl) (Nat.zero_le _) (by simp [setStage, heeded])
          (by rw [if_pos heeded])
      · exact .announced hlooked (hcame _ _ rfl) (Nat.zero_le _) (by simp [setStage, heeded])
          (by rw [if_neg heeded])
    · have hne : x ≠ k := Ne.symm hx
      split_ifs
      · exact .stays (.inl (by simp [setStage, hx])) (Nat.zero_le _) (onWay_le (le_refl _) rfl)
          (by simp [QueueEvent.settles, hne])
      · exact .stays (.inl (by simp [setStage, hx])) (Nat.zero_le _) (onWay_le (le_refl _) rfl)
          (by simp)
  | terminates weigh _ _ operations _ _ _ _ new events =>
    refine .stays (.inl (by rw [operations])) ?_ (onWay_le (weigh _).le ?_) (quiet events)
    · rw [new]
      exact Nat.zero_le _
    · rw [new]
      rfl

end QueueMemory

end IW4x.Gdk
