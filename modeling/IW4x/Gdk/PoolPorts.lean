import IW4x.Gdk.ProcessQueue

/-!
# Who holds the ports of the pool

A queue object that is in use owns its two ports or borrows them. `PortsKept` says that the flags
and counts of the pool tell this truly, where `pending` counts how often a port is about to be
given back by a `release_queue` that is between its two critical sections. Each operation of the
pool keeps it.
-/

namespace IW4x.Gdk

def portCount (a b : Option PortId) (i : PortId) : ℕ :=
  (if a = some i then 1 else 0) + if b = some i then 1 else 0

theorem portCount_pos {a b : Option PortId} {i : PortId} :
    0 < portCount a b i ↔ a = some i ∨ b = some i := by
  unfold portCount
  split_ifs <;> simp_all

theorem sum_change {ι : Type*} [Fintype ι] [DecidableEq ι] {f g : ι → ℕ} (q : ι)
    (h : ∀ x, x ≠ q → g x = f x) : ∑ x, g x + f q = ∑ x, f x + g q := by
  have hg := Finset.add_sum_erase Finset.univ g (Finset.mem_univ q)
  have hf := Finset.add_sum_erase Finset.univ f (Finset.mem_univ q)
  have hrest : ∑ x ∈ Finset.univ.erase q, g x = ∑ x ∈ Finset.univ.erase q, f x :=
    Finset.sum_congr rfl fun x hx => h x (Finset.ne_of_mem_erase hx)
  omega

namespace QueuePool

variable {α : Type} {p q : QueuePool α} {pending before after : PortId → ℕ}

def holds (p : QueuePool α) (x : QueueId) (i : PortId) : ℕ :=
  if p.madeUsed x then portCount (p.madePorts x).work (p.madePorts x).completion i else 0

def owning (p : QueuePool α) (x : QueueId) (i : PortId) : ℕ :=
  if p.madeOwns x then p.holds x i else 0

def borrowing (p : QueuePool α) (x : QueueId) (i : PortId) : ℕ :=
  if p.madeOwns x then 0 else p.holds x i

def holders (p : QueuePool α) (i : PortId) : ℕ := (p.portOwned i).toNat + p.portBorrows i

theorem owning_add_borrowing (p : QueuePool α) (x : QueueId) (i : PortId) :
    p.owning x i + p.borrowing x i = p.holds x i := by
  unfold owning borrowing
  split_ifs <;> simp

/-- The pool's flags and counts are true. -/
structure PortsKept (p : QueuePool α) (pending : PortId → ℕ) : Prop where
  owned : ∀ i, ∑ x, p.owning x i = (p.portOwned i).toNat
  borrows : ∀ i, ∑ x, p.borrowing x i = p.portBorrows i
  used : ∀ i, pending i + (decide (0 < p.holders i)).toNat = (p.portUsed i).toNat
  ports : p.ports = ∑ i, (p.portUsed i).toNat
  queues : p.queues = ∑ x, (p.madeUsed x).toNat
  names : ∀ x, p.madeUsed x = true →
    p.madePorts x = ⟨(p.made x).work, (p.made x).completion⟩

theorem portsKept_empty [Inhabited α] : PortsKept (empty : QueuePool α) (fun _ => 0) := by
  constructor <;> simp [empty, owning, borrowing, holds, holders]

theorem PortsKept.sum_holds (kept : PortsKept p pending) (i : PortId) :
    ∑ x, p.holds x i = p.holders i := by
  simp only [holders, ← kept.owned i, ← kept.borrows i, ← Finset.sum_add_distrib,
    owning_add_borrowing]

theorem PortsKept.holders_pos (kept : PortsKept p pending) {i : PortId} :
    0 < p.holders i ↔ ∃ x, 0 < p.holds x i := by
  rw [← kept.sum_holds i]
  constructor
  · intro h
    obtain ⟨x, -, hx⟩ := Finset.sum_pos_iff.mp h
    exact ⟨x, hx⟩
  · rintro ⟨x, hx⟩
    exact Finset.sum_pos_iff.mpr ⟨x, Finset.mem_univ x, hx⟩

theorem PortsKept.sole (kept : PortsKept p pending) {x : QueueId} {i : PortId} :
    p.holders i = p.holds x i ↔ ∀ y, y ≠ x → p.holds y i = 0 := by
  have hsum := Finset.add_sum_erase Finset.univ (fun y => p.holds y i) (Finset.mem_univ x)
  have hall := kept.sum_holds i
  have hzero : ∑ y ∈ Finset.univ.erase x, p.holds y i = 0 ↔ ∀ y, y ≠ x → p.holds y i = 0 := by
    simp [Finset.sum_eq_zero_iff]
  rw [← hzero]
  omega

theorem PortsKept.holders_eq_zero (kept : PortsKept p pending) {i : PortId}
    (h : p.portUsed i = false ∨ 0 < pending i) : p.holders i = 0 := by
  have hused := kept.used i
  by_contra hne
  rw [decide_eq_true (Nat.pos_of_ne_zero hne)] at hused
  have hle := (p.portUsed i).toNat_le
  rcases h with h | h
  · simp [h] at hused
  · simp only [Bool.toNat_true] at hused
    omega

theorem PortsKept.portUsed_of_holds (kept : PortsKept p pending) {x : QueueId} {i : PortId}
    (h : 0 < p.holds x i) : p.portUsed i = true := by
  by_contra hfree
  have hzero := kept.holders_eq_zero (.inl (by simpa using hfree))
  have hpos := kept.holders_pos.mpr ⟨x, h⟩
  omega

theorem PortsKept.holds_port (kept : PortsKept p pending) {x : QueueId} {i : PortId} :
    0 < p.holds x i ↔ p.madeUsed x = true ∧ ∃ r, (p.made x).port r = some i := by
  unfold holds
  split_ifs with hused
  · rw [kept.names x hused, portCount_pos]
    constructor
    · rintro (h | h)
      · exact ⟨hused, .work, h⟩
      · exact ⟨hused, .completion, h⟩
    · rintro ⟨-, r, h⟩
      cases r with
      | work => exact .inl h
      | completion => exact .inr h
  · simp [hused]

/-- Nothing changes that tells of the holders. -/
structure SameHolders (p q : QueuePool α) : Prop where
  used : q.madeUsed = p.madeUsed
  owns : q.madeOwns = p.madeOwns
  held : q.madePorts = p.madePorts
  portOwned : q.portOwned = p.portOwned
  borrows : q.portBorrows = p.portBorrows
  portUsed : q.portUsed = p.portUsed
  ports : q.ports = p.ports
  queues : q.queues = p.queues
  names : ∀ x r, (q.made x).port r = (p.made x).port r

theorem SameHolders.refl (p : QueuePool α) : SameHolders p p :=
  ⟨rfl, rfl, rfl, rfl, rfl, rfl, rfl, rfl, fun _ _ => rfl⟩

theorem SameHolders.trans {r : QueuePool α} (hpq : SameHolders p q) (hqr : SameHolders q r) :
    SameHolders p r := by
  constructor
  · rw [hqr.used, hpq.used]
  · rw [hqr.owns, hpq.owns]
  · rw [hqr.held, hpq.held]
  · rw [hqr.portOwned, hpq.portOwned]
  · rw [hqr.borrows, hpq.borrows]
  · rw [hqr.portUsed, hpq.portUsed]
  · rw [hqr.ports, hpq.ports]
  · rw [hqr.queues, hpq.queues]
  · intro x i
    rw [hqr.names, hpq.names]

theorem setPort_holders (p : QueuePool α) (i : PortId) (t : TaskPort α) :
    SameHolders p (p.setPort i t) :=
  ⟨rfl, rfl, rfl, rfl, rfl, rfl, rfl, rfl, fun _ _ => rfl⟩

theorem duplicate_holders (p : QueuePool α) (x : QueueId) : SameHolders p (p.duplicate x) :=
  ⟨rfl, rfl, rfl, rfl, rfl, rfl, rfl, rfl, fun y r => (p.duplicate_kept x).ports y rfl r⟩

theorem close_holders (p : QueuePool α) (x : QueueId) : SameHolders p (p.close x) :=
  ⟨rfl, rfl, rfl, rfl, rfl, rfl, rfl, rfl, fun y r => (p.close_kept x).ports y rfl r⟩

theorem markTerminated_holders (p : QueuePool α) (x : QueueId) :
    SameHolders p (p.markTerminated x) :=
  ⟨rfl, rfl, rfl, rfl, rfl, rfl, rfl, rfl, fun y r => (p.markTerminated_kept x).ports y rfl r⟩

theorem current_holders (p : QueuePool α) (x : Option QueueId) :
    SameHolders p { p with current := x } :=
  ⟨rfl, rfl, rfl, rfl, rfl, rfl, rfl, rfl, fun _ _ => rfl⟩

theorem PortsKept.congr (kept : PortsKept p pending) (same : SameHolders p q) :
    PortsKept q pending := by
  have hholds : q.holds = p.holds := by
    funext x i
    simp only [holds, same.used, same.held]
  constructor
  · simpa only [owning, same.owns, hholds, same.portOwned] using kept.owned
  · simpa only [borrowing, same.owns, hholds, same.borrows] using kept.borrows
  · intro i
    have hholders : q.holders i = p.holders i := by simp only [holders, same.portOwned, same.borrows]
    rw [hholders, same.portUsed]
    exact kept.used i
  · rw [same.ports, same.portUsed]; exact kept.ports
  · rw [same.queues, same.used]; exact kept.queues
  · intro x hx
    rw [same.held, kept.names x (same.used ▸ hx)]
    have hwork := same.names x .work
    have hcompletion := same.names x .completion
    simp only [TaskQueue.port] at hwork hcompletion
    rw [hwork, hcompletion]

/-- A port is given back. -/
theorem PortsKept.givePort (kept : PortsKept p before) {i : Option PortId}
    (h : ∀ x, after x + (if i = some x then 1 else 0) = before x) :
    PortsKept (p.givePort i) after := by
  cases i with
  | none =>
    obtain rfl : after = before := by
      funext x
      simpa using h x
    exact kept
  | some i =>
    have hafter := h i
    have hkept := kept.used i
    have hle := (p.portUsed i).toNat_le
    rw [if_pos rfl] at hafter
    have hused : p.portUsed i = true := by
      by_contra hfree
      have hfree : p.portUsed i = false := by simpa using hfree
      rw [hfree, Bool.toNat_false] at hkept
      omega
    constructor
    · exact kept.owned
    · exact kept.borrows
    · intro x
      change after x + (decide (0 < p.holders x)).toNat =
        (Function.update p.portUsed i false x).toNat
      by_cases hx : x = i
      · subst hx
        rw [Function.update_self, Bool.toNat_false]
        omega
      · have hxi := h x
        rw [if_neg (by simpa using Ne.symm hx)] at hxi
        rw [Function.update_of_ne hx, ← kept.used x]
        omega
    · have hsum := sum_change (f := fun x => (p.portUsed x).toNat)
        (g := fun x => (Function.update p.portUsed i false x).toNat) i
        (fun x hx => by simp [hx])
      simp only [Function.update_self, Bool.toNat_false, hused, Bool.toNat_true] at hsum
      change p.ports - 1 = ∑ x, (Function.update p.portUsed i false x).toNat
      rw [kept.ports]
      omega
    · exact kept.queues
    · exact kept.names

theorem PortsKept.givePorts (kept : PortsKept p before) {done : Option PortId × Option PortId}
    (h : ∀ x, after x + portCount done.1 done.2 x = before x) :
    PortsKept (p.givePorts done) after := by
  have hfirst : PortsKept (p.givePort done.1) fun x =>
      after x + if done.2 = some x then 1 else 0 := by
    refine kept.givePort fun x => ?_
    have hx := h x
    simp only [portCount] at hx
    omega
  exact hfirst.givePort fun x => rfl

theorem takePort_eq {i : PortId} (h : p.takePort = (some i, q)) : p.portUsed i = false ∧
    q = { p with portUsed := Function.update p.portUsed i true, ports := p.ports + 1 } := by
  unfold takePort at h
  split at h
  · rename_i j hfind
    cases h
    exact ⟨by simpa using List.find?_some hfind, rfl⟩
  · cases h

theorem takePort_eq_none (h : p.takePort = (none, q)) : q = p ∧ ∀ i, p.portUsed i = true := by
  unfold takePort at h
  split at h
  · cases h
  · rename_i hfind
    cases h
    exact ⟨rfl, by simpa using hfind⟩

theorem first_free {n : ℕ} {f : Fin n → Bool} {i : Fin n}
    (h : (List.finRange n).find? (fun j => !f j) = some i) :
    f i = false ∧ ∀ j, j < i → f j = true := by
  obtain ⟨hi, before, after, hall, hbefore⟩ := List.find?_eq_some_iff_append.mp h
  refine ⟨by simpa using hi, ?_⟩
  intro j hj
  have hsorted := List.pairwise_lt_finRange n
  have hmem := List.mem_finRange j
  rw [hall] at hsorted hmem
  have hafter := (List.pairwise_cons.mp (List.pairwise_append.mp hsorted).2.1).1
  rcases List.mem_append.mp hmem with h | h
  · simpa using hbefore j h
  · rcases List.mem_cons.mp h with rfl | h
    · exact absurd hj (lt_irrefl _)
    · exact absurd (hj.trans (hafter j h)) (lt_irrefl _)

theorem takeQueue_eq {i : QueueId} (h : p.takeQueue = (some i, q)) :
    (p.madeUsed i = false ∧ ∀ j, j < i → p.madeUsed j = true) ∧
    q = { p with
      madeUsed := Function.update p.madeUsed i true
      queues := p.queues + 1
      generation := Function.update p.generation i (p.generation i + 1) } := by
  unfold takeQueue at h
  split at h
  · rename_i j hfind
    cases h
    exact ⟨first_free hfind, rfl⟩
  · cases h

theorem takeQueue_eq_none (h : p.takeQueue = (none, q)) : q = p ∧ ∀ x, p.madeUsed x = true := by
  unfold takeQueue at h
  split at h
  · cases h
  · rename_i hfind
    cases h
    exact ⟨rfl, by simpa using hfind⟩

structure OwnsPorts (p q : QueuePool α) (x : QueueId) (wi ci : PortId) : Prop where
  apart : wi ≠ ci
  free : p.madeUsed x = false
  workFree : p.portUsed wi = false
  completionFree : p.portUsed ci = false
  used : q.madeUsed = Function.update p.madeUsed x true
  owns : q.madeOwns = Function.update p.madeOwns x true
  held : q.madePorts = Function.update p.madePorts x ⟨some wi, some ci⟩
  made : q.made = Function.update p.made x (.openWith (some wi) (some ci))
  portOwned : q.portOwned = Function.update (Function.update p.portOwned wi true) ci true
  borrows : q.portBorrows = p.portBorrows
  portUsed : q.portUsed = Function.update (Function.update p.portUsed wi true) ci true
  ports : q.ports = p.ports + 2
  queues : q.queues = p.queues + 1
  first : ∀ y, y < x → p.madeUsed y = true

/-- `create_queue` fails and leaves everything as it was, or hands out a queue object. -/
theorem createQueue_owns (p : QueuePool α) (w c : DispatchMode) :
    (p.createQueue w c = (none, p) ∧
      ((∃ i, ∀ j, p.portUsed j = false → j = i) ∨ ∀ x, p.madeUsed x = true)) ∨
    ∃ x wi ci q, p.createQueue w c = (some x, q) ∧ OwnsPorts p q x wi ci := by
  unfold createQueue
  rcases hwork : p.takePort with ⟨wi, p₁⟩
  cases wi with
  | none =>
    obtain ⟨rfl, hall⟩ := takePort_eq_none hwork
    simp only [hwork]
    exact .inl ⟨rfl, .inl ⟨0, fun j hj => by simp [hall j] at hj⟩⟩
  | some wi =>
    obtain ⟨hwfree, rfl⟩ := takePort_eq hwork
    rcases hcompletion : takePort { p with
      portUsed := Function.update p.portUsed wi true, ports := p.ports + 1 } with ⟨ci, p₂⟩
    simp only [hcompletion]
    cases ci with
    | none =>
      obtain ⟨rfl, hall⟩ := takePort_eq_none hcompletion
      refine .inl ⟨?_, .inl ⟨wi, ?_⟩⟩
      · have hsame : Function.update p.portUsed wi false = p.portUsed := by
          rw [← hwfree, Function.update_eq_self]
        simp [QueuePool.givePort, hsame]
      · intro j hj
        by_contra hne
        have hj' := hall j
        simp [hne, hj] at hj'
    | some ci =>
      obtain ⟨hcfree, rfl⟩ := takePort_eq hcompletion
      have hne : ci ≠ wi := by
        rintro rfl
        simp at hcfree
      have hcfree' : p.portUsed ci = false := by simpa [hne] using hcfree
      rcases hqueue : takeQueue _ with ⟨x, q⟩
      cases x with
      | none =>
        obtain ⟨rfl, hall⟩ := takeQueue_eq_none hqueue
        refine .inl ⟨?_, .inr hall⟩
        have hsame : Function.update (Function.update (Function.update (Function.update
            p.portUsed wi true) ci true) wi false) ci false = p.portUsed := by
          funext j
          by_cases hjc : j = ci
          · simp [hjc, hcfree']
          · by_cases hjw : j = wi
            · simp [hjw, hne.symm, hwfree]
            · simp [hjc, hjw]
        simp only [QueuePool.givePort, hsame, Nat.add_sub_cancel]
      | some x =>
        obtain ⟨⟨hfree, hfirst⟩, rfl⟩ := takeQueue_eq hqueue
        exact .inr ⟨x, wi, ci, _, rfl, hne.symm, hfree, hwfree, hcfree', rfl, rfl, rfl, rfl, rfl,
          rfl, rfl, rfl, rfl, hfirst⟩

theorem sum_used_update (f : QueueId → Bool) {x : QueueId} (b : Bool) :
    ∑ y, (Function.update f x b y).toNat + (f x).toNat = ∑ y, (f y).toNat + b.toNat := by
  have hsum := sum_change (f := fun y => (f y).toNat)
    (g := fun y => (Function.update f x b y).toNat) x (fun y hy => by simp [hy])
  simpa only [Function.update_self] using hsum

theorem holds_of_free {x : QueueId} (free : p.madeUsed x = false) (i : PortId) :
    p.holds x i = 0 := by
  simp [holds, free]

/-- Opening a queue with ports of its own. -/
theorem PortsKept.opened (kept : PortsKept p pending) {x : QueueId} {wi ci : PortId}
    (h : OwnsPorts p q x wi ci) : PortsKept q pending := by
  have hwork := kept.holders_eq_zero (.inl h.workFree)
  have hcompletion := kept.holders_eq_zero (.inl h.completionFree)
  have hsame : ∀ y, y ≠ x → ∀ i, q.holds y i = p.holds y i := by
    intro y hy i
    simp only [holds, h.used, h.held, Function.update_of_ne hy]
  have hnew : ∀ i, q.holds x i = portCount (some wi) (some ci) i := by
    intro i
    simp only [holds, h.used, h.held, Function.update_self, if_true]
  have hold := fun i => holds_of_free h.free i
  constructor
  · intro i
    have hsum := sum_change (f := fun y => p.owning y i) (g := fun y => q.owning y i) x
      (fun y hy => by simp only [owning, h.owns, Function.update_of_ne hy, hsame y hy i])
    simp only [owning, h.owns, Function.update_self, if_true, hnew, hold, ite_self] at hsum
    have hkept := kept.owned i
    simp only [owning] at hkept ⊢
    rw [h.portOwned, h.owns]
    by_cases hic : i = ci
    · subst hic
      simp only [portCount, Option.some.injEq, h.apart, if_false, if_true] at hsum
      simp only [holders] at hcompletion
      simp only [Function.update_self, Bool.toNat_true]
      omega
    · by_cases hiw : i = wi
      · subst hiw
        simp only [portCount, Option.some.injEq, h.apart.symm, if_false, if_true] at hsum
        simp only [holders] at hwork
        simp only [Function.update_of_ne hic, Function.update_self, Bool.toNat_true]
        omega
      · simp only [portCount, Option.some.injEq, Ne.symm hic, Ne.symm hiw, if_false] at hsum
        simp only [Function.update_of_ne hic, Function.update_of_ne hiw]
        omega
  · intro i
    have hsum := sum_change (f := fun y => p.borrowing y i) (g := fun y => q.borrowing y i) x
      (fun y hy => by simp only [borrowing, h.owns, Function.update_of_ne hy, hsame y hy i])
    simp only [borrowing, h.owns, Function.update_self, if_true, hold, ite_self] at hsum
    have hkept := kept.borrows i
    simp only [borrowing] at hkept ⊢
    rw [h.borrows, h.owns]
    omega
  · intro i
    have hkept := kept.used i
    simp only [holders, h.portOwned, h.borrows, h.portUsed] at hkept ⊢
    by_cases hic : i = ci
    · subst hic
      rw [h.completionFree, Bool.toNat_false] at hkept
      simp only [Function.update_self, Bool.toNat_true]
      simp
      omega
    · by_cases hiw : i = wi
      · subst hiw
        rw [h.workFree, Bool.toNat_false] at hkept
        simp only [Function.update_of_ne hic, Function.update_self, Bool.toNat_true]
        simp
        omega
      · simp only [Function.update_of_ne hic, Function.update_of_ne hiw]
        exact hkept
  · have hfirst := sum_change (f := fun i => (p.portUsed i).toNat)
      (g := fun i => (Function.update p.portUsed wi true i).toNat) wi (fun i hi => by simp [hi])
    have hsecond := sum_change (f := fun i => (Function.update p.portUsed wi true i).toNat)
      (g := fun i => (q.portUsed i).toNat) ci (fun i hi => by simp [h.portUsed, hi])
    simp only [Function.update_self, Function.update_of_ne h.apart.symm, h.workFree,
      h.completionFree, Bool.toNat_true, Bool.toNat_false, h.portUsed] at hfirst hsecond
    rw [h.ports, kept.ports, h.portUsed]
    omega
  · have hsum := sum_used_update p.madeUsed (x := x) true
    rw [h.free] at hsum
    simp only [Bool.toNat_true, Bool.toNat_false] at hsum
    rw [h.queues, kept.queues, h.used]
    omega
  · intro y hy
    rw [h.held, h.made]
    by_cases hyx : y = x
    · subst hyx
      simp [TaskQueue.openWith]
    · rw [h.used, Function.update_of_ne hyx] at hy
      simpa only [Function.update_of_ne hyx] using kept.names y hy

structure BorrowsPorts (p q : QueuePool α) (x : QueueId) (w c : Option PortId) : Prop where
  free : p.madeUsed x = false
  used : q.madeUsed = Function.update p.madeUsed x true
  owns : q.madeOwns = Function.update p.madeOwns x false
  held : q.madePorts = Function.update p.madePorts x ⟨w, c⟩
  made : q.made = Function.update p.made x (.openWith w c)
  portOwned : q.portOwned = p.portOwned
  borrows : ∀ i, q.portBorrows i = p.portBorrows i + portCount w c i
  portUsed : q.portUsed = p.portUsed
  ports : q.ports = p.ports
  queues : q.queues = p.queues + 1
  first : ∀ y, y < x → p.madeUsed y = true

theorem borrow_fields (p : QueuePool α) (w : Option PortId) :
    p.borrow w =
      { p with portBorrows := fun i => p.portBorrows i + if w = some i then 1 else 0 } := by
  cases w with
  | none => simp [borrow]
  | some j =>
    have hsame : Function.update p.portBorrows j (p.portBorrows j + 1) =
        fun i => p.portBorrows i + if some j = some i then 1 else 0 := by
      funext i
      by_cases hi : i = j
      · subst hi; simp
      · simp [hi, Ne.symm hi]
    simp only [borrow, hsame]

theorem createCompositeQueue_borrows (p : QueuePool α) (w c : Option PortId) :
    (p.createCompositeQueue w c = (none, p) ∧ ∀ x, p.madeUsed x = true) ∨
    ∃ x q, p.createCompositeQueue w c = (some x, q) ∧ BorrowsPorts p q x w c := by
  unfold createCompositeQueue
  rcases hqueue : p.takeQueue with ⟨x, q⟩
  cases x with
  | none =>
    obtain ⟨rfl, hall⟩ := takeQueue_eq_none hqueue
    exact .inl ⟨rfl, hall⟩
  | some x =>
    obtain ⟨⟨hfree, hfirst⟩, rfl⟩ := takeQueue_eq hqueue
    refine .inr ⟨x, _, rfl, ?_⟩
    simp only [borrow_fields]
    exact ⟨hfree, rfl, rfl, rfl, rfl, rfl, fun i => by simp only [portCount, Nat.add_assoc], rfl,
      rfl, rfl, hfirst⟩

/-- Opening a queue with ports that others hold. -/
theorem PortsKept.borrowed (kept : PortsKept p pending) {x : QueueId} {w c : Option PortId}
    (h : BorrowsPorts p q x w c) (live : ∀ i, w = some i ∨ c = some i → 0 < p.holders i) :
    PortsKept q pending := by
  have hsame : ∀ y, y ≠ x → ∀ i, q.holds y i = p.holds y i := by
    intro y hy i
    simp only [holds, h.used, h.held, Function.update_of_ne hy]
  have hnew : ∀ i, q.holds x i = portCount w c i := by
    intro i
    simp only [holds, h.used, h.held, Function.update_self, if_true]
  have hold := fun i => holds_of_free h.free i
  constructor
  · intro i
    have hsum := sum_change (f := fun y => p.owning y i) (g := fun y => q.owning y i) x
      (fun y hy => by simp only [owning, h.owns, Function.update_of_ne hy, hsame y hy i])
    simp only [owning, h.owns, Function.update_self, hold, ite_self] at hsum
    have hkept := kept.owned i
    simp only [owning] at hkept ⊢
    rw [h.portOwned, h.owns]
    simp only [Bool.false_eq_true, if_false] at hsum
    omega
  · intro i
    have hsum := sum_change (f := fun y => p.borrowing y i) (g := fun y => q.borrowing y i) x
      (fun y hy => by simp only [borrowing, h.owns, Function.update_of_ne hy, hsame y hy i])
    simp only [borrowing, h.owns, Function.update_self, hnew, hold, ite_self] at hsum
    have hkept := kept.borrows i
    simp only [borrowing] at hkept ⊢
    rw [h.borrows, h.owns]
    simp only [Bool.false_eq_true, if_false] at hsum
    omega
  · intro i
    have hkept := kept.used i
    have hholders : (0 < q.holders i) ↔ 0 < p.holders i := by
      simp only [holders, h.portOwned, h.borrows]
      by_cases hi : w = some i ∨ c = some i
      · have hlive := live i hi
        simp only [holders] at hlive
        omega
      · have hzero : portCount w c i = 0 := by
          have hpos := (portCount_pos (a := w) (b := c) (i := i)).not.mpr hi
          omega
        omega
    simpa only [h.portUsed, hholders] using hkept
  · rw [h.ports, h.portUsed]; exact kept.ports
  · have hsum := sum_used_update p.madeUsed (x := x) true
    rw [h.free] at hsum
    simp only [Bool.toNat_true, Bool.toNat_false] at hsum
    rw [h.queues, kept.queues, h.used]
    omega
  · intro y hy
    rw [h.held, h.made]
    by_cases hyx : y = x
    · subst hyx
      simp [TaskQueue.openWith]
    · rw [h.used, Function.update_of_ne hyx] at hy
      simpa only [Function.update_of_ne hyx] using kept.names y hy

structure Dropped (p q : QueuePool α) (owns : Bool) (i : Option PortId) (spent : Option PortId) :
    Prop where
  used : q.madeUsed = p.madeUsed
  madeOwns : q.madeOwns = p.madeOwns
  held : q.madePorts = p.madePorts
  made : q.made = p.made
  portUsed : q.portUsed = p.portUsed
  ports : q.ports = p.ports
  queues : q.queues = p.queues
  portOwned : ∀ x, (q.portOwned x).toNat + (if owns ∧ i = some x then 1 else 0) =
    (p.portOwned x).toNat
  borrows : ∀ x, q.portBorrows x + (if owns = false ∧ i = some x then 1 else 0) = p.portBorrows x
  spent : ∀ x, spent = some x ↔ i = some x ∧ p.portUsed x = true ∧ q.holders x = 0

/-- Of two ports that are dropped in a row, the port is found spent once: after the last drop. -/
theorem portCount_spent {a b d₁ d₂ : Option PortId} {i : PortId} {u : Prop} {m n : ℕ}
    (first : d₁ = some i ↔ a = some i ∧ u ∧ m = 0) (second : d₂ = some i ↔ b = some i ∧ u ∧ n = 0)
    (between : m = n + if b = some i then 1 else 0) (used : 0 < portCount a b i → u) :
    portCount d₁ d₂ i = if 0 < portCount a b i ∧ n = 0 then 1 else 0 := by
  have hpos := portCount_pos (a := a) (b := b) (i := i)
  unfold portCount at used hpos ⊢
  by_cases hb : b = some i
  · have hu := used (hpos.mpr (.inr hb))
    have hm : m ≠ 0 := by
      rw [if_pos hb] at between
      omega
    have hfirst : d₁ ≠ some i := fun h => hm (first.mp h).2.2
    simp [hfirst, second, hb, hu]
  · have hsecond : d₂ ≠ some i := fun h => hb (second.mp h).1
    obtain rfl : m = n := by simpa [hb] using between
    by_cases ha : a = some i
    · have hu := used (hpos.mpr (.inl ha))
      simp [hsecond, first, ha, hb, hu]
    · have hfirst : d₁ ≠ some i := fun h => ha (first.mp h).1
      simp [hfirst, hsecond, ha, hb]

theorem spent_iff (p : QueuePool α) (i : PortId) :
    p.spent i = true ↔ p.portUsed i = true ∧ p.holders i = 0 := by
  simp only [QueuePool.spent, holders, Bool.and_eq_true, Bool.not_eq_true', beq_iff_eq,
    Nat.add_eq_zero_iff, and_assoc]
  cases p.portOwned i <;> simp

theorem dropPort_dropped (p : QueuePool α) (owns : Bool) (i : Option PortId)
    (owned : ∀ x, i = some x → owns = true → p.portOwned x = true)
    (borrowed : ∀ x, i = some x → owns = false → 0 < p.portBorrows x) :
    Dropped p (p.dropPort owns i).2 owns i (p.dropPort owns i).1 := by
  cases i with
  | none => constructor <;> simp [dropPort]
  | some j =>
    have spent : ∀ q : QueuePool α, q.portUsed = p.portUsed → ∀ x,
        (if q.spent j then some j else none) = some x ↔
          some j = some x ∧ p.portUsed x = true ∧ q.holders x = 0 := by
      intro q hused x
      by_cases hjx : j = x
      · subst hjx
        rw [← hused, ← spent_iff]
        split_ifs <;> simp_all
      · split_ifs <;> simp [hjx]
    cases owns with
    | true =>
      have hj := owned j rfl rfl
      refine ⟨rfl, rfl, rfl, rfl, rfl, rfl, rfl, ?_, ?_, spent _ rfl⟩
      · intro x
        by_cases hjx : j = x
        · subst hjx; simp [dropPort, hj]
        · simp [dropPort, hjx, Ne.symm hjx]
      · intro x
        simp [dropPort]
    | false =>
      have hj := borrowed j rfl rfl
      simp only [dropPort, Nat.ne_of_gt hj, if_false]
      refine ⟨rfl, rfl, rfl, rfl, rfl, rfl, rfl, ?_, ?_, spent _ rfl⟩
      · intro x
        simp
      · intro x
        by_cases hjx : j = x
        · subst hjx
          simp
          omega
        · simp [hjx, Ne.symm hjx]

/-- The queue object owns the port at most once, and borrows it at most as often as it is borrowed
at all. -/
theorem PortsKept.le_owned (kept : PortsKept p pending) (x : QueueId) (i : PortId) :
    p.owning x i ≤ (p.portOwned i).toNat := by
  rw [← kept.owned i]
  exact Finset.single_le_sum (f := fun y => p.owning y i) (fun y _ => Nat.zero_le _)
    (Finset.mem_univ x)

theorem PortsKept.le_borrows (kept : PortsKept p pending) (x : QueueId) (i : PortId) :
    p.borrowing x i ≤ p.portBorrows i := by
  rw [← kept.borrows i]
  exact Finset.single_le_sum (f := fun y => p.borrowing y i) (fun y _ => Nat.zero_le _)
    (Finset.mem_univ x)

/-- A queue object that was in use is given back; `done` are the ports that nobody holds any
more. -/
structure Released (p q : QueuePool α) (x : QueueId) (done : Option PortId × Option PortId) :
    Prop where
  used : q.madeUsed = Function.update p.madeUsed x false
  owns : q.madeOwns = Function.update p.madeOwns x false
  held : q.madePorts = Function.update p.madePorts x ⟨none, none⟩
  made : q.made = p.made
  portUsed : q.portUsed = p.portUsed
  ports : q.ports = p.ports
  queues : q.queues = p.queues - 1
  portOwned : ∀ i, (q.portOwned i).toNat + p.owning x i = (p.portOwned i).toNat
  borrows : ∀ i, q.portBorrows i + p.borrowing x i = p.portBorrows i
  done : ∀ i, portCount done.1 done.2 i = if 0 < p.holds x i ∧ q.holders i = 0 then 1 else 0

theorem PortsKept.releaseQueue (kept : PortsKept p pending) {x : QueueId}
    (used : p.madeUsed x = true) : Released p (p.releaseQueue x).2 x (p.releaseQueue x).1 := by
  rcases hheld : p.madePorts x with ⟨work, completion⟩
  have hholds : ∀ i, p.holds x i = portCount work completion i := by
    intro i
    simp only [holds, used, hheld, if_true]
  have hown : ∀ i, p.madeOwns x = true → portCount work completion i ≤ (p.portOwned i).toNat := by
    intro i howns
    have hle := kept.le_owned x i
    rwa [owning, if_pos howns, hholds] at hle
  have hborrow : ∀ i, p.madeOwns x = false → portCount work completion i ≤ p.portBorrows i := by
    intro i howns
    have hle := kept.le_borrows x i
    rwa [borrowing, if_neg (by simp [howns]), hholds] at hle
  have first := p.dropPort_dropped (p.madeOwns x) work (by
      rintro i rfl howns
      have hle := hown i howns
      have hpos := portCount_pos (i := i) (a := some i) (b := completion)
      by_contra hnot
      simp only [Bool.eq_false_of_not_eq_true hnot, Bool.toNat_false] at hle
      have := hpos.mpr (.inl rfl)
      omega) (by
      rintro i rfl howns
      have hle := hborrow i howns
      have hpos := (portCount_pos (i := i) (a := some i) (b := completion)).mpr (.inl rfl)
      omega)
  have second := (p.dropPort (p.madeOwns x) work).2.dropPort_dropped (p.madeOwns x) completion (by
      rintro i rfl howns
      have hle := hown i howns
      have hfirst := first.portOwned i
      have hbound := (p.portOwned i).toNat_le
      rw [portCount, if_pos rfl] at hle
      by_cases hwork : work = some i
      · rw [if_pos hwork] at hle
        omega
      · rw [if_neg fun h => hwork h.2] at hfirst
        by_contra hnot
        rw [Bool.eq_false_of_not_eq_true hnot, Bool.toNat_false] at hfirst
        omega) (by
      rintro i rfl howns
      have hle := hborrow i howns
      have hfirst := first.borrows i
      rw [portCount, if_pos rfl] at hle
      by_cases hwork : work = some i
      · rw [if_pos hwork] at hle
        rw [if_pos ⟨howns, hwork⟩] at hfirst
        omega
      · rw [if_neg fun h => hwork h.2] at hfirst
        omega)
  -- between the two drops the second port has one holder more
  have between : ∀ i, (p.dropPort (p.madeOwns x) work).2.holders i =
      ((p.dropPort (p.madeOwns x) work).2.dropPort (p.madeOwns x) completion).2.holders i +
        if completion = some i then 1 else 0 := by
    intro i
    have h₁ := second.portOwned i
    have h₂ := second.borrows i
    simp only [holders]
    by_cases hcompletion : completion = some i
    · cases howns : p.madeOwns x with
      | true => simp [howns, hcompletion] at h₁ h₂ ⊢; omega
      | false => simp [howns, hcompletion] at h₁ h₂ ⊢; omega
    · simp only [hcompletion, and_false, if_false] at h₁ h₂ ⊢
      omega
  simp only [QueuePool.releaseQueue, used, if_true, hheld]
  constructor
  · simp only [second.used, first.used]
  · simp only [second.madeOwns, first.madeOwns]
  · simp only [second.held, first.held]
  · simp only [second.made, first.made]
  · simp only [second.portUsed, first.portUsed]
  · simp only [second.ports, first.ports]
  · simp only [second.queues, first.queues]
  · intro i
    have h₁ := first.portOwned i
    have h₂ := second.portOwned i
    simp only [owning, hholds, portCount]
    cases howns : p.madeOwns x <;> simp [howns] at h₁ h₂ ⊢ <;> omega
  · intro i
    have h₁ := first.borrows i
    have h₂ := second.borrows i
    simp only [borrowing, hholds, portCount]
    cases howns : p.madeOwns x <;> simp [howns] at h₁ h₂ ⊢ <;> omega
  · intro i
    have hspent := portCount_spent (first.spent i) (first.portUsed ▸ second.spent i) (between i)
      fun h => kept.portUsed_of_holds (by rw [hholds]; exact h)
    simp only [hholds]
    exact hspent

theorem Released.holders {x : QueueId} {done : Option PortId × Option PortId}
    (h : Released p q x done) (i : PortId) : q.holders i + p.holds x i = p.holders i := by
  have howned := h.portOwned i
  have hborrows := h.borrows i
  have hholds := p.owning_add_borrowing x i
  simp only [QueuePool.holders]
  omega

/-- Giving a queue object back: the ports that are spent are to be given back as well. -/
theorem PortsKept.released (kept : PortsKept p pending) {x : QueueId}
    {done : Option PortId × Option PortId} (used : p.madeUsed x = true) (h : Released p q x done)
    (hafter : ∀ i, after i = pending i + portCount done.1 done.2 i) : PortsKept q after := by
  have hsame : ∀ y, y ≠ x → ∀ i, q.holds y i = p.holds y i := by
    intro y hy i
    simp only [holds, h.used, h.held, Function.update_of_ne hy]
  have hnew : ∀ i, q.holds x i = 0 := fun i => holds_of_free (by rw [h.used]; simp) i
  constructor
  · intro i
    have hsum := sum_change (f := fun y => p.owning y i) (g := fun y => q.owning y i) x
      (fun y hy => by simp only [owning, h.owns, Function.update_of_ne hy, hsame y hy i])
    have hx : q.owning x i = 0 := by simp [owning, hnew]
    have hdrop := h.portOwned i
    have hkept := kept.owned i
    omega
  · intro i
    have hsum := sum_change (f := fun y => p.borrowing y i) (g := fun y => q.borrowing y i) x
      (fun y hy => by simp only [borrowing, h.owns, Function.update_of_ne hy, hsame y hy i])
    have hx : q.borrowing x i = 0 := by simp [borrowing, hnew]
    have hdrop := h.borrows i
    have hkept := kept.borrows i
    omega
  · intro i
    have hkept := kept.used i
    have hholders := h.holders i
    have hle := (p.portUsed i).toNat_le
    rw [hafter, h.done, h.portUsed]
    by_cases hp : 0 < p.holders i
    · rw [decide_eq_true hp, Bool.toNat_true] at hkept
      by_cases hq : 0 < q.holders i
      · rw [decide_eq_true hq, if_neg fun h => Nat.ne_of_gt hq h.2, Bool.toNat_true]
        omega
      · rw [decide_eq_false hq, if_pos ⟨by omega, by omega⟩, Bool.toNat_false]
        omega
    · have hq : ¬ 0 < q.holders i := by omega
      rw [decide_eq_false hp, Bool.toNat_false] at hkept
      rw [decide_eq_false hq, if_neg fun h => by omega, Bool.toNat_false]
      omega
  · rw [h.ports, h.portUsed]
    exact kept.ports
  · have hsum := sum_used_update p.madeUsed (x := x) false
    rw [used] at hsum
    simp only [Bool.toNat_true, Bool.toNat_false] at hsum
    rw [h.queues, kept.queues, h.used]
    omega
  · intro y hy
    by_cases hyx : y = x
    · subst hyx
      simp [h.used] at hy
    · rw [h.used, Function.update_of_ne hyx] at hy
      rw [h.held, Function.update_of_ne hyx, h.made]
      exact kept.names y hy

end QueuePool

end IW4x.Gdk
