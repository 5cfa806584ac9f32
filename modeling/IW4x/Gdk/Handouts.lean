import IW4x.Gdk.Notices
import IW4x.Gdk.Queues
import IW4x.Gdk.SaveHandles

/-!
# Calls that hand out a token, a handle or a reference

Some of them take what they hand out before they look at the place where the caller wants it. Where
there is none they fail, and what was taken stays taken.
-/

namespace IW4x.Gdk

namespace HandlePool

variable {α : Type} {n : ℕ}

/-- No item is left. -/
def Full (p : HandlePool α n) : Prop := ∀ i, p.used i = true

theorem openItem_eq_none {zero : α} {p : HandlePool α n} : p.openItem zero = none ↔ p.Full := by
  unfold openItem Full
  split
  · rename_i hnone
    simpa using hnone
  · rename_i i hsome
    simp only [reduceCtorEq, false_iff, not_forall]
    exact ⟨i, by simpa using List.find?_some hsome⟩

theorem openItem_set_ne {zero x : α} {p q : HandlePool α n} {i : Fin n}
    (h : p.openItem zero = some (i, q)) : q.set i x ≠ p := by
  obtain ⟨hfree, rfl⟩ := openItem_eq_some h
  intro heq
  rw [← heq] at hfree
  simp [set] at hfree

end HandlePool

structure ChangeHandler where
  context : ℕ
  callback : ℕ

structure Handouts where
  notices : Notices
  /-- `change_handlers`. -/
  changes : HandlerTable ChangeHandler
  saves : SaveHandles
  /-- `open` of the store context. -/
  contextOpen : ℤ
  queues : QueuePool Unit

/-- A call, where `out` says whether there is a result pointer. -/
inductive HandoutCall where
  | registerForEvent (context : ℕ) (callback : Option ℕ) (out : Bool)
  | registerForChange (context : ℕ) (callback : Option ℕ) (out : Bool)
  | registerConnectivityChanged (context : ℕ) (callback : Option ℕ) (out alloc : Bool)
  | createContainer (provider : Bool) (n : Bytes) (denied : Option HResult) (out : Bool)
  | createUpdate (c : Option (Fin maxContainers)) (out : Bool)
  | createContext (out : Bool)
  | queueDuplicateHandle (q : Option QueueId) (out : Bool)

def registrationResult : List NoticeEvent → HResult
  | [.failed hr] => hr
  | _ => S_OK

namespace Handouts

variable (skip : Bytes → ℕ) (s : Handouts)

def registerForChange (context : ℕ) (callback : Option ℕ) (out : Bool) : Handouts × HResult :=
  match callback with
  | none => (s, E_INVALIDARG)
  | some f =>
    match s.changes.add ⟨context, f⟩ with
    | none => (s, E_OUTOFMEMORY)
    | some (_, t) => ({ s with changes := t }, if out then S_OK else E_POINTER)

def createContext (out : Bool) : Handouts × HResult :=
  ({ s with contextOpen := s.contextOpen + 1 }, if out then S_OK else E_POINTER)

def queueDuplicateHandle (q : Option QueueId) (out : Bool) : Handouts × HResult :=
  match q with
  | none => (s, E_POINTER)
  | some q => if out then ({ s with queues := s.queues.duplicate q }, S_OK) else (s, E_POINTER)

def call : HandoutCall → Handouts × HResult
  | .registerForEvent context callback out =>
    let r := s.notices.register .invite context callback out true
    ({ s with notices := r.1 }, registrationResult r.2)
  | .registerForChange context callback out => s.registerForChange context callback out
  | .registerConnectivityChanged context callback out alloc =>
    let r := s.notices.register .connectivity context callback out alloc
    ({ s with notices := r.1 }, registrationResult r.2)
  | .createContainer provider n denied out =>
    let r := s.saves.createContainer skip provider n denied out
    ({ s with saves := r.1 }, r.2)
  | .createUpdate c out =>
    let r := s.saves.createUpdate c out
    ({ s with saves := r.1 }, r.2)
  | .createContext out => s.createContext out
  | .queueDuplicateHandle q out => s.queueDuplicateHandle q out

structure Same (t : Handouts) : Prop where
  tables : t.notices.tables = s.notices.tables
  changes : t.changes = s.changes
  containers : t.saves.containers = s.saves.containers
  updates : t.saves.updates = s.saves.updates
  context : t.contextOpen = s.contextOpen
  queues : t.queues = s.queues

/-- A call that takes something has a place for it, and memory for what follows; or it fails before
that, since an argument is wrong or nothing is left. -/
def Placed : HandoutCall → Prop
  | .registerForEvent _ callback out =>
    out = true ∨ callback = none ∨ (s.notices.tables .invite).Full
  | .registerForChange _ callback out => out = true ∨ callback = none ∨ s.changes.Full
  | .registerConnectivityChanged _ callback out alloc =>
    out = true ∧ alloc = true ∨ callback = none ∨ (s.notices.tables .connectivity).Full
  | .createContainer provider n denied out =>
    out = true ∨ storable n = false ∨ provider = false ∨
      (s.saves.root.append skip n).whole = false ∨ denied ≠ none ∨ s.saves.containers.Full
  | .createUpdate c out =>
    out = true ∨ s.saves.containers.lookup c = none ∨ s.saves.updates.Full
  | .createContext out => out = true
  | .queueDuplicateHandle _ _ => True

/-! ## What each call takes -/

/-- The two registrations whose events are posted: nothing is taken, or a slot is, and then the call
fails where there is no place for the token or no memory. -/
theorem register_takes (n : Notices) (k : NoticeKind) (context : ℕ) (callback : Option ℕ)
    (out alloc : Bool) :
    ((callback = none ∨ (n.tables k).Full) ∧
        (n.register k context callback out alloc).1.tables = n.tables) ∨
      ¬ (callback = none ∨ (n.tables k).Full) ∧
        ¬ (n.register k context callback out alloc).1.tables = n.tables ∧
        (failed (registrationResult (n.register k context callback out alloc).2) = true ↔
          ¬ (out = true ∧ (k = .connectivity → alloc = true))) := by
  unfold Notices.register
  cases callback with
  | none => exact .inl ⟨.inl rfl, rfl⟩
  | some f =>
    simp only [reduceCtorEq, false_or]
    cases hadd : (n.tables k).add ⟨context, f, n.registered⟩ with
    | none => exact .inl ⟨HandlerTable.add_eq_none.mp hadd, rfl⟩
    | some added =>
      obtain ⟨token, t⟩ := added
      right
      have hroom : ¬ (n.tables k).Full := fun hfull => by
        rw [HandlerTable.add_eq_none.mpr hfull] at hadd
        cases hadd
      have hother : Function.update n.tables k t ≠ n.tables := fun heq =>
        HandlerTable.add_ne hadd (by rw [← Function.update_self k t n.tables, heq])
      refine ⟨hroom, ?_, ?_⟩
      · cases out <;> cases k <;> cases alloc <;> exact hother
      · cases out <;> cases k <;> cases alloc <;> simp [registrationResult] <;> decide

/-- A call that fails leaves the state, where it takes something just if it does not find a reason to
fail before, and fails after that just if it lacks what it needs. -/
theorem keeps_iff {same reason needs : Prop} {hr : HResult}
    (h : reason ∧ same ∨ ¬ reason ∧ ¬ same ∧ (failed hr = true ↔ ¬ needs)) :
    (failed hr = true → same) ↔ needs ∨ reason := by
  tauto

theorem failed_place (out : Bool) :
    failed (if out = true then S_OK else E_POINTER) = true ↔ ¬ out = true := by
  cases out <;> decide

theorem same_notices_iff (n : Notices) : Same s { s with notices := n } ↔
    n.tables = s.notices.tables :=
  ⟨Same.tables, fun h => ⟨h, rfl, rfl, rfl, rfl, rfl⟩⟩

theorem registerForChange_takes (context : ℕ) (callback : Option ℕ) (out : Bool) :
    (callback = none ∨ s.changes.Full) ∧ Same s (s.registerForChange context callback out).1 ∨
      ¬ (callback = none ∨ s.changes.Full) ∧
        ¬ Same s (s.registerForChange context callback out).1 ∧
        (failed (s.registerForChange context callback out).2 = true ↔ ¬ out = true) := by
  unfold registerForChange
  cases callback with
  | none => exact .inl ⟨.inl rfl, rfl, rfl, rfl, rfl, rfl, rfl⟩
  | some f =>
    simp only [reduceCtorEq, false_or]
    cases hadd : s.changes.add ⟨context, f⟩ with
    | none => exact .inl ⟨HandlerTable.add_eq_none.mp hadd, rfl, rfl, rfl, rfl, rfl, rfl⟩
    | some added =>
      obtain ⟨token, t⟩ := added
      refine .inr ⟨fun hfull => ?_, fun hsame => HandlerTable.add_ne hadd hsame.changes, ?_⟩
      · rw [HandlerTable.add_eq_none.mpr hfull] at hadd
        cases hadd
      · exact failed_place out

/-- `create_container`. -/
theorem createContainer_takes (provider : Bool) (n : Bytes) (denied : Option HResult) (out : Bool)
    (t : Handouts)
    (ht : t = { s with saves := (s.saves.createContainer skip provider n denied out).1 }) :
    (storable n = false ∨ provider = false ∨ (s.saves.root.append skip n).whole = false ∨
        denied ≠ none ∨ s.saves.containers.Full) ∧ Same s t ∨
      ¬ (storable n = false ∨ provider = false ∨ (s.saves.root.append skip n).whole = false ∨
        denied ≠ none ∨ s.saves.containers.Full) ∧ ¬ Same s t ∧
        (failed (s.saves.createContainer skip provider n denied out).2 = true ↔ ¬ out = true) := by
  unfold SaveHandles.createContainer at ht ⊢
  by_cases harguments : storable n = false ∨ provider = false
  · rw [if_pos harguments] at ht ⊢
    subst ht
    exact .inl ⟨by tauto, rfl, rfl, rfl, rfl, rfl, rfl⟩
  · rw [if_neg harguments] at ht ⊢
    dsimp only at ht ⊢
    by_cases hwhole : (s.saves.root.append skip n).whole = false
    · rw [if_pos hwhole] at ht ⊢
      subst ht
      exact .inl ⟨by tauto, rfl, rfl, rfl, rfl, rfl, rfl⟩
    · rw [if_neg hwhole] at ht ⊢
      cases denied with
      | some hr =>
        subst ht
        exact .inl ⟨by simp, rfl, rfl, rfl, rfl, rfl, rfl⟩
      | none =>
        cases hopen : s.saves.containers.openItem .zero with
        | none =>
          simp only [hopen] at ht
          subst ht
          exact .inl ⟨by simp [HandlePool.openItem_eq_none.mp hopen], rfl, rfl, rfl, rfl, rfl, rfl⟩
        | some opened =>
          obtain ⟨c, p⟩ := opened
          simp only [hopen] at ht ⊢
          subst ht
          refine .inr ⟨?_, fun hsame => HandlePool.openItem_set_ne hopen hsame.containers, ?_⟩
          · have hroom : ¬ s.saves.containers.Full := fun hfull => by
              rw [HandlePool.openItem_eq_none.mpr hfull] at hopen
              cases hopen
            tauto
          · exact failed_place out

/-- `create_update`. -/
theorem createUpdate_takes (c : Option (Fin maxContainers)) (out : Bool) (t : Handouts)
    (ht : t = { s with saves := (s.saves.createUpdate c out).1 }) :
    (s.saves.containers.lookup c = none ∨ s.saves.updates.Full) ∧ Same s t ∨
      ¬ (s.saves.containers.lookup c = none ∨ s.saves.updates.Full) ∧ ¬ Same s t ∧
        (failed (s.saves.createUpdate c out).2 = true ↔ ¬ out = true) := by
  unfold SaveHandles.createUpdate at ht ⊢
  cases hlookup : s.saves.containers.lookup c with
  | none =>
    simp only [hlookup] at ht
    subst ht
    exact .inl ⟨.inl rfl, rfl, rfl, rfl, rfl, rfl, rfl⟩
  | some i =>
    cases hopen : s.saves.updates.openItem .zero with
    | none =>
      simp only [hlookup, hopen] at ht
      subst ht
      exact .inl ⟨.inr (HandlePool.openItem_eq_none.mp hopen), rfl, rfl, rfl, rfl, rfl, rfl⟩
    | some opened =>
      obtain ⟨u, p⟩ := opened
      simp only [hlookup, hopen] at ht ⊢
      subst ht
      refine .inr ⟨?_, fun hsame => HandlePool.openItem_set_ne hopen hsame.updates, ?_⟩
      · rintro (hnone | hfull)
        · cases hnone
        · rw [HandlePool.openItem_eq_none.mpr hfull] at hopen
          cases hopen
      · exact failed_place out

/-- A call that fails leaves the tables, the pools and the counts if and only if it has a place for
what it takes, or fails before it takes anything. -/
theorem failure_keeps_iff (c : HandoutCall) :
    (failed (s.call skip c).2 = true → Same s (s.call skip c).1) ↔ Placed skip s c := by
  cases c with
  | registerForEvent context callback out =>
    have htakes := register_takes s.notices .invite context callback out true
    rw [← same_notices_iff] at htakes
    refine (keeps_iff htakes).trans ?_
    simp [Placed]
  | registerForChange context callback out =>
    exact keeps_iff (s.registerForChange_takes context callback out)
  | registerConnectivityChanged context callback out alloc =>
    have htakes := register_takes s.notices .connectivity context callback out alloc
    rw [← same_notices_iff] at htakes
    refine (keeps_iff htakes).trans ?_
    simp [Placed]
  | createContainer provider n denied out =>
    exact keeps_iff (s.createContainer_takes skip provider n denied out _ rfl)
  | createUpdate c out => exact keeps_iff (s.createUpdate_takes c out _ rfl)
  | createContext out =>
    have hother : ¬ Same s (s.createContext out).1 := fun hsame => by
      have := hsame.context
      simp [createContext] at this
    have hkeeps := keeps_iff (.inr ⟨not_false, hother, failed_place out⟩)
    rwa [or_false] at hkeeps
  | queueDuplicateHandle q out =>
    refine iff_of_true (fun hfailed => ?_) trivial
    cases q with
    | none => exact ⟨rfl, rfl, rfl, rfl, rfl, rfl⟩
    | some q =>
      cases out with
      | false => exact ⟨rfl, rfl, rfl, rfl, rfl, rfl⟩
      | true => exact absurd hfailed (by simp [call, queueDuplicateHandle])

def start : Handouts where
  notices := .start (fun _ => .fresh) 0 true
  changes := .empty
  saves := .start .empty ⟨fun _ => none, fun _ => true⟩
  contextOpen := 0
  queues := .empty

/-- A registration without a place for the token fails, and the handler is in the table. -/
theorem failure_keeps_fails :
    ¬ ∀ (skip : Bytes → ℕ) (s : Handouts) (c : HandoutCall),
      failed (s.call skip c).2 = true → Same s (s.call skip c).1 := by
  intro h
  have hsame := (h (fun _ => 0) start (.registerForEvent 1 (some 2) false) (by decide)).tables
  have htable := congrArg (fun t => (t NoticeKind.invite).slots 0) hsame
  revert htable
  decide

end Handouts

end IW4x.Gdk
