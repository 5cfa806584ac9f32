import IW4x.Lib.Runs
import IW4x.Gdk.Handlers
import IW4x.Gdk.TaskPort

/-!
# Notices to registered handlers

An invitation, and the first word on the connectivity, are handed to the game by events that are
posted to the process queue. An event carries a copy of the handler, made when the table was read, and
`remove` looks at the table only. A callback that unregistered its handler may be called afterwards.

A handler carries the number of its registration, which is not in the source and which nothing reads.
-/

namespace IW4x.Gdk

open Runs

/-- The two tables of handlers whose events are posted. -/
inductive NoticeKind where
  | invite
  | connectivity
  deriving DecidableEq

/-- `invite_handler` and `connectivity_handler`. -/
structure Handler where
  context : ℕ
  callback : ℕ
  number : ℕ
  deriving DecidableEq, Inhabited

/-- `invitation`, with the connection string that its URI is made of, or `notification`. -/
structure Notice where
  handler : Handler
  invitation : Option (List Char)
  deriving DecidableEq, Inhabited

/-- What a completion port holds: an event, or another callback. -/
abbrev PortWork := Option Notice

structure Notices where
  /-- `initialized ()`. -/
  up : Bool
  tables : NoticeKind → HandlerTable Handler
  /-- How many handlers were registered. -/
  registered : ℕ
  /-- The completion ports, and which of them is that of the process queue. -/
  ports : ℕ → TaskPort PortWork
  current : ℕ
  /-- The events that threads are about to post, for each thread in order. -/
  posting : List (List Notice)
  /-- The events that threads took from a port, before they call the callback. -/
  taken : List Notice

inductive NoticeAct where
  /-- `register_for_event` or `register_connectivity_changed`; `out` says whether there is a place for
  the token, and `alloc` whether there is memory for the first notification. -/
  | register (k : NoticeKind) (context : ℕ) (callback : Option ℕ) (out alloc : Bool)
  | unregister (k : NoticeKind) (token : ℕ)
  /-- `deliver_invite`, up to the first `post`. -/
  | arrive (c : List Char)
  /-- `post` of a thread's next event; `alloc` says whether there is memory for it. -/
  | post (i now : ℕ) (alloc : Bool)
  /-- A thread takes a callback from a port. -/
  | dispatch (p now : ℕ)
  /-- A thread that took an event calls the callback. -/
  | deliver (i : ℕ)
  /-- Another callback is submitted. -/
  | submit (p now delay : ℕ)
  | terminate (p : ℕ)
  | stop (p : ℕ)
  | setProcessQueue (p : ℕ)
  | runtime (up : Bool)
  deriving DecidableEq

inductive NoticeEvent where
  | registered (number token : ℕ)
  | failed (hr : HResult)
  /-- An unregistration succeeded, of this registration. -/
  | unregistered (number : ℕ)
  | unknown
  /-- The callback was called, with its context. -/
  | called (n : Notice)
  deriving DecidableEq

namespace Notices

/-- The program before any handler is registered, with any ports. -/
def start (ports : ℕ → TaskPort PortWork) (current : ℕ) (up : Bool) : Notices where
  up := up
  tables := fun _ => .empty
  registered := 0
  ports := fun p => (ports p).openPort (ports p).mode
  current := current
  posting := []
  taken := []

/-- The two registrations. That of the connectivity posts a first notification. -/
def register (s : Notices) (k : NoticeKind) (context : ℕ) (callback : Option ℕ)
    (out alloc : Bool) : Notices × List NoticeEvent :=
  match callback with
  | none => (s, [.failed E_INVALIDARG])
  | some f =>
    let h : Handler := ⟨context, f, s.registered⟩
    match (s.tables k).add h with
    | none => (s, [.failed E_OUTOFMEMORY])
    | some (token, t) =>
      let s := { s with tables := Function.update s.tables k t, registered := s.registered + 1 }
      if out = false then (s, [.failed E_POINTER])
      else match k with
        | .invite => (s, [.registered h.number token])
        | .connectivity =>
          if alloc then
            ({ s with posting := s.posting ++ [[⟨h, none⟩]] }, [.registered h.number token])
          else (s, [.failed E_UNEXPECTED])

def unregister (s : Notices) (k : NoticeKind) (token : ℕ) : Notices × List NoticeEvent :=
  match (s.tables k).remove token, (s.tables k).find token with
  | some t, some h =>
    ({ s with tables := Function.update s.tables k t }, [.unregistered h.number])
  | _, _ => (s, [.unknown])

/-- `deliver_invite`: the handlers are copied. -/
def deliverInvite (s : Notices) (c : List Char) : Notices :=
  if s.up then
    { s with posting := s.posting ++ [(s.tables .invite).live.map fun h => ⟨h, some c⟩] }
  else s

/-- `post`, on the completion port of the process queue. A port in immediate mode has the thread that
posts call the callback. -/
def post (s : Notices) (now : ℕ) (alloc : Bool) (n : Notice) : Notices :=
  if alloc = false then s
  else match (s.ports s.current).submit now 0 (some n) with
    | .accepted p => { s with ports := Function.update s.ports s.current p }
    | .immediate => { s with taken := s.taken ++ [n] }
    | .refused => s

/-- A callback is taken, and dropped where it is an event and canceled. -/
def dispatch (s : Notices) (p now : ℕ) : Option Notices :=
  match (s.ports p).take now with
  | none => none
  | some t =>
    let s := { s with ports := Function.update s.ports p t.port }
    match t.item.callback with
    | none => some s
    | some n => some (if t.canceled then s else { s with taken := s.taken ++ [n] })

def step : Step Notices NoticeAct NoticeEvent
  | s, .register k context callback out alloc => some (s.register k context callback out alloc)
  | s, .unregister k token => some (s.unregister k token)
  | s, .arrive c => some (s.deliverInvite c, [])
  | s, .post i now alloc =>
    match s.posting[i]? with
    | some (n :: rest) => some ({ s with posting := s.posting.set i rest }.post now alloc n, [])
    | _ => none
  | s, .dispatch p now => (s.dispatch p now).map fun t => (t, [])
  | s, .deliver i =>
    match s.taken[i]? with
    | some n => some ({ s with taken := s.taken.eraseIdx i }, [.called n])
    | none => none
  | s, .submit p now delay =>
    match (s.ports p).submit now delay none with
    | .accepted q => some ({ s with ports := Function.update s.ports p q }, [])
    | .immediate | .refused => some (s, [])
  | s, .terminate p =>
    some ({ s with ports := Function.update s.ports p (s.ports p).terminate }, [])
  | s, .stop p => some ({ s with ports := Function.update s.ports p (s.ports p).stop }, [])
  | s, .setProcessQueue p => some ({ s with current := p }, [])
  | s, .runtime up => some ({ s with up := up }, [])

/-! ## Where the copies of a handler are -/

/-- An event of this registration may still come to its callback: a thread is about to post it, or it
is queued where callbacks are not canceled, or a thread took it. -/
def Pending (s : Notices) (number : ℕ) : Prop :=
  (∃ l ∈ s.posting, ∃ n ∈ l, n.handler.number = number) ∨
    (∃ p, (s.ports p).canceled = false ∧
      ∃ n, some n ∈ (s.ports p).callbacks ∧ n.handler.number = number) ∨
    ∃ n ∈ s.taken, n.handler.number = number

/-- A handler is unregistered only when none of its events is pending. -/
def Settled (s : Notices) : NoticeAct → Prop
  | .unregister k token => ∀ h, (s.tables k).find token = some h → ¬ s.Pending h.number
  | _ => True

/-- The handler is in no table, and none of its events is pending. -/
def Gone (s : Notices) (number : ℕ) : Prop :=
  number < s.registered ∧ (∀ k i h, (s.tables k).slots i = some h → h.number ≠ number) ∧
    ¬ s.Pending number

structure Numbered (s : Notices) : Prop where
  lt : ∀ k i h, (s.tables k).slots i = some h → h.number < s.registered
  unique : ∀ k i h k' i' h', (s.tables k).slots i = some h → (s.tables k').slots i' = some h' →
    h.number = h'.number → k = k' ∧ i = i'

/-- No callback is called after its handler was unregistered. -/
def Quiet (tr : List NoticeEvent) : Prop :=
  ∀ a number b, tr = a ++ .unregistered number :: b → ∀ n, .called n ∈ b → n.handler.number ≠ number

theorem Numbered.start (ports : ℕ → TaskPort PortWork) (current : ℕ) (up : Bool) :
    Numbered (start ports current up) where
  lt := fun _ _ _ h => by cases h
  unique := fun _ _ _ _ _ _ h => by cases h

/-! ## What a step does -/

theorem pending_update {s : Notices} {p : ℕ} {q : TaskPort PortWork} {number : ℕ}
    (h : Pending { s with ports := Function.update s.ports p q } number) :
    s.Pending number ∨ q.canceled = false ∧ ∃ n, some n ∈ q.callbacks ∧ n.handler.number = number := by
  rcases h with h | ⟨p', hlive, n, hn, hnumber⟩ | h
  · exact .inl (.inl h)
  · simp only [Function.update_apply] at hlive hn
    split_ifs at hlive hn with hp
    · exact .inr ⟨hlive, n, hn, hnumber⟩
    · exact .inl (.inr (.inl ⟨p', hlive, n, hn, hnumber⟩))
  · exact .inl (.inr (.inr h))

theorem pending_of_update {s : Notices} {p : ℕ} {q : TaskPort PortWork} {number : ℕ}
    (canceled : (s.ports p).canceled = true → q.canceled = true)
    (callbacks : ∀ n, some n ∈ q.callbacks → some n ∈ (s.ports p).callbacks)
    (h : Pending { s with ports := Function.update s.ports p q } number) : s.Pending number := by
  rcases pending_update h with h | ⟨hlive, n, hn, hnumber⟩
  · exact h
  · refine .inr (.inl ⟨p, ?_, n, callbacks n hn, hnumber⟩)
    by_contra hcanceled
    rw [canceled (by simpa using hcanceled)] at hlive
    cases hlive

/-- Posting an event makes nothing else pending. -/
theorem pending_post {s : Notices} {now : ℕ} {alloc : Bool} {n : Notice} {number : ℕ}
    (h : (s.post now alloc n).Pending number) : s.Pending number ∨ n.handler.number = number := by
  unfold post at h
  split_ifs at h
  · exact .inl h
  · split at h
    · rename_i p hp
      have hspec := TaskPort.submit_accepted hp
      rcases pending_update h with h | ⟨hlive, n', hn', hnumber⟩
      · exact .inl h
      · rw [hspec.1] at hn'
        rcases List.mem_append.mp hn' with hn' | hn'
        · exact .inl (.inr (.inl ⟨_, hspec.2.2.2.1 ▸ hlive, n', hn', hnumber⟩))
        · rw [List.mem_singleton, Option.some.injEq] at hn'
          exact .inr (hn' ▸ hnumber)
    · rcases h with h | h | ⟨n', hn', hnumber⟩
      · exact .inl (.inl h)
      · exact .inl (.inr (.inl h))
      · rcases List.mem_append.mp hn' with hn' | hn'
        · exact .inl (.inr (.inr ⟨n', hn', hnumber⟩))
        · exact .inr (List.mem_singleton.mp hn' ▸ hnumber)
    · exact .inl h

/-- Taking a callback makes nothing pending that was not. -/
theorem pending_dispatch {s t : Notices} {p now number : ℕ} (hd : s.dispatch p now = some t)
    (h : t.Pending number) : s.Pending number := by
  unfold dispatch at hd
  split at hd
  · cases hd
  · rename_i x htake
    obtain ⟨hperm, hflag, -, -, hcanceled, -⟩ := TaskPort.take_spec htake
    have hport : ∀ {number}, Pending { s with ports := Function.update s.ports p x.port } number →
        s.Pending number := pending_of_update (fun hc => hcanceled.trans hc) fun n hn =>
      hperm.mem_iff.mpr (List.mem_cons_of_mem _ hn)
    split at hd
    · obtain rfl := Option.some.inj hd
      exact hport h
    · rename_i n hitem
      split_ifs at hd with hc
      · obtain rfl := Option.some.inj hd
        exact hport h
      · obtain rfl := Option.some.inj hd
        rcases h with h | h | ⟨n', hn', hnumber⟩
        · exact .inl h
        · exact hport (.inr (.inl h))
        · rcases List.mem_append.mp hn' with hn' | hn'
          · exact .inr (.inr ⟨n', hn', hnumber⟩)
          · obtain rfl := List.mem_singleton.mp hn'
            refine .inr (.inl ⟨p, ?_, n', hperm.mem_iff.mpr (hitem ▸ List.mem_cons_self), hnumber⟩)
            rw [← hflag]
            simpa using hc

/-- What a registration does: nothing, or a handler with a new number is in a slot that was not used,
and maybe its first notification is to be posted. -/
theorem register_cases (s : Notices) (k : NoticeKind) (context : ℕ) (callback : Option ℕ)
    (out alloc : Bool) : (s.register k context callback out alloc).1 = s ∨
      ∃ h t i posting, h.number = s.registered ∧ (s.tables k).slots i = none ∧
        t.slots = Function.update (s.tables k).slots i (some h) ∧
        (posting = s.posting ∨ posting = s.posting ++ [[⟨h, none⟩]]) ∧
        (s.register k context callback out alloc).1 =
          { s with
            tables := Function.update s.tables k t
            registered := s.registered + 1
            posting := posting } := by
  unfold register
  cases callback with
  | none => exact .inl rfl
  | some f =>
    simp only
    cases hadd : (s.tables k).add ⟨context, f, s.registered⟩ with
    | none => exact .inl rfl
    | some added =>
      obtain ⟨token, t⟩ := added
      obtain ⟨i, hfree, -, hslots⟩ := HandlerTable.add_eq_some hadd
      let posted := s.posting ++ [[⟨⟨context, f, s.registered⟩, none⟩]]
      refine .inr ⟨_, t, i, if out = true ∧ k = .connectivity ∧ alloc = true then posted else s.posting,
        rfl, hfree, hslots, ?_, ?_⟩
      · split_ifs
        · exact .inr rfl
        · exact .inl rfl
      · cases out <;> cases k <;> cases alloc <;> rfl

/-- The events of a registration tell of itself only. -/
theorem register_events (s : Notices) (k : NoticeKind) (context : ℕ) (callback : Option ℕ)
    (out alloc : Bool) {e : NoticeEvent} (h : e ∈ (s.register k context callback out alloc).2) :
    (∃ number token, e = .registered number token) ∨ ∃ hr, e = .failed hr := by
  unfold register at h
  cases callback with
  | none => exact .inr ⟨_, List.mem_singleton.mp h⟩
  | some f =>
    simp only at h
    cases hadd : (s.tables k).add ⟨context, f, s.registered⟩ with
    | none =>
      rw [hadd] at h
      exact .inr ⟨_, List.mem_singleton.mp h⟩
    | some added =>
      rw [hadd] at h
      cases out
      · exact .inr ⟨_, List.mem_singleton.mp h⟩
      · cases k
        · exact .inl ⟨_, _, List.mem_singleton.mp h⟩
        · cases alloc
          · exact .inr ⟨_, List.mem_singleton.mp h⟩
          · exact .inl ⟨_, _, List.mem_singleton.mp h⟩

theorem unregister_cases (s : Notices) (k : NoticeKind) (token : ℕ) :
    s.unregister k token = (s, [.unknown]) ∨
      ∃ h t i, (s.tables k).find token = some h ∧ (s.tables k).slots i = some h ∧
        t.slots = Function.update (s.tables k).slots i none ∧
        s.unregister k token =
          ({ s with tables := Function.update s.tables k t }, [.unregistered h.number]) := by
  unfold unregister
  cases hremove : (s.tables k).remove token with
  | none => exact .inl rfl
  | some t =>
    obtain ⟨i, h, -, hi, hfind, hslots⟩ := HandlerTable.remove_eq_some hremove
    rw [hfind]
    exact .inr ⟨h, t, i, rfl, hi, hslots, rfl⟩

/-- A handler in a table was there before, or was registered by this step in a slot of its own. -/
theorem slots_of_step {s t : Notices} {a : NoticeAct} {ev : List NoticeEvent}
    (h : step s a = some (t, ev)) :
    s.registered ≤ t.registered ∧ ∃ k₀ i₀, ∀ k i h, (t.tables k).slots i = some h →
      (s.tables k).slots i = some h ∨
        h.number = s.registered ∧ s.registered < t.registered ∧ k = k₀ ∧ i = i₀ := by
  have hsame : ∀ u : Notices, u.tables = s.tables → u.registered = s.registered →
      s.registered ≤ u.registered ∧ ∃ k₀ i₀, ∀ k i h, (u.tables k).slots i = some h →
        (s.tables k).slots i = some h ∨
          h.number = s.registered ∧ s.registered < u.registered ∧ k = k₀ ∧ i = i₀ := by
    intro u htables hregistered
    exact ⟨hregistered.ge, .invite, 0, fun k i h hi => .inl (by rwa [← htables])⟩
  cases a with
  | register k context callback out alloc =>
    obtain rfl : (s.register k context callback out alloc).1 = t :=
      congrArg Prod.fst (Option.some.inj h)
    rcases s.register_cases k context callback out alloc with
      heq | ⟨h₀, u, i₀, _, hnumber, -, hslots, -, heq⟩
    · rw [heq]
      exact hsame s rfl rfl
    · rw [heq]
      refine ⟨Nat.le_succ _, k, i₀, fun k' i h hi => ?_⟩
      simp only [Function.update_apply] at hi
      split_ifs at hi with hk
      · rw [hslots, Function.update_apply] at hi
        split_ifs at hi with hi₀
        · exact .inr ⟨Option.some.inj hi ▸ hnumber, Nat.lt_succ_self _, hk, hi₀⟩
        · exact .inl (hk ▸ hi)
      · exact .inl hi
  | unregister k token =>
    obtain rfl : (s.unregister k token).1 = t := congrArg Prod.fst (Option.some.inj h)
    rcases s.unregister_cases k token with heq | ⟨h₀, u, i₀, -, -, hslots, heq⟩
    · rw [heq]
      exact hsame s rfl rfl
    · rw [heq]
      refine ⟨le_rfl, k, i₀, fun k' i h hi => .inl ?_⟩
      simp only [Function.update_apply] at hi
      split_ifs at hi with hk
      · rw [hslots, Function.update_apply] at hi
        split_ifs at hi
        exact hk ▸ hi
      · exact hi
  | arrive c =>
    obtain ⟨rfl, -⟩ := Prod.mk.inj (Option.some.inj h)
    refine hsame _ ?_ ?_ <;> (unfold deliverInvite; split_ifs <;> rfl)
  | post i now alloc =>
    simp only [step] at h
    split at h
    · obtain ⟨rfl, -⟩ := Prod.mk.inj (Option.some.inj h)
      refine hsame _ ?_ ?_ <;> (unfold post; split_ifs <;> [rfl; (split <;> rfl)])
    · cases h
  | dispatch p now =>
    obtain ⟨u, hd, heq⟩ := Option.map_eq_some_iff.mp h
    obtain ⟨rfl, -⟩ := Prod.mk.inj heq
    unfold dispatch at hd
    split at hd
    · cases hd
    · split at hd
      · obtain rfl := Option.some.inj hd
        exact hsame _ rfl rfl
      · split_ifs at hd <;> obtain rfl := Option.some.inj hd <;> exact hsame _ rfl rfl
  | deliver i =>
    simp only [step] at h
    split at h
    · obtain ⟨rfl, -⟩ := Prod.mk.inj (Option.some.inj h)
      exact hsame _ rfl rfl
    · cases h
  | submit p now delay =>
    simp only [step] at h
    split at h <;> obtain ⟨rfl, -⟩ := Prod.mk.inj (Option.some.inj h) <;> exact hsame _ rfl rfl
  | terminate | stop | setProcessQueue | runtime =>
    obtain ⟨rfl, -⟩ := Prod.mk.inj (Option.some.inj h)
    exact hsame _ rfl rfl

/-- What is pending after a step was pending before, or is of a handler in a table, or of the one
that the step registered. -/
theorem pending_of_step {s t : Notices} {a : NoticeAct} {ev : List NoticeEvent} {number : ℕ}
    (h : step s a = some (t, ev)) (hp : t.Pending number) : s.Pending number ∨
      (∃ k i h, (s.tables k).slots i = some h ∧ h.number = number) ∨ number = s.registered := by
  cases a with
  | register k context callback out alloc =>
    obtain rfl : (s.register k context callback out alloc).1 = t :=
      congrArg Prod.fst (Option.some.inj h)
    rcases s.register_cases k context callback out alloc with
      heq | ⟨h₀, u, _, posting, hnumber, -, -, hpost, heq⟩
    · rw [heq] at hp
      exact .inl hp
    · rw [heq] at hp
      rcases hp with ⟨l, hl, n, hn, hn'⟩ | hp | hp
      · rcases hpost with rfl | rfl
        · exact .inl (.inl ⟨l, hl, n, hn, hn'⟩)
        · rcases List.mem_append.mp hl with hl | hl
          · exact .inl (.inl ⟨l, hl, n, hn, hn'⟩)
          · obtain rfl := List.mem_singleton.mp hl
            obtain rfl := List.mem_singleton.mp hn
            exact .inr (.inr (hn'.symm.trans hnumber))
      · exact .inl (.inr (.inl hp))
      · exact .inl (.inr (.inr hp))
  | unregister k token =>
    obtain rfl : (s.unregister k token).1 = t := congrArg Prod.fst (Option.some.inj h)
    rcases s.unregister_cases k token with heq | ⟨_, _, _, -, -, -, heq⟩
    · rw [heq] at hp
      exact .inl hp
    · rw [heq] at hp
      exact .inl hp
  | arrive c =>
    obtain ⟨rfl, -⟩ := Prod.mk.inj (Option.some.inj h)
    unfold deliverInvite at hp
    split_ifs at hp
    · rcases hp with ⟨l, hl, n, hn, hn'⟩ | hp | hp
      · rcases List.mem_append.mp hl with hl | hl
        · exact .inl (.inl ⟨l, hl, n, hn, hn'⟩)
        · obtain rfl := List.mem_singleton.mp hl
          obtain ⟨h₀, hh₀, rfl⟩ := List.mem_map.mp hn
          obtain ⟨i, hi⟩ := HandlerTable.mem_live.mp hh₀
          exact .inr (.inl ⟨.invite, i, h₀, hi, hn'⟩)
      · exact .inl (.inr (.inl hp))
      · exact .inl (.inr (.inr hp))
    · exact .inl hp
  | post i now alloc =>
    simp only [step] at h
    split at h
    · rename_i n rest hi
      obtain ⟨rfl, -⟩ := Prod.mk.inj (Option.some.inj h)
      have hmem := List.mem_of_getElem? hi
      left
      rcases pending_post hp with (⟨l, hl, n', hn', hnumber⟩ | hp) | hnumber
      · rcases List.mem_or_eq_of_mem_set hl with hl | rfl
        · exact .inl ⟨l, hl, n', hn', hnumber⟩
        · exact .inl ⟨_, hmem, n', List.mem_cons_of_mem _ hn', hnumber⟩
      · exact .inr hp
      · exact .inl ⟨_, hmem, n, List.mem_cons_self, hnumber⟩
    · cases h
  | dispatch p now =>
    obtain ⟨u, hd, heq⟩ := Option.map_eq_some_iff.mp h
    obtain ⟨rfl, -⟩ := Prod.mk.inj heq
    exact .inl (pending_dispatch hd hp)
  | deliver i =>
    simp only [step] at h
    split at h
    · obtain ⟨rfl, -⟩ := Prod.mk.inj (Option.some.inj h)
      rcases hp with hp | hp | ⟨n, hn, hn'⟩
      · exact .inl (.inl hp)
      · exact .inl (.inr (.inl hp))
      · exact .inl (.inr (.inr ⟨n, List.mem_of_mem_eraseIdx hn, hn'⟩))
    · cases h
  | submit p now delay =>
    simp only [step] at h
    left
    split at h <;> obtain ⟨rfl, -⟩ := Prod.mk.inj (Option.some.inj h)
    · rename_i q hq
      have hspec := TaskPort.submit_accepted hq
      refine pending_of_update (fun hc => hspec.2.2.2.1.trans hc) (fun n hn => ?_) hp
      rw [hspec.1] at hn
      simpa using hn
    · exact hp
    · exact hp
  | terminate p =>
    obtain ⟨rfl, -⟩ := Prod.mk.inj (Option.some.inj h)
    refine .inl (pending_of_update (q := (s.ports p).terminate) (fun hc => ?_) (fun n hn => hn) hp)
    simp [TaskPort.terminate, hc]
  | stop p =>
    obtain ⟨rfl, -⟩ := Prod.mk.inj (Option.some.inj h)
    exact .inl (pending_of_update (q := (s.ports p).stop) (fun _ => rfl) (fun n hn => hn) hp)
  | setProcessQueue p =>
    obtain ⟨rfl, -⟩ := Prod.mk.inj (Option.some.inj h)
    exact .inl hp
  | runtime up =>
    obtain ⟨rfl, -⟩ := Prod.mk.inj (Option.some.inj h)
    exact .inl hp

/-- A callback is called for an event that a thread took. -/
theorem called_of_step {s t : Notices} {a : NoticeAct} {ev : List NoticeEvent} {n : Notice}
    (h : step s a = some (t, ev)) (hn : .called n ∈ ev) :
    s.Pending n.handler.number ∧ ev = [.called n] := by
  cases a with
  | register k context callback out alloc =>
    obtain rfl : (s.register k context callback out alloc).2 = ev :=
      congrArg Prod.snd (Option.some.inj h)
    rcases s.register_events k context callback out alloc hn with ⟨_, _, heq⟩ | ⟨_, heq⟩ <;> cases heq
  | unregister k token =>
    obtain rfl : (s.unregister k token).2 = ev := congrArg Prod.snd (Option.some.inj h)
    rcases s.unregister_cases k token with heq | ⟨_, _, _, -, -, -, heq⟩ <;> rw [heq] at hn <;>
      simp at hn
  | post i now alloc =>
    simp only [step] at h
    split at h
    · obtain ⟨-, rfl⟩ := Prod.mk.inj (Option.some.inj h)
      cases hn
    · cases h
  | dispatch p now =>
    obtain ⟨_, -, heq⟩ := Option.map_eq_some_iff.mp h
    obtain ⟨-, rfl⟩ := Prod.mk.inj heq
    cases hn
  | deliver i =>
    simp only [step] at h
    split at h
    · rename_i n' hi
      obtain ⟨-, rfl⟩ := Prod.mk.inj (Option.some.inj h)
      obtain rfl : n = n' := by simpa using hn
      exact ⟨.inr (.inr ⟨n, List.mem_of_getElem? hi, rfl⟩), rfl⟩
    · cases h
  | submit p now delay =>
    simp only [step] at h
    split at h <;> obtain ⟨-, rfl⟩ := Prod.mk.inj (Option.some.inj h) <;> cases hn
  | arrive | terminate | stop | setProcessQueue | runtime =>
    obtain ⟨-, rfl⟩ := Prod.mk.inj (Option.some.inj h)
    cases hn

/-! ## Runs -/

theorem Numbered.step {s t : Notices} {a : NoticeAct} {ev : List NoticeEvent}
    (numbered : Numbered s) (h : step s a = some (t, ev)) : Numbered t := by
  obtain ⟨hle, k₀, i₀, hslots⟩ := slots_of_step h
  constructor
  · intro k i h hi
    rcases hslots k i h hi with hi | ⟨hnumber, hlt, -⟩
    · exact (numbered.lt k i h hi).trans_le hle
    · rwa [hnumber]
  · intro k i h k' i' h' hi hi' hnumber
    rcases hslots k i h hi with hi | ⟨hnew, -, rfl, rfl⟩ <;>
      rcases hslots k' i' h' hi' with hi' | ⟨hnew', -, rfl, rfl⟩
    · exact numbered.unique k i h k' i' h' hi hi' hnumber
    · have := numbered.lt k i h hi
      omega
    · have := numbered.lt k' i' h' hi'
      omega
    · exact ⟨rfl, rfl⟩

theorem Gone.step {s t : Notices} {a : NoticeAct} {ev : List NoticeEvent} {number : ℕ}
    (gone : Gone s number) (h : step s a = some (t, ev)) : Gone t number := by
  obtain ⟨hlt, hslots, hpending⟩ := gone
  obtain ⟨hle, k₀, i₀, hsame⟩ := slots_of_step h
  refine ⟨hlt.trans_le hle, fun k i h hi => ?_, fun hp => ?_⟩
  · rcases hsame k i h hi with hi | ⟨hnew, -⟩
    · exact hslots k i h hi
    · omega
  · rcases pending_of_step h hp with hp | ⟨k, i, h, hi, hnumber⟩ | hnew
    · exact hpending hp
    · exact hslots k i h hi hnumber
    · omega

/-- A handler that is unregistered when none of its events is pending is gone. -/
theorem gone_of_unregistered {s t : Notices} {a : NoticeAct} {ev : List NoticeEvent} {number : ℕ}
    (numbered : Numbered s) (settled : Settled s a) (h : step s a = some (t, ev))
    (hev : .unregistered number ∈ ev) : Gone t number := by
  cases a with
  | unregister k token =>
    have hs : s.unregister k token = (t, ev) := Option.some.inj h
    rcases s.unregister_cases k token with heq | ⟨h₀, u, i, hfind, hi, hslots, heq⟩
    · rw [heq] at hs
      obtain ⟨-, rfl⟩ := Prod.mk.inj hs
      simp at hev
    · rw [heq] at hs
      obtain ⟨rfl, rfl⟩ := Prod.mk.inj hs
      obtain rfl : number = h₀.number := by simpa using hev
      refine ⟨numbered.lt k i h₀ hi, fun k' i' h' hi' hnumber => ?_, settled h₀ hfind⟩
      simp only [Function.update_apply] at hi'
      split_ifs at hi' with hk
      · rw [hslots, Function.update_apply] at hi'
        split_ifs at hi' with hii
        exact hii (numbered.unique k i' h' k i h₀ (hk ▸ hi') hi hnumber).2
      · exact hk (numbered.unique k' i' h' k i h₀ hi' hi hnumber).1
  | register k context callback out alloc =>
    obtain rfl : (s.register k context callback out alloc).2 = ev :=
      congrArg Prod.snd (Option.some.inj h)
    rcases s.register_events k context callback out alloc hev with ⟨_, _, heq⟩ | ⟨_, heq⟩ <;> cases heq
  | post i now alloc =>
    simp only [Notices.step] at h
    split at h
    · obtain ⟨-, rfl⟩ := Prod.mk.inj (Option.some.inj h)
      cases hev
    · cases h
  | dispatch p now =>
    obtain ⟨_, -, heq⟩ := Option.map_eq_some_iff.mp h
    obtain ⟨-, rfl⟩ := Prod.mk.inj heq
    cases hev
  | deliver i =>
    simp only [Notices.step] at h
    split at h
    · obtain ⟨-, rfl⟩ := Prod.mk.inj (Option.some.inj h)
      simp at hev
    · cases h
  | submit p now delay =>
    simp only [Notices.step] at h
    split at h <;> obtain ⟨-, rfl⟩ := Prod.mk.inj (Option.some.inj h) <;> cases hev
  | arrive | terminate | stop | setProcessQueue | runtime =>
    obtain ⟨-, rfl⟩ := Prod.mk.inj (Option.some.inj h)
    cases hev

theorem Quiet.append {tr ev : List NoticeEvent} (quiet : Quiet tr)
    (new : ∀ n, .called n ∈ ev → ev = [.called n] ∧
      ∀ number, .unregistered number ∈ tr → n.handler.number ≠ number) : Quiet (tr ++ ev) := by
  intro a number b htrace n hn
  rcases List.append_eq_append_iff.mp htrace with ⟨c, rfl, hev⟩ | ⟨c, rfl, hb⟩
  · -- the unregistration is an event of the step, which calls no callback
    have hcalled : .called n ∈ ev := by
      rw [hev]
      exact List.mem_append_right _ (List.mem_cons_of_mem _ hn)
    have hmem : .unregistered number ∈ ev := by
      rw [hev]
      simp
    rw [(new n hcalled).1] at hmem
    simp at hmem
  · cases c with
    | nil =>
      have hcalled : .called n ∈ ev := by
        rw [← List.nil_append ev, ← hb]
        exact List.mem_cons_of_mem _ hn
      have hmem : .unregistered number ∈ ev := by
        rw [← List.nil_append ev, ← hb]
        exact List.mem_cons_self
      rw [(new n hcalled).1] at hmem
      simp at hmem
    | cons e c =>
      obtain ⟨rfl, rfl⟩ := List.cons.inj hb
      rcases List.mem_append.mp hn with hn | hn
      · exact quiet a number c rfl n hn
      · exact (new n hn).2 number (by simp)

/-- In every run in which handlers are unregistered only when none of their events is pending, no
callback is called after its handler was unregistered. -/
theorem quiet_after_unregister {ports : ℕ → TaskPort PortWork} {current : ℕ} {up : Bool}
    {tr : List NoticeEvent} {s : Notices}
    (run : Reaches Notices.step Settled (Notices.start ports current up) tr s) : Quiet tr := by
  refine (run.invariant (P := fun tr s => Numbered s ∧ (∀ number, .unregistered number ∈ tr →
    Gone s number) ∧ Quiet tr) ⟨Numbered.start _ _ _, by simp, ?_⟩ ?_).2.2
  · intro a number b htrace
    simp at htrace
  · rintro tr s a t ev ⟨numbered, gone, quiet⟩ settled h
    refine ⟨numbered.step h, fun number hn => ?_, quiet.append fun n hn => ?_⟩
    · rcases List.mem_append.mp hn with hn | hn
      · exact (gone number hn).step h
      · exact gone_of_unregistered numbered settled h hn
    · obtain ⟨hpending, heq⟩ := called_of_step h hn
      refine ⟨heq, fun number hnumber hsame => ?_⟩
      exact (gone number hnumber).2.2 (hsame ▸ hpending)

/-- A handler is unregistered while its event is queued. -/
def unregisteredLate : List NoticeAct :=
  [.register .invite 1 (some 2) true true, .arrive "hello".toList, .post 0 0 true,
    .unregister .invite 1, .dispatch 0 0, .deliver 0]

theorem unregisteredLate_trace :
    (execute step (start (fun _ => .fresh) 0 true) unregisteredLate).map Prod.snd =
      some [.registered 0 1, .unregistered 0, .called ⟨⟨1, 2, 0⟩, some "hello".toList⟩] := by
  decide

theorem quiet_after_unregister_fails :
    ¬ ∀ (ports : ℕ → TaskPort PortWork) (current : ℕ) (up : Bool) (tr : List NoticeEvent)
        (s : Notices), Reaches step always (start ports current up) tr s → Quiet tr := by
  intro h
  obtain ⟨⟨s, tr⟩, hrun, rfl⟩ := Option.map_eq_some_iff.mp unregisteredLate_trace
  exact h _ _ _ _ s (reaches_of_run hrun) [.registered 0 1] 0 _ rfl _ List.mem_cons_self rfl

/-- A handler that is unregistered before anything arrives is not called. -/
theorem quiet_after_unregister_early : ∃ (tr : List NoticeEvent) (s : Notices),
    Reaches step Settled (start (fun _ => .fresh) 0 true) tr s ∧ .unregistered 0 ∈ tr ∧ Quiet tr := by
  have hsettled :
      Settled (((start (fun _ => .fresh) 0 true).register .invite 1 (some 2) true true).1)
        (.unregister .invite 1) := by
    rintro h - (⟨l, hl, -⟩ | ⟨p, -, n, hn, -⟩ | ⟨n, hn, -⟩)
    · cases hl
    · cases hn
    · cases hn
  have hregister : step (start (fun _ => .fresh) 0 true) (.register .invite 1 (some 2) true true) =
      some (((start (fun _ => .fresh) 0 true).register .invite 1 (some 2) true true).1,
        [.registered 0 1]) := rfl
  have run := Reaches.next (Reaches.next .start trivial hregister) hsettled rfl
  exact ⟨_, _, run, by decide, quiet_after_unregister run⟩

end Notices

end IW4x.Gdk
