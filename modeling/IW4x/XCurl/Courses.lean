import IW4x.XCurl.Watch
import IW4x.XCurl.Heard
import Mathlib.Algebra.Order.BigOperators.Group.Finset

/-!
# The course of a transfer

A transfer that was added and whose completion was not read is pending. Where no pending transfer is
added again, removed or cleaned up, and no multi handle is cleaned up while a transfer is pending
there, each pending transfer is in one place, and what was counted of a run says in which: a transfer
that the client answers itself is delivered once, then queued once, then read once.
-/

namespace IW4x.XCurl

open Runs Handles

/-! ## Runs that wait for the completions -/

/-- The handles, and of each transfer the multi handle to which it was added and whether the client
answers it, as long as it is pending. -/
structure Watched where
  handles : Handles
  pending : Slot → Option (MultiSlot × Bool)

def note (pending : Slot → Option (MultiSlot × Bool)) : Event → Slot → Option (MultiSlot × Bool)
  | .added m h .ok here => Function.update pending h (some (m, here))
  | .read _ (some ⟨.transfer h, _⟩) _ => Function.update pending h none
  | _ => pending

def watch : Step Watched Entry Event := fun w i =>
  (step w.handles i).map fun next => (⟨next.1, next.2.foldl note w.pending⟩, next.2)

/-- Before the first call. -/
def watchStart : Watched := ⟨start, fun _ => none⟩

/-- A transfer is not added again, removed or cleaned up until its completion was read, and a multi
handle is not cleaned up while a transfer that was added to it is pending. -/
def polite (w : Watched) : Entry → Prop
  | .multiAddHandle _ (some h) _ => w.pending h = none
  | .multiRemoveHandle _ (some h) => w.pending h = none
  | .easyCleanup (some h) => w.pending h = none
  | .multiCleanup (some m) => ∀ h here, w.pending h ≠ some (m, here)
  | _ => True

instance (w : Watched) : ∀ i : Entry, Decidable (polite w i)
  | .multiAddHandle _ (some h) _ => inferInstanceAs (Decidable (w.pending h = none))
  | .multiRemoveHandle _ (some h) => inferInstanceAs (Decidable (w.pending h = none))
  | .easyCleanup (some h) => inferInstanceAs (Decidable (w.pending h = none))
  | .multiCleanup (some m) => inferInstanceAs (Decidable (∀ h here, w.pending h ≠ some (m, here)))
  | .easyInit _ | .easySetopt _ _ | .easyCleanup none | .multiInit _ | .multiAddHandle _ none _
  | .multiRemoveHandle _ none | .multiPerform _ _ _ | .multiInfoRead _ | .multiCleanup none
  | .servePlatformAt _ => isTrue trivial

variable {w w' : Watched} {s : Handles} {i : Entry} {ev tr : List Event} {m : MultiSlot} {h : Slot}

theorem watch_some (hwatch : watch w i = some (w', ev)) :
    step w.handles i = some (w'.handles, ev) ∧ w'.pending = ev.foldl note w.pending := by
  obtain ⟨⟨s, ev'⟩, hstep, heq⟩ := Option.map_eq_some_iff.mp hwatch
  obtain ⟨rfl, rfl⟩ := Prod.mk.inj heq
  exact ⟨hstep, rfl⟩

theorem unwatch {w₀ : Watched} (hrun : Reaches watch polite w₀ tr w) :
    Reaches step always w₀.handles tr w.handles := by
  induction hrun with
  | start => exact .start
  | next _ _ hwatch ih => exact .next ih trivial (watch_some hwatch).1

theorem foldl_note (hidle : ∀ e ∈ ev, e.idle = true) (pending : Slot → Option (MultiSlot × Bool)) :
    ev.foldl note pending = pending := by
  induction ev with
  | nil => rfl
  | cons e ev ih =>
    have hfirst : note pending e = pending := by
      have he := hidle e List.mem_cons_self
      unfold note
      split
      · cases he
      · cases he
      · rfl
    rw [List.foldl_cons, hfirst]
    exact ih fun e he => hidle e (List.mem_cons_of_mem _ he)

/-! ## Each pending transfer is in one place -/

/-- A pending transfer that the client answers is in the array or the ring of its multi handle, any
other with libcurl, and neither handle was taken back. -/
structure Kept (w : Watched) : Prop where
  pooled : w.handles.Pooled
  answered : ∀ m h, w.handles.inLocals m h + w.handles.inRing m h =
    if w.pending h = some (m, true) then 1 else 0
  network : ∀ m h, w.handles.inHand m h + w.handles.inMsglist m h =
    if w.pending h = some (m, false) then 1 else 0
  live : ∀ m h here, w.pending h = some (m, here) →
    (w.handles.transfers h).ours = true ∧ (w.handles.multis m).ours = true
  named : ∀ m, ∀ msg ∈ (w.handles.multis m).messages.contents, ∃ h, msg.easyHandle = .transfer h

theorem Kept.absent (kept : Kept w) (hnone : ∀ here, w.pending h ≠ some (m, here)) :
    w.handles.Absent m h := by
  have hanswered := kept.answered m h
  have hnetwork := kept.network m h
  rw [if_neg (hnone true)] at hanswered
  rw [if_neg (hnone false)] at hnetwork
  obtain ⟨hlocals, hring⟩ := Nat.add_eq_zero_iff.mp hanswered
  obtain ⟨hhand, hlist⟩ := Nat.add_eq_zero_iff.mp hnetwork
  exact ⟨hlocals, hring, hhand, hlist⟩

theorem Kept.pending_of_present (kept : Kept w) (hpresent : ¬ w.handles.Absent m h) :
    ∃ here, w.pending h = some (m, here) := by
  by_contra hnone
  exact hpresent (kept.absent (by simpa using hnone))

theorem Kept.alone (kept : Kept w) (m m' : MultiSlot) (h : Slot)
    (hmem : h ∈ (w.handles.multis m).locals) :
    w.handles.inLocals m' h = if m' = m then 1 else 0 := by
  have hpos : 0 < w.handles.inLocals m h := List.count_pos_iff.mpr hmem
  have hthere := kept.answered m h
  have hother := kept.answered m' h
  split_ifs at hthere with hpending
  · rw [hpending] at hother
    by_cases hm : m' = m
    · subst hm
      rw [if_pos rfl] at hother ⊢
      omega
    · rw [if_neg (by simp [Ne.symm hm])] at hother
      rw [if_neg hm]
      omega
  · omega

theorem Kept.moved {s' : Handles} (kept : Kept w) (moved : Moved w.handles s' ev) (pooled : s'.Pooled)
    (hlive : ∀ m h here, w.pending h = some (m, here) →
      (s'.transfers h).ours = true ∧ (s'.multis m).ours = true)
    (hnamed : ∀ m, ∀ msg ∈ (s'.multis m).messages.contents, ∃ h, msg.easyHandle = .transfer h) :
    Kept ⟨s', ev.foldl note w.pending⟩ := by
  rw [foldl_note moved.idle]
  refine ⟨pooled, ?_, ?_, hlive, hnamed⟩
  · intro m h
    exact (moved.answered m h).trans (kept.answered m h)
  · intro m h
    exact (moved.network m h).trans (kept.network m h)

/-! ## What the counts say -/

/-- The transfer is pending at the multi handle. -/
def Watched.inFlight (w : Watched) (m : MultiSlot) (h : Slot) : ℕ :=
  if (w.pending h).map Prod.fst = some m then 1 else 0

/-- The events account for the transfers that came and went. -/
structure Tallied (w w' : Watched) (ev : List Event) : Prop where
  delivered : ∀ m h, ev.countP (Event.delivers m h) + w'.handles.waiting m h =
    w.handles.waiting m h + ev.countP (Event.addsAnswered m h)
  queued : ∀ m h, ev.countP (Event.queues m h) + w'.handles.inLocals m h =
    w.handles.inLocals m h + ev.countP (Event.addsAnswered m h)
  read : ∀ m h, ev.countP (Event.completes m h) + w'.inFlight m h =
    w.inFlight m h + ev.countP (Event.adds m h)

theorem Tallied.refl (w : Watched) : Tallied w w [] :=
  ⟨fun _ _ => Nat.add_comm .., fun _ _ => Nat.add_comm .., fun _ _ => Nat.add_comm ..⟩

theorem Tallied.trans {w'' : Watched} {ev' : List Event} (first : Tallied w w' ev)
    (last : Tallied w' w'' ev') : Tallied w w'' (ev ++ ev') where
  delivered m h := by
    have hfirst := first.delivered m h
    have hlast := last.delivered m h
    rw [List.countP_append, List.countP_append]
    omega
  queued m h := by
    have hfirst := first.queued m h
    have hlast := last.queued m h
    rw [List.countP_append, List.countP_append]
    omega
  read m h := by
    have hfirst := first.read m h
    have hlast := last.read m h
    rw [List.countP_append, List.countP_append]
    omega

theorem Tallied.of_moved {s' : Handles} (moved : Moved w.handles s' ev) :
    Tallied w ⟨s', ev.foldl note w.pending⟩ ev := by
  rw [foldl_note moved.idle]
  have hidle := countP_of_idle moved.idle
  refine ⟨?_, ?_, ?_⟩
  · intro m h
    rw [(hidle m h).2.1]
    exact moved.delivered m h
  · intro m h
    rw [(hidle m h).2.1]
    exact moved.queued m h
  · intro m h
    rw [(hidle m h).1, (hidle m h).2.2]
    exact Nat.add_comm ..

/-! ## The calls -/

theorem Kept.untouched (kept : Kept w) (hpolite : polite w i) (here : Bool)
    (hpending : w.pending h = some (m, here)) : ¬ touchedBy w.handles i m h := by
  obtain ⟨hours, hmine⟩ := kept.live m h here hpending
  intro htouched
  cases i with
  | easyInit accepts =>
    have hused := (kept.pooled.transfer h hours).1
    simp [hused, touchedBy] at htouched
  | multiInit accepts =>
    have hused := (kept.pooled.multi m hmine).1
    simp [hused, touchedBy] at htouched
  | multiRemoveHandle m' h' =>
    obtain ⟨rfl, rfl⟩ := htouched
    rw [hpolite] at hpending
    cases hpending
  | multiCleanup m' =>
    obtain rfl : m' = some m := htouched
    exact hpolite h here hpending
  | _ => exact htouched

theorem plain_idle (hplain : i.plain = true) {s' : Handles} (hstep : step s i = some (s', ev)) :
    ∀ e ∈ ev, e.idle = true ∧ ∀ m h, e.delivers m h = false ∧ e.queues m h = false := by
  intro e he
  have hcause := (step_causes hstep he).1
  cases e with
  | added =>
    obtain ⟨accepts, rfl, -⟩ := hcause
    cases hplain
  | read =>
    obtain ⟨rfl, -⟩ := hcause
    cases hplain
  | calledBack | delivered | queued =>
    obtain ⟨m', work, alive, rfl⟩ := hcause
    cases hplain
  | _ => exact ⟨rfl, fun _ _ => ⟨rfl, rfl⟩⟩

theorem Kept.plain (kept : Kept w) (hplain : i.plain = true) (hpolite : polite w i)
    (hwatch : watch w i = some (w', ev)) : Kept w' ∧ Tallied w w' ev := by
  obtain ⟨hstep, hpending'⟩ := watch_some hwatch
  obtain ⟨s', pending'⟩ := w'
  dsimp only at hstep hpending'
  subst hpending'
  obtain ⟨hfewer, -⟩ := plain_step hplain hstep
  have hsame : ∀ m h, s'.inLocals m h = w.handles.inLocals m h ∧
      s'.inRing m h = w.handles.inRing m h ∧ s'.inHand m h = w.handles.inHand m h ∧
      s'.inMsglist m h = w.handles.inMsglist m h := by
    intro m h
    by_cases hpresent : w.handles.Absent m h
    · have habsent := hfewer.absent hpresent
      exact ⟨habsent.locals.trans hpresent.locals.symm, habsent.ring.trans hpresent.ring.symm,
        habsent.hand.trans hpresent.hand.symm, habsent.msglist.trans hpresent.msglist.symm⟩
    · obtain ⟨here, hpending⟩ := kept.pending_of_present hpresent
      exact hfewer.same m h (kept.untouched hpolite here hpending)
  have hflags : ∀ m h here, w.pending h = some (m, here) →
      (s'.transfers h).ours = (w.handles.transfers h).ours ∧
        (s'.transfers h).here = (w.handles.transfers h).here ∧
        (s'.transfers h).delivered = (w.handles.transfers h).delivered := by
    intro m h here hpending
    rcases plain_flags hplain hstep h with (hunused | rfl) | hflags
    · have hours := (kept.live m h here hpending).1
      simp [kept.pooled.unused_transfer hunused] at hours
    · have hnone : w.pending h = none := hpolite
      rw [hnone] at hpending
      cases hpending
    · exact hflags
  have hmoved : Moved w.handles s' ev := by
    apply Moved.of_same
    · intro m h
      obtain ⟨hlocals, hring, hhand, hlist⟩ := hsame m h
      exact ⟨hlocals, hring, by rw [hhand, hlist]⟩
    · intro m h hin
      obtain ⟨here, hpending⟩ := kept.pending_of_present (m := m) (h := h) fun habsent => by
        have hnone := habsent.locals
        omega
      exact (hflags m h here hpending).2.2
    · exact plain_idle hplain hstep
  refine ⟨kept.moved hmoved (kept.pooled.step hstep) ?_ ?_, Tallied.of_moved hmoved⟩
  · intro m h here hpending
    obtain ⟨hours, hmine⟩ := kept.live m h here hpending
    refine ⟨(hflags m h here hpending).1.trans hours, ?_⟩
    apply (ours_step hstep hmine).resolve_right
    rintro rfl
    exact hpolite h here hpending
  · exact fun m msg hmem => kept.named m msg (plain_ring hplain hstep m hmem)

/-- Performing takes no handle back, and queues messages that name transfers. -/
theorem perform_named {s' : Handles} {work : List Work} {alive : ℕ}
    (hperform : s.perform m work alive = some (s', ev))
    (hnamed : ∀ m, ∀ msg ∈ (s.multis m).messages.contents, ∃ h, msg.easyHandle = .transfer h) :
    (∀ h, (s'.transfers h).ours = (s.transfers h).ours) ∧
      ∀ m, ∀ msg ∈ (s'.multis m).messages.contents, ∃ h, msg.easyHandle = .transfer h := by
  obtain ⟨s₁, ev₁, hcurl, hcase⟩ := perform_cases hperform
  have hkeeps : Keeps (fun _ => False) (fun _ => False) s s₁ := curlPerform_keeps hcurl
  have hnamed₁ : ∀ m, ∀ msg ∈ (s₁.multis m).messages.contents, ∃ h, msg.easyHandle = .transfer h :=
    fun m msg hmem => hnamed m msg (hkeeps.ring m hmem)
  rcases hcase with ⟨-, rfl, -⟩ | ⟨-, rfl, -⟩
  · exact ⟨fun h => (hkeeps.flags h).1, hnamed₁⟩
  · obtain ⟨taken, spec⟩ := answered_spec s₁ m
    constructor
    · intro h
      rw [← (hkeeps.flags h).1, spec.transfers]
      split_ifs <;> rfl
    · intro m' msg hmem
      by_cases hm : m' = m
      · subst hm
        rw [spec.ring] at hmem
        rcases List.mem_append.mp hmem with hmem | hmem
        · exact hnamed₁ m' msg hmem
        · obtain ⟨h, -, rfl⟩ := List.mem_map.mp hmem
          exact ⟨h, rfl⟩
      · rw [spec.others m' hm] at hmem
        exact hnamed₁ m' msg hmem

theorem Kept.perform (kept : Kept w) {s' : Handles} {work : List Work} {alive : ℕ}
    (hperform : w.handles.perform m work alive = some (s', ev)) :
    Kept ⟨s', ev.foldl note w.pending⟩ ∧ Tallied w ⟨s', ev.foldl note w.pending⟩ ev := by
  have hmoved := perform_moved hperform kept.alone
  obtain ⟨hours, hnamed⟩ := perform_named hperform kept.named
  refine ⟨kept.moved hmoved (kept.pooled.perform hperform) ?_ hnamed, Tallied.of_moved hmoved⟩
  intro m' h here hpending
  rw [hours, ours_perform hperform]
  exact kept.live m' h here hpending

theorem Kept.nowhere (kept : Kept w) (hpending : w.pending h = none) (m : MultiSlot) :
    w.handles.Absent m h := by
  apply kept.absent
  intro here
  rw [hpending]
  exact fun hsome => by cases hsome

theorem note_added (pending : Slot → Option (MultiSlot × Bool)) (m : MultiSlot) (h h' : Slot)
    (here : Bool) :
    note pending (.added m h .ok here) h' = if h' = h then some (m, here) else pending h' :=
  Function.update_apply ..

theorem note_read (pending : Slot → Option (MultiSlot × Bool)) (m : MultiSlot) (h h' : Slot)
    (result : CurlCode) (left : ℕ) :
    note pending (.read m (some ⟨.transfer h, result⟩) left) h' =
      if h' = h then none else pending h' :=
  Function.update_apply ..

/-- A transfer that was added is where it was added to. -/
theorem Kept.place (kept : Kept w) {here : Bool} (hpolite : w.pending h = none)
    (hpending : ∀ h', w'.pending h' = if h' = h then some (m, here) else w.pending h')
    (hpooled : w'.handles.Pooled)
    (hanswered : ∀ m' h', w'.handles.inLocals m' h' + w'.handles.inRing m' h' =
      w.handles.inLocals m' h' + w.handles.inRing m' h' +
        if m' = m ∧ h' = h ∧ here = true then 1 else 0)
    (hnetwork : ∀ m' h', w'.handles.inHand m' h' + w'.handles.inMsglist m' h' =
      w.handles.inHand m' h' + w.handles.inMsglist m' h' +
        if m' = m ∧ h' = h ∧ here = false then 1 else 0)
    (hours : ∀ h', (w'.handles.transfers h').ours = (w.handles.transfers h').ours)
    (hmine : ∀ m', (w'.handles.multis m').ours = (w.handles.multis m').ours)
    (hlive : (w.handles.transfers h).ours = true ∧ (w.handles.multis m).ours = true)
    (hring : ∀ m', (w'.handles.multis m').messages.contents =
      (w.handles.multis m').messages.contents) : Kept w' := by
  refine ⟨hpooled, ?_, ?_, ?_, ?_⟩
  · intro m' h'
    rw [hanswered, kept.answered, hpending]
    by_cases hh : h' = h
    · simp [hh, hpolite, eq_comm]
    · simp [hh]
  · intro m' h'
    rw [hnetwork, kept.network, hpending]
    by_cases hh : h' = h
    · simp [hh, hpolite, eq_comm]
    · simp [hh]
  · intro m' h' here' hsome
    rw [hpending] at hsome
    rw [hours, hmine]
    split_ifs at hsome with hh
    · obtain ⟨rfl, -⟩ := Prod.mk.inj (Option.some.inj hsome)
      rw [hh]
      exact hlive
    · exact kept.live m' h' here' hsome
  · intro m' msg hmem
    rw [hring] at hmem
    exact kept.named m' msg hmem

theorem Tallied.place {here : Bool} (hpolite : w.pending h = none)
    (hpending : ∀ h', w'.pending h' = if h' = h then some (m, here) else w.pending h')
    (hwaiting : ∀ m' h', w'.handles.waiting m' h' = w.handles.waiting m' h' +
      if m' = m ∧ h' = h ∧ here = true then 1 else 0)
    (hlocals : ∀ m' h', w'.handles.inLocals m' h' = w.handles.inLocals m' h' +
      if m' = m ∧ h' = h ∧ here = true then 1 else 0) :
    Tallied w w' [.added m h .ok here] := by
  have hadds : ∀ m' h', [Event.added m h .ok here].countP (Event.addsAnswered m' h') =
      if m' = m ∧ h' = h ∧ here = true then 1 else 0 := by
    intro m' h'
    cases here with
    | false => simp [Event.addsAnswered]
    | true =>
      by_cases hm : m' = m
      · by_cases hh : h' = h
        · simp [Event.addsAnswered, hm, hh]
        · simp [Event.addsAnswered, hm, hh, Ne.symm hh]
      · simp [Event.addsAnswered, hm, Ne.symm hm]
  refine ⟨?_, ?_, ?_⟩
  · intro m' h'
    rw [hwaiting, hadds]
    simp [Event.delivers]
  · intro m' h'
    rw [hlocals, hadds]
    simp [Event.queues]
  · intro m' h'
    unfold Watched.inFlight
    rw [hpending]
    by_cases hh : h' = h
    · subst hh
      simp [Event.completes, Event.adds, hpolite]
    · simp [Event.completes, Event.adds, hh, Ne.symm hh]

theorem Kept.add (kept : Kept w) {s' : Handles} {accepts : Bool} {code : MultiCode}
    (hpolite : w.pending h = none) (hours : (w.handles.transfers h).ours = true)
    (hmine : (w.handles.multis m).ours = true) (hadd : w.handles.add m h accepts = (code, s')) :
    Kept ⟨s', note w.pending (.added m h code (s'.transfers h).here)⟩ ∧
      Tallied w ⟨s', note w.pending (.added m h code (s'.transfers h).here)⟩
        [.added m h code (s'.transfers h).here] := by
  have hpooled := kept.pooled.add hadd
  have hnowhere := kept.nowhere hpolite
  obtain ⟨t, ht, hcase⟩ := add_cases w.handles m h accepts hadd
  obtain ⟨hsame, heasy, hdelivered, -⟩ :=
    Transfer.begin_same w.handles.installed accepts (w.handles.transfers h)
  rw [← ht] at hsame heasy hdelivered
  rcases hcase with ⟨hcode, rfl⟩ | ⟨rfl, hhere, -, -, hs'⟩ |
    ⟨rfl, hhere, -, n, hs', hlocals, hmessages, hhandle, -, hn⟩
  · -- Refused: only the transfer's own flags are written.
    have hidle : (Event.added m h code ((w.handles.setTransfer h t).transfers h).here).idle = true := by
      cases code with
      | ok => exact absurd rfl hcode
      | _ => rfl
    have hmoved : Moved w.handles (w.handles.setTransfer h t)
        [.added m h code ((w.handles.setTransfer h t).transfers h).here] := by
      have hfewer : Fewer (fun _ _ => False) w.handles (w.handles.setTransfer h t) :=
        setTransfer_fewer w.handles heasy
      apply Moved.of_same
      · intro m' h'
        obtain ⟨hl, hr, hh, hm⟩ := hfewer.same m' h' id
        exact ⟨hl, hr, by rw [hh, hm]⟩
      · intro m' h' hin
        rw [transfers_setTransfer, if_neg]
        rintro rfl
        have hnone := (hnowhere m').locals
        omega
      · intro e he
        rw [List.mem_singleton.mp he]
        exact ⟨hidle, fun _ _ => ⟨rfl, rfl⟩⟩
    have hnote := foldl_note hmoved.idle w.pending
    rw [List.foldl_cons, List.foldl_nil] at hnote
    have hkept := kept.moved hmoved hpooled (fun m' h' here hpending => ?_) kept.named
    · exact ⟨hkept, Tallied.of_moved hmoved⟩
    · obtain ⟨hlive, hlive'⟩ := kept.live m' h' here hpending
      refine ⟨?_, hlive'⟩
      rw [transfers_setTransfer]
      split_ifs with hh
      · exact hsame.trans hours
      · exact hlive
  · -- libcurl has it.
    have hcounts := attach_counts w.handles m h t hs'
    have hself : ∀ h', s'.transfers h' = if h' = h then
        { t with easy := some { multi := some m, alive := true } } else w.handles.transfers h' := by
      intro h'
      rw [hs', transfers_setEasy, transfers_setTransfer, if_pos rfl, transfers_setTransfer]
      split_ifs <;> rfl
    have hhere' : (s'.transfers h).here = false := by
      rw [hself, if_pos rfl]
      exact hhere
    have hkeeps : ∀ m', (s'.multis m') = w.handles.multis m' := by
      intro m'
      rw [hs']
      rfl
    rw [hhere']
    constructor
    · apply kept.place hpolite (note_added w.pending m h · false) hpooled
      · intro m' h'
        rw [(hcounts m' h').1, (hcounts m' h').2.1]
        simp
      · intro m' h'
        rw [(hcounts m' h').2.2.1, (hcounts m' h').2.2.2.1]
        by_cases hh : h' = h
        · subst hh
          rw [(hnowhere m').hand, (hnowhere m').msglist]
          simp
        · simp [hh]
      · intro h'
        rw [hself]
        split_ifs with hh
        · rw [hh]
          exact hsame
        · rfl
      · exact fun m' => by rw [hkeeps]
      · exact ⟨hours, hmine⟩
      · exact fun m' => by rw [hkeeps]
    · apply Tallied.place hpolite (note_added w.pending m h · false)
      · intro m' h'
        unfold waiting
        rw [(hcounts m' h').1, hself]
        by_cases hh : h' = h
        · subst hh
          simp [(hnowhere m').locals]
        · simp [hh]
      · intro m' h'
        rw [(hcounts m' h').1]
        simp
  · -- The array has it.
    have hcounts := push_counts w.handles hs' heasy hlocals hmessages hhandle
    have hself : ∀ h', s'.transfers h' = if h' = h then t else w.handles.transfers h' := by
      intro h'
      rw [hs', transfers_setMulti, transfers_setTransfer]
    have hhere' : (s'.transfers h).here = true := by
      rw [hself, if_pos rfl]
      exact hhere
    rw [hhere']
    constructor
    · apply kept.place hpolite (note_added w.pending m h · true) hpooled
      · intro m' h'
        rw [(hcounts m' h').1, (hcounts m' h').2.1]
        simp only [and_true]
        omega
      · intro m' h'
        rw [(hcounts m' h').2.2.1, (hcounts m' h').2.2.2.1]
        simp
      · intro h'
        rw [hself]
        split_ifs with hh
        · rw [hh]
          exact hsame
        · rfl
      · intro m'
        rw [hs']
        exact ours_setMulti hn m'
      · exact ⟨hours, hmine⟩
      · intro m'
        rw [hs', multis_setMulti]
        split_ifs with hm
        · rw [hmessages, hm]
        · rfl
    · apply Tallied.place hpolite (note_added w.pending m h · true)
      · intro m' h'
        unfold waiting
        rw [(hcounts m' h').1, hself]
        by_cases hh : h' = h
        · subst hh
          simp [(hnowhere m').locals, hdelivered]
        · simp [hh]
      · intro m' h'
        rw [(hcounts m' h').1]
        simp

/-- A transfer whose message was read is nowhere. -/
theorem Kept.take (kept : Kept w) {here : Bool} (hpend : w.pending h = some (m, here))
    (hpending : ∀ h', w'.pending h' = if h' = h then none else w.pending h')
    (hpooled : w'.handles.Pooled)
    (hanswered : ∀ m' h', (w'.handles.inLocals m' h' + w'.handles.inRing m' h') +
      (if m' = m ∧ h' = h ∧ here = true then 1 else 0) =
        w.handles.inLocals m' h' + w.handles.inRing m' h')
    (hnetwork : ∀ m' h', (w'.handles.inHand m' h' + w'.handles.inMsglist m' h') +
      (if m' = m ∧ h' = h ∧ here = false then 1 else 0) =
        w.handles.inHand m' h' + w.handles.inMsglist m' h')
    (hours : ∀ h', (w'.handles.transfers h').ours = (w.handles.transfers h').ours)
    (hmine : ∀ m', (w'.handles.multis m').ours = (w.handles.multis m').ours)
    (hring : ∀ m', (w'.handles.multis m').messages.contents ⊆
      (w.handles.multis m').messages.contents) : Kept w' := by
  refine ⟨hpooled, ?_, ?_, ?_, ?_⟩
  · intro m' h'
    have hsum := hanswered m' h'
    rw [kept.answered] at hsum
    rw [hpending]
    by_cases hh : h' = h
    · subst hh
      have hsame : (if some (m, here) = some (m', true) then 1 else 0) =
          if m' = m ∧ h' = h' ∧ here = true then 1 else 0 := by
        congr 1
        simp [eq_comm]
      rw [hpend, hsame] at hsum
      rw [if_pos rfl, if_neg (by simp)]
      omega
    · rw [if_neg fun hall => hh hall.2.1, Nat.add_zero] at hsum
      rw [if_neg hh]
      exact hsum
  · intro m' h'
    have hsum := hnetwork m' h'
    rw [kept.network] at hsum
    rw [hpending]
    by_cases hh : h' = h
    · subst hh
      have hsame : (if some (m, here) = some (m', false) then 1 else 0) =
          if m' = m ∧ h' = h' ∧ here = false then 1 else 0 := by
        congr 1
        simp [eq_comm]
      rw [hpend, hsame] at hsum
      rw [if_pos rfl, if_neg (by simp)]
      omega
    · rw [if_neg fun hall => hh hall.2.1, Nat.add_zero] at hsum
      rw [if_neg hh]
      exact hsum
  · intro m' h' here' hsome
    rw [hpending] at hsome
    rw [hours, hmine]
    split_ifs at hsome
    exact kept.live m' h' here' hsome
  · exact fun m' msg hmem => kept.named m' msg (hring m' hmem)

theorem Tallied.take {here : Bool} (hpend : w.pending h = some (m, here))
    (hpending : ∀ h', w'.pending h' = if h' = h then none else w.pending h')
    (hwaiting : ∀ m' h', w'.handles.waiting m' h' = w.handles.waiting m' h')
    (hlocals : ∀ m' h', w'.handles.inLocals m' h' = w.handles.inLocals m' h')
    (result : CurlCode) (left : ℕ) :
    Tallied w w' [.read m (some ⟨.transfer h, result⟩) left] := by
  refine ⟨?_, ?_, ?_⟩
  · intro m' h'
    rw [hwaiting]
    simp [Event.delivers, Event.addsAnswered]
  · intro m' h'
    rw [hlocals]
    simp [Event.queues, Event.addsAnswered]
  · intro m' h'
    unfold Watched.inFlight
    rw [hpending]
    by_cases hh : h' = h
    · subst hh
      simp [Event.completes, Event.adds, hpend]
    · simp [Event.completes, Event.adds, hh, Ne.symm hh]

theorem Kept.read (kept : Kept w) {s' : Handles} {msg : Option Message} {left : ℕ}
    (hread : w.handles.read m = (msg, left, s')) :
    Kept ⟨s', note w.pending (.read m msg left)⟩ ∧
      Tallied w ⟨s', note w.pending (.read m msg left)⟩ [.read m msg left] := by
  have hpooled := kept.pooled.read hread
  rcases read_cases w.handles m hread with ⟨head, rest, hring, rfl, n, rfl, hlocals, hrest, hhandle,
    -, hn⟩ | ⟨-, ⟨h, result, rest, hhandle, rfl, rfl⟩ | ⟨-, rfl, rfl⟩⟩
  · -- The first message of the ring.
    obtain ⟨h, hnamed⟩ := kept.named m head (hring ▸ List.mem_cons_self)
    obtain ⟨named, result⟩ := head
    dsimp only at hnamed
    subst hnamed
    have hcount : ∀ h', w.handles.inRing m h' =
        rest.countP (fun msg => msg.easyHandle.slot = h') + if h' = h then 1 else 0 := by
      intro h'
      unfold inRing
      rw [hring, List.countP_cons]
      by_cases hh : h' = h
      · simp [hh, Named.slot]
      · simp [hh, Ne.symm hh, Named.slot]
    have hinlocals : ∀ m' h', (w.handles.setMulti m n).inLocals m' h' = w.handles.inLocals m' h' := by
      intro m' h'
      rw [inLocals_setMulti, hlocals]
      split_ifs with hm
      · rw [hm]
        rfl
      · rfl
    have hpend : w.pending h = some (m, true) := by
      by_contra hne
      have hsum := kept.answered m h
      rw [if_neg hne, hcount h, if_pos rfl] at hsum
      omega
    constructor
    · apply kept.take hpend (note_read w.pending m h · result left) hpooled
      · intro m' h'
        rw [hinlocals, inRing_setMulti, hrest]
        by_cases hm : m' = m
        · subst hm
          rw [hcount h']
          by_cases hh : h' = h
          · simp [hh]
            omega
          · simp [hh]
        · simp [hm]
      · intro m' h'
        rw [inMsglist_setMulti, hhandle]
        by_cases hm : m' = m
        · subst hm
          simp
          rfl
        · simp [hm]
          rfl
      · exact fun _ => rfl
      · exact ours_setMulti hn
      · intro m'
        rw [multis_setMulti]
        split_ifs with hm
        · rw [hrest, hm, hring]
          exact List.subset_cons_self _ _
        · exact List.Subset.refl _
    · apply Tallied.take hpend (note_read w.pending m h · result left)
      · intro m' h'
        unfold waiting
        rw [hinlocals]
        rfl
      · exact hinlocals
  · -- The first of libcurl's messages.
    have hcount : ∀ h', w.handles.inMsglist m h' =
        rest.countP (fun msg => msg.1 = h') + if h' = h then 1 else 0 := by
      intro h'
      unfold inMsglist
      rw [hhandle, Option.getD_some, List.countP_cons]
      by_cases hh : h' = h
      · simp [hh]
      · simp [hh, Ne.symm hh]
    have hpend : w.pending h = some (m, false) := by
      by_contra hne
      have hsum := kept.network m h
      rw [if_neg hne, hcount h, if_pos rfl] at hsum
      omega
    rw [if_pos (kept.pooled.transfer h (kept.live m h false hpend).1)]
    have hinlocals : ∀ m' h', (w.handles.setMsglist m rest).inLocals m' h' =
        w.handles.inLocals m' h' := by
      intro m' h'
      unfold setMsglist
      rw [inLocals_setMulti]
      split_ifs with hm
      · rw [hm]
        rfl
      · rfl
    have hinring : ∀ m' h', (w.handles.setMsglist m rest).inRing m' h' = w.handles.inRing m' h' := by
      intro m' h'
      unfold setMsglist
      rw [inRing_setMulti]
      split_ifs with hm
      · rw [hm]
        rfl
      · rfl
    constructor
    · apply kept.take hpend (note_read w.pending m h · result left) hpooled
      · intro m' h'
        rw [hinlocals, hinring]
        simp
      · intro m' h'
        have hlist : (w.handles.setMsglist m rest).inMsglist m' h' =
            if m' = m then rest.countP (fun msg => msg.1 = h') else w.handles.inMsglist m' h' :=
          inMsglist_setMulti ..
        rw [hlist]
        change w.handles.inHand m' h' + _ + _ = _
        by_cases hm : m' = m
        · subst hm
          rw [hcount h']
          simp
          omega
        · simp [hm]
      · exact fun _ => rfl
      · exact fun m' => ours_setMsglist w.handles m m' rest
      · intro m'
        rw [multis_setMsglist]
        split_ifs with hm
        · rw [hm]
          exact List.Subset.refl _
        · exact List.Subset.refl _
    · apply Tallied.take hpend (note_read w.pending m h · result left)
      · intro m' h'
        unfold waiting
        rw [hinlocals]
        rfl
      · exact hinlocals
  · -- Nothing to be read.
    have hmoved : Moved w.handles w.handles [.read m none left] := by
      apply Moved.of_same
      · exact fun _ _ => ⟨rfl, rfl, rfl⟩
      · exact fun _ _ _ => rfl
      · intro e he
        rw [List.mem_singleton.mp he]
        exact ⟨rfl, fun _ _ => ⟨rfl, rfl⟩⟩
    exact ⟨kept.moved hmoved kept.pooled kept.live kept.named, Tallied.of_moved hmoved⟩

/-! ## Runs -/

/-- Every polite call keeps each pending transfer in its place, and its events account for it. -/
theorem Kept.step (kept : Kept w) (hpolite : polite w i) (hwatch : watch w i = some (w', ev)) :
    Kept w' ∧ Tallied w w' ev := by
  cases hplain : i.plain with
  | true => exact kept.plain hplain hpolite hwatch
  | false =>
    obtain ⟨hstep, hpending⟩ := watch_some hwatch
    obtain ⟨s', pending⟩ := w'
    dsimp only at hstep hpending
    subst hpending
    have hsame : ∀ {s' : Handles} {ev : List Event}, some (w.handles, []) = some (s', ev) →
        Kept ⟨s', ev.foldl note w.pending⟩ ∧ Tallied w ⟨s', ev.foldl note w.pending⟩ ev := by
      intro s' ev heq
      obtain ⟨rfl, rfl⟩ := Prod.mk.inj (Option.some.inj heq)
      exact ⟨kept, Tallied.refl w⟩
    cases i with
    | multiAddHandle m h accepts =>
      simp only [XCurl.step] at hstep
      split at hstep
      · next m h hm hh =>
        generalize hadd : w.handles.add m h accepts = result at hstep
        obtain ⟨code, s₁⟩ := result
        obtain ⟨rfl, rfl⟩ := Prod.mk.inj (Option.some.inj hstep)
        obtain ⟨rfl, hmine⟩ := asMulti_some hm
        obtain ⟨rfl, hours⟩ := asTransfer_some hh
        exact kept.add hpolite hours hmine hadd
      · exact hsame hstep
    | multiPerform m work alive =>
      simp only [XCurl.step] at hstep
      split at hstep
      · exact kept.perform hstep
      · exact hsame hstep
    | multiInfoRead m =>
      simp only [XCurl.step] at hstep
      split at hstep
      · next m _ =>
        generalize hread : w.handles.read m = result at hstep
        obtain ⟨msg, left, s₁⟩ := result
        obtain ⟨rfl, rfl⟩ := Prod.mk.inj (Option.some.inj hstep)
        exact kept.read hread
      · exact hsame hstep
    | _ => cases hplain

theorem Kept.reaches {w₀ : Watched} (kept : Kept w₀) (hrun : Reaches watch polite w₀ tr w) :
    Kept w ∧ Tallied w₀ w tr := by
  induction hrun with
  | start => exact ⟨kept, Tallied.refl w₀⟩
  | next _ hpolite hwatch ih =>
    obtain ⟨hkept, htallied⟩ := ih
    obtain ⟨hkept', htallied'⟩ := hkept.step hpolite hwatch
    exact ⟨hkept', htallied.trans htallied'⟩

theorem watchStart_kept : Kept watchStart := by
  refine ⟨start_pooled, fun _ _ => rfl, fun _ _ => rfl, ?_, ?_⟩
  · intro m h here hpending
    cases hpending
  · intro m msg hmem
    cases hmem

end IW4x.XCurl
