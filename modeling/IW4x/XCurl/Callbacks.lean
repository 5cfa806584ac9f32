import IW4x.Lib.Forced
import IW4x.XCurl.Outcomes

/-!
# Calls from callbacks

`answered` copies the array and gives up the mutex before it delivers, so that a callback may call the
functions again: add, remove and clean up transfers, read completions, and even perform. Here the
calls of `deliver` are made one at a time, and the game decides what happens in each.
-/

namespace IW4x.XCurl

open Runs Handles

/-! ## The parts of an answer -/

/-- The statements of `deliver` that may call back. -/
inductive Part where
  | status
  | type
  | length
  | blank
  | body
  deriving DecidableEq

/-- All of them, in their order. -/
def Part.all : List Part := [.status, .type, .length, .blank, .body]

def Transfer.part (t : Transfer) : Part → List Call
  | .status =>
    t.line ("HTTP/1.1 ".toList ++ decimal t.answer.status ++ " ".toList ++
      (if t.answer.status = 200 then "OK".toList else "Error".toList) ++ "\r\n".toList)
  | .type => t.line ("Content-Type: ".toList ++ t.answer.type ++ "\r\n".toList)
  | .length =>
    t.line ("Content-Length: ".toList ++ decimal t.answer.body.length ++ "\r\n".toList)
  | .blank => t.line "\r\n".toList
  | .body =>
    if t.answer.body.length = 0 then []
    else match t.write with
      | none => []
      | some f => [{ function := f, text := t.answer.body, data := t.writeData }]

theorem Transfer.deliveries_eq_parts (t : Transfer) : t.deliveries = Part.all.flatMap t.part := by
  cases hwrite : t.write <;> simp [Transfer.deliveries, Part.all, Transfer.part, hwrite]

theorem Transfer.part_delivered (t : Transfer) (b : Bool) :
    ({ t with delivered := b } : Transfer).part = t.part := by
  funext part
  cases part <;> rfl

/-! ## Performing -/

/-- What `answered` does once it has the mutex again. -/
def Handles.collect (s : Handles) (m : MultiSlot) : Handles × List Event :=
  let last := s.queueAll m
  (s.setMulti m { s.multis m with
    locals := last.1
    answered := last.1.length
    messages := last.2.1
    fits := s.queueAll_length m }, last.2.2)

/-- What `multi::poll` makes of the time that it is given. -/
def Handles.pollTimeout (s : Handles) (m : MultiSlot) (timeout : ℤ) : ℤ :=
  if (s.multis m).answered ≠ 0 then 0 else timeout

/-- An `answered` that was not left yet: what `curl_multi_perform` counted before it, what is left of
the copy of the array, and the answer in the middle of which it is. -/
structure Performing where
  multi : MultiSlot
  alive : ℕ
  rest : List Slot
  current : Option (Slot × List Part) := none

/-- The handles, and the calls of `multi::perform` that were not left yet, the innermost first. -/
structure Nest where
  handles : Handles := {}
  performs : List Performing := []
  /-- The game's own code runs: outside of them all, or in a callback. -/
  calling : Bool := true

inductive Move where
  /-- The game calls a function, other than `xcurl_multi_perform`. -/
  | call (i : Entry)
  /-- It calls `xcurl_multi_perform`, with what libcurl does there. -/
  | perform (m : Option MultiSlot) (work : List Handles.Work) (alive : ℕ)
  /-- The callback returns. -/
  | giveBack
  /-- The innermost `answered` goes on. -/
  | goOn

inductive Sound where
  /-- What a call makes known, but for the answers that are delivered. -/
  | of (e : Event)
  /-- `deliver` begins to deliver the answer of the transfer. -/
  | delivering (m : MultiSlot) (h : Slot)
  /-- It calls back. -/
  | called (m : MultiSlot) (h : Slot) (c : Call)
  deriving DecidableEq

/-- Whether it is the call of `xcurl_multi_perform`. -/
def Entry.performs : Entry → Bool
  | .multiPerform .. => true
  | _ => false

namespace Nest

/-- `multi::perform`, up to the copy of the array. -/
def enter (g : Nest) (m : MultiSlot) (work : List Handles.Work) (alive : ℕ) :
    Option (Nest × List Sound) :=
  match g.handles.curlPerform m work with
  | none => none
  | some (s, ev) =>
    if (s.multis m).answered ≠ 0 then
      some (⟨s, ⟨m, alive, (s.multis m).locals, none⟩ :: g.performs, false⟩, ev.map .of)
    else some (⟨s, g.performs, true⟩, (ev ++ [Event.performed m alive 0]).map .of)

/-- `answered`, up to the next statement that may call back, or to its end. -/
def proceed (g : Nest) : Option (Nest × List Sound) :=
  match g.performs with
  | [] => none
  | p :: ps =>
    match p.current, p.rest with
    | some (h, part :: parts), _ =>
      let calls := (g.handles.transfers h).part part
      some (⟨g.handles, { p with current := some (h, parts) } :: ps, !calls.isEmpty⟩,
        calls.map (.called p.multi h))
    | some (_, []), _ => some (⟨g.handles, { p with current := none } :: ps, false⟩, [])
    | none, h :: rest =>
      if (g.handles.transfers h).delivered then
        some (⟨g.handles, { p with rest := rest } :: ps, false⟩, [])
      else
        some (⟨g.handles.setTransfer h { g.handles.transfers h with delivered := true },
          { p with rest := rest, current := some (h, Part.all) } :: ps, false⟩,
          [.delivering p.multi h])
    | none, [] =>
      let (s, ev) := g.handles.collect p.multi
      some (⟨s, ps, true⟩,
        (ev ++ [Event.performed p.multi p.alive (s.multis p.multi).locals.length]).map .of)

def step : Step Nest Move Sound := fun g move =>
  match move with
  | .call i =>
    if g.calling = true ∧ i.performs = false then
      (XCurl.step g.handles i).map fun next =>
        (⟨next.1, g.performs, true⟩, next.2.map .of)
    else none
  | .perform m work alive =>
    if g.calling then
      match g.handles.asMulti m with
      | some m => g.enter m work alive
      | none => some (g, [])
    else none
  | .giveBack =>
    if g.calling = true ∧ g.performs ≠ [] then some ({ g with calling := false }, []) else none
  | .goOn => if g.calling then none else g.proceed

/-! ## What a move can do -/

inductive Happens (g : Nest) : Move → Nest → List Sound → Prop where
  | call {i : Entry} {s : Handles} {ev : List Event} (hother : i.performs = false)
      (hstep : XCurl.step g.handles i = some (s, ev)) :
      Happens g (.call i) ⟨s, g.performs, true⟩ (ev.map .of)
  /-- There is no such multi handle, or a callback returns. -/
  | still {move : Move} (calling : Bool) : Happens g move ⟨g.handles, g.performs, calling⟩ []
  | pass {m' : Option MultiSlot} {m : MultiSlot} {work : List Handles.Work} {alive : ℕ}
      {s : Handles} {ev : List Event} (hmulti : g.handles.asMulti m' = some m)
      (hcurl : g.handles.curlPerform m work = some (s, ev)) :
      Happens g (.perform m' work alive) ⟨s, g.performs, true⟩
        ((ev ++ [Event.performed m alive 0]).map .of)
  | enter {m' : Option MultiSlot} {m : MultiSlot} {work : List Handles.Work} {alive : ℕ}
      {s : Handles} {ev : List Event} (hmulti : g.handles.asMulti m' = some m)
      (hcurl : g.handles.curlPerform m work = some (s, ev)) :
      Happens g (.perform m' work alive)
        ⟨s, ⟨m, alive, (s.multis m).locals, none⟩ :: g.performs, false⟩ (ev.map .of)
  | part {p : Performing} {ps : List Performing} {h : Slot} {part : Part} {parts : List Part}
      (hperforms : g.performs = p :: ps) (hcurrent : p.current = some (h, part :: parts))
      (calling : Bool) :
      Happens g .goOn ⟨g.handles, { p with current := some (h, parts) } :: ps, calling⟩
        (((g.handles.transfers h).part part).map (.called p.multi h))
  | finish {p : Performing} {ps : List Performing} {h : Slot} (hperforms : g.performs = p :: ps)
      (hcurrent : p.current = some (h, [])) :
      Happens g .goOn ⟨g.handles, { p with current := none } :: ps, false⟩ []
  | skip {p : Performing} {ps : List Performing} {h : Slot} {rest : List Slot}
      (hperforms : g.performs = p :: ps) (hcurrent : p.current = none) (hrest : p.rest = h :: rest)
      (hdelivered : (g.handles.transfers h).delivered = true) :
      Happens g .goOn ⟨g.handles, { p with rest := rest } :: ps, false⟩ []
  | begin {p : Performing} {ps : List Performing} {h : Slot} {rest : List Slot}
      (hperforms : g.performs = p :: ps) (hcurrent : p.current = none) (hrest : p.rest = h :: rest)
      (hdelivered : (g.handles.transfers h).delivered = false) :
      Happens g .goOn ⟨g.handles.setTransfer h { g.handles.transfers h with delivered := true },
        { p with rest := rest, current := some (h, Part.all) } :: ps, false⟩ [.delivering p.multi h]
  | leave {p : Performing} {ps : List Performing} (hperforms : g.performs = p :: ps)
      (hcurrent : p.current = none) (hrest : p.rest = []) :
      Happens g .goOn ⟨(g.handles.collect p.multi).1, ps, true⟩
        (((g.handles.collect p.multi).2 ++ [Event.performed p.multi p.alive
          ((g.handles.collect p.multi).1.multis p.multi).locals.length]).map .of)

theorem happens_enter {g g' : Nest} {m' : Option MultiSlot} {m : MultiSlot}
    {work : List Handles.Work} {alive : ℕ} {ev : List Sound} (hmulti : g.handles.asMulti m' = some m)
    (h : g.enter m work alive = some (g', ev)) : Happens g (.perform m' work alive) g' ev := by
  unfold enter at h
  cases hcurl : g.handles.curlPerform m work with
  | none => simp [hcurl] at h
  | some first =>
    obtain ⟨s, ev₁⟩ := first
    rw [hcurl] at h
    dsimp only at h
    split_ifs at h with hsome
    · obtain ⟨rfl, rfl⟩ := Prod.mk.inj (Option.some.inj h)
      exact .enter hmulti hcurl
    · obtain ⟨rfl, rfl⟩ := Prod.mk.inj (Option.some.inj h)
      exact .pass hmulti hcurl

theorem happens_proceed {g g' : Nest} {ev : List Sound} (h : g.proceed = some (g', ev)) :
    Happens g .goOn g' ev := by
  unfold proceed at h
  cases hperforms : g.performs with
  | nil => simp [hperforms] at h
  | cons p ps =>
    rw [hperforms] at h
    dsimp only at h
    split at h
    · next _ _ h' part parts hcurrent =>
      obtain ⟨rfl, rfl⟩ := Prod.mk.inj (Option.some.inj h)
      exact .part hperforms hcurrent _
    · next _ _ h' hcurrent =>
      obtain ⟨rfl, rfl⟩ := Prod.mk.inj (Option.some.inj h)
      exact .finish hperforms hcurrent
    · next _ _ h' rest hcurrent hrest =>
      split_ifs at h with hdelivered
      · obtain ⟨rfl, rfl⟩ := Prod.mk.inj (Option.some.inj h)
        exact .skip hperforms hcurrent hrest hdelivered
      · obtain ⟨rfl, rfl⟩ := Prod.mk.inj (Option.some.inj h)
        exact .begin hperforms hcurrent hrest (by simpa using hdelivered)
    · next hcurrent hrest =>
      obtain ⟨rfl, rfl⟩ := Prod.mk.inj (Option.some.inj h)
      exact .leave hperforms hcurrent hrest

theorem happens {g g' : Nest} {move : Move} {ev : List Sound} (h : step g move = some (g', ev)) :
    Happens g move g' ev := by
  cases move with
  | call i =>
    simp only [step] at h
    split_ifs at h with hcall
    obtain ⟨⟨s, ev₁⟩, hstep, heq⟩ := Option.map_eq_some_iff.mp h
    obtain ⟨rfl, rfl⟩ := Prod.mk.inj heq
    exact .call hcall.2 hstep
  | perform m' work alive =>
    simp only [step] at h
    split_ifs at h with hcalling
    cases hmulti : g.handles.asMulti m' with
    | none =>
      rw [hmulti] at h
      obtain ⟨rfl, rfl⟩ := Prod.mk.inj (Option.some.inj h)
      exact .still _
    | some m =>
      rw [hmulti] at h
      exact happens_enter hmulti h
  | giveBack =>
    simp only [step] at h
    split_ifs at h
    obtain ⟨rfl, rfl⟩ := Prod.mk.inj (Option.some.inj h)
    exact .still _
  | goOn =>
    simp only [step] at h
    split_ifs at h
    exact happens_proceed h

/-! ## A call that is left alone -/

/-- How an event of a call is heard here: an answer that is delivered, as its calls. -/
def spell : Event → List Sound
  | .delivered m h calls => .delivering m h :: calls.map (.called m h)
  | e => [.of e]

theorem flatMap_spell {ev : List Event} (hnone : ∀ m h calls, .delivered m h calls ∉ ev) :
    ev.flatMap spell = ev.map .of := by
  induction ev with
  | nil => rfl
  | cons e ev ih =>
    have hrest : ∀ m h calls, .delivered m h calls ∉ ev := fun m h calls hmem =>
      hnone m h calls (List.mem_cons_of_mem _ hmem)
    have hfirst : spell e = [.of e] := by
      cases e with
      | delivered m h calls => exact absurd List.mem_cons_self (hnone m h calls)
      | _ => rfl
    rw [List.flatMap_cons, ih hrest, hfirst]
    rfl

/-- In the calls of `multi::perform` around which there are `n` others, the callbacks return, and call
nothing before. -/
def quiet (n : ℕ) : Nest → Move → Prop := fun g move =>
  n < g.performs.length ∧ (move = .giveBack ∨ move = .goOn)

theorem quiet_forced (n : ℕ) : Forced step (quiet n) := by
  rintro g i j next next' ⟨-, rfl | rfl⟩ ⟨-, rfl | rfl⟩ hi hj
  · rfl
  · simp only [step] at hi hj
    split_ifs at hi hj with hboth hcalling
    · exact absurd hboth.1 hcalling
  · simp only [step] at hi hj
    split_ifs at hi hj with hcalling hboth
    · exact absurd hboth.1 hcalling
  · rfl

theorem quiet_final {g : Nest} {n : ℕ} (hleft : g.performs.length = n) : Final step (quiet n) g := by
  rintro move next ⟨hinside, -⟩ -
  omega

theorem goes_on {g g' : Nest} {ev : List Sound} {n : ℕ} (hn : n < g.performs.length)
    (hcalling : g.calling = false) (hproceed : g.proceed = some (g', ev)) :
    Reaches step (quiet n) g ev g' := by
  have hstep : step g .goOn = some (g', ev) := by
    simp only [step, hcalling]
    exact hproceed
  have hrun : Reaches step (quiet n) g ([] ++ ev) g' := .next .start ⟨hn, .inr rfl⟩ hstep
  exact hrun

variable (s : Handles) (m : MultiSlot) (alive : ℕ) (ps : List Performing)

/-- The rest of a delivery. -/
theorem parts_run (rest : List Slot) (h : Slot) (parts : List Part) :
    Reaches step (quiet ps.length) ⟨s, ⟨m, alive, rest, some (h, parts)⟩ :: ps, false⟩
      ((parts.flatMap (s.transfers h).part).map (.called m h))
      ⟨s, ⟨m, alive, rest, none⟩ :: ps, false⟩ := by
  induction parts with
  | nil => exact goes_on (Nat.lt_succ_self _) rfl rfl
  | cons part parts ih =>
    have hcall : Reaches step (quiet ps.length)
        ⟨s, ⟨m, alive, rest, some (h, part :: parts)⟩ :: ps, false⟩
        (((s.transfers h).part part).map (.called m h))
        ⟨s, ⟨m, alive, rest, some (h, parts)⟩ :: ps, !((s.transfers h).part part).isEmpty⟩ :=
      goes_on (Nat.lt_succ_self _) rfl rfl
    have hback : Reaches step (quiet ps.length)
        ⟨s, ⟨m, alive, rest, some (h, parts)⟩ :: ps, !((s.transfers h).part part).isEmpty⟩ []
        ⟨s, ⟨m, alive, rest, some (h, parts)⟩ :: ps, false⟩ := by
      cases (s.transfers h).part part with
      | nil => exact .start
      | cons c calls => exact .next .start ⟨Nat.lt_succ_self _, .inl rfl⟩ rfl
    rw [List.flatMap_cons, List.map_append]
    have hfirst := hcall.trans hback
    rw [List.append_nil] at hfirst
    exact hfirst.trans ih

/-- The delivery of one answer. -/
theorem deliver_run (h : Slot) (rest : List Slot) :
    Reaches step (quiet ps.length) ⟨s, ⟨m, alive, h :: rest, none⟩ :: ps, false⟩
      ((s.deliver m h).2.flatMap spell) ⟨(s.deliver m h).1, ⟨m, alive, rest, none⟩ :: ps, false⟩ := by
  rcases deliver_cases s m h with ⟨hdelivered, heq⟩ | ⟨hnot, heq⟩
  · rw [heq]
    apply goes_on (Nat.lt_succ_self _) rfl
    simp [proceed, hdelivered]
  · have hbegin : Reaches step (quiet ps.length) ⟨s, ⟨m, alive, h :: rest, none⟩ :: ps, false⟩
        [.delivering m h]
        ⟨s.setTransfer h { s.transfers h with delivered := true },
          ⟨m, alive, rest, some (h, Part.all)⟩ :: ps, false⟩ := by
      apply goes_on (Nat.lt_succ_self _) rfl
      simp [proceed, hnot]
    have hparts := parts_run (s.setTransfer h { s.transfers h with delivered := true }) m alive ps
      rest h Part.all
    rw [transfers_setTransfer, if_pos rfl, Transfer.part_delivered,
      ← Transfer.deliveries_eq_parts] at hparts
    rw [heq]
    have hrun := hbegin.trans hparts
    simpa [spell] using hrun

theorem deliverAll_run (ls : List Slot) :
    Reaches step (quiet ps.length) ⟨s, ⟨m, alive, ls, none⟩ :: ps, false⟩
      ((s.deliverAll m ls).2.flatMap spell)
      ⟨(s.deliverAll m ls).1, ⟨m, alive, [], none⟩ :: ps, false⟩ := by
  induction ls generalizing s with
  | nil => exact .start
  | cons h ls ih =>
    have hfirst := deliver_run s m alive ps h ls
    have hrun := hfirst.trans (ih (s.deliver m h).1)
    rw [← List.flatMap_append] at hrun
    exact hrun

theorem answered_eq (s : Handles) (m : MultiSlot) :
    (s.answered m).1 = ((s.deliverAll m (s.multis m).locals).1.collect m).1 ∧
      (s.answered m).2 = (s.deliverAll m (s.multis m).locals).2 ++
        ((s.deliverAll m (s.multis m).locals).1.collect m).2 := ⟨rfl, rfl⟩

theorem collect_delivers_none (s : Handles) (m m' : MultiSlot) (h : Slot) (calls : List Call) :
    .delivered m' h calls ∉ (s.collect m).2 := by
  obtain ⟨taken, -, -, hevents, -⟩ := queueAll_spec s m
  have hcollect : (s.collect m).2 = taken.map (fun h => Event.queued m h) := hevents
  rw [hcollect]
  simp

variable {s m alive} {s' : Handles} {m' : Option MultiSlot} {work : List Work}

/-- Where the callbacks call nothing, a call of `multi::perform` returns, with what `perform` says. -/
theorem perform_run {ev : List Event}
    (hmulti : s.asMulti m' = some m) (hperform : s.perform m work alive = some (s', ev)) :
    ∃ g ev₁ tr, step ⟨s, ps, true⟩ (.perform m' work alive) = some (g, ev₁) ∧
      Reaches step (quiet ps.length) g tr ⟨s', ps, true⟩ ∧ ev₁ ++ tr = ev.flatMap spell := by
  obtain ⟨s₁, ev₁, hcurl, hcase⟩ := perform_cases hperform
  have hspell := flatMap_spell (curlPerform_delivers_none hcurl)
  rcases hcase with ⟨hzero, rfl, rfl⟩ | ⟨hsome, rfl, rfl⟩
  · refine ⟨⟨s', ps, true⟩, (ev₁ ++ [Event.performed m alive 0]).map .of, [], ?_, .start, ?_⟩
    · simp only [step, hmulti, enter, hcurl, hzero]
      rfl
    · rw [List.append_nil, List.flatMap_append, hspell, List.map_append]
      rfl
  · have hdeliver := deliverAll_run s₁ m alive ps (s₁.multis m).locals
    obtain ⟨hstate, hevents⟩ := answered_eq s₁ m
    have hlast : Reaches step (quiet ps.length)
        ⟨(s₁.deliverAll m (s₁.multis m).locals).1, ⟨m, alive, [], none⟩ :: ps, false⟩
        (((s₁.deliverAll m (s₁.multis m).locals).1.collect m).2.flatMap spell ++
          spell (.performed m alive ((s₁.answered m).1.multis m).locals.length))
        ⟨(s₁.answered m).1, ps, true⟩ := by
      rw [flatMap_spell (collect_delivers_none _ m)]
      apply goes_on (Nat.lt_succ_self _) rfl
      rw [hstate]
      simp [proceed, spell]
    refine ⟨⟨s₁, ⟨m, alive, (s₁.multis m).locals, none⟩ :: ps, false⟩, ev₁.map .of, _, ?_,
      hdeliver.trans hlast, ?_⟩
    · simp only [step, hmulti, enter, hcurl]
      rw [if_pos hsome]
      rfl
    · rw [hevents]
      simp [hspell]

/-- Where the callbacks call nothing, a call of `multi::perform` comes to its end and does what
`perform` says, and its callbacks are those of the answers that `perform` delivers. -/
theorem perform_left_alone {g : Nest} {ev₁ : List Sound} (hmulti : s.asMulti m' = some m)
    (hstep : step ⟨s, ps, true⟩ (.perform m' work alive) = some (g, ev₁)) :
    ∃ s' ev, s.perform m work alive = some (s', ev) ∧
      (∃ tr, Reaches step (quiet ps.length) g tr ⟨s', ps, true⟩) ∧
      ∀ tr g', Reaches step (quiet ps.length) g tr g' → g'.performs.length = ps.length →
        g' = ⟨s', ps, true⟩ ∧ ev₁ ++ tr = ev.flatMap spell := by
  cases hperform : s.perform m work alive with
  | none =>
    exfalso
    simp only [step, hmulti, enter] at hstep
    unfold Handles.perform at hperform
    cases hcurl : s.curlPerform m work with
    | none => simp [hcurl] at hstep
    | some first =>
      simp only [hcurl] at hperform
      split_ifs at hperform
  | some last =>
    obtain ⟨s', ev⟩ := last
    obtain ⟨g₁, ev₂, tr₁, hstep₁, hrun₁, htrace⟩ := perform_run ps hmulti hperform
    obtain ⟨rfl, rfl⟩ := Prod.mk.inj (Option.some.inj (hstep.symm.trans hstep₁))
    refine ⟨s', ev, rfl, ⟨tr₁, hrun₁⟩, ?_⟩
    intro tr g' hrun hleft
    obtain ⟨rfl, rfl⟩ := hrun.unique (quiet_forced ps.length) (quiet_final hleft) hrun₁
      (quiet_final rfl)
    exact ⟨rfl, htrace⟩

theorem perform_left_alone_once : ∃ (s' : Handles) (g : Nest) (ev₁ tr : List Sound),
    Reaches step (quiet 0) g tr ⟨s', [], true⟩ ∧ ev₁ ++ tr =
      [.delivering 0 0, .called 0 0 bodyCall, .of (.queued 0 0), .of (.performed 0 0 0)] := by
  obtain ⟨-, s, s', -, hstep, -⟩ := addWriting_reaches
  have hmulti : s.asMulti (some 0) = some 0 := by
    cases hmulti : s.asMulti (some 0) with
    | none => simp [XCurl.step, hmulti] at hstep
    | some m =>
      exact (asMulti_some hmulti).1.symm
  have hperform : s.perform 0 [] 0 =
      some (s', [.delivered 0 0 [bodyCall], .queued 0 0, .performed 0 0 0]) := by
    simpa only [XCurl.step, hmulti] using hstep
  obtain ⟨g, ev₁, -, hentered, -, -⟩ := perform_run [] hmulti hperform
  obtain ⟨s₁, ev, hperform', ⟨tr, hrun⟩, hall⟩ := perform_left_alone [] hmulti hentered
  obtain ⟨rfl, rfl⟩ := Prod.mk.inj (Option.some.inj (hperform.symm.trans hperform'))
  exact ⟨s', g, ev₁, tr, hrun, (hall tr _ hrun rfl).2⟩

end Nest

end IW4x.XCurl
