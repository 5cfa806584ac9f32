import IW4x.XCurl.Nesting

/-!
# Leaving a call that callbacks interrupt

A call of `multi::perform` comes to its end if the callbacks do, whatever was called from them before.
By then it has delivered all of its copy, and what is left in the array was added in the meantime,
unless there is no room for completions. A transfer that is removed while no such call holds it is
not heard of again before it is added.
-/

namespace IW4x.XCurl

open Runs Handles

namespace Nest

/-! ## The end of a call -/

theorem returns {g : Nest} {p : Performing} {ps : List Performing} (hperforms : g.performs = p :: ps) :
    ∃ tr s, Reaches step (quiet ps.length) g tr ⟨s, ps, true⟩ := by
  obtain ⟨m, alive, rest, current⟩ := p
  have hback : Reaches step (quiet ps.length) g []
      ⟨g.handles, ⟨m, alive, rest, current⟩ :: ps, false⟩ := by
    obtain ⟨s, performs, calling⟩ := g
    obtain rfl : performs = _ := hperforms
    cases calling with
    | true => exact .next .start ⟨Nat.lt_succ_self _, .inl rfl⟩ rfl
    | false => exact .start
  have hdone : ∃ tr, Reaches step (quiet ps.length)
      ⟨g.handles, ⟨m, alive, rest, current⟩ :: ps, false⟩ tr
      ⟨g.handles, ⟨m, alive, rest, none⟩ :: ps, false⟩ := by
    cases current with
    | none => exact ⟨[], .start⟩
    | some delivery =>
      obtain ⟨h, parts⟩ := delivery
      exact ⟨_, parts_run _ m alive ps rest h parts⟩
  obtain ⟨tr, hdone⟩ := hdone
  have hdeliver := deliverAll_run g.handles m alive ps rest
  exact ⟨_, _, ((hback.trans hdone).trans hdeliver).trans (goes_on (Nat.lt_succ_self _) rfl rfl)⟩

theorem unwinds {inner ps : List Performing} {p : Performing} {g : Nest}
    (hperforms : g.performs = inner ++ p :: ps) :
    ∃ tr s, Reaches step (quiet ps.length) g tr ⟨s, ps, true⟩ := by
  induction inner generalizing g with
  | nil => exact returns hperforms
  | cons q inner ih =>
    obtain ⟨tr, s, hfirst⟩ : ∃ tr s, Reaches step (quiet (inner ++ p :: ps).length) g tr
        ⟨s, inner ++ p :: ps, true⟩ := returns hperforms
    obtain ⟨tr', s', hlast⟩ := ih (g := ⟨s, inner ++ p :: ps, true⟩) rfl
    refine ⟨tr ++ tr', s', (hfirst.mono ?_).trans hlast⟩
    rintro g move ⟨hinside, hmove⟩
    refine ⟨?_, hmove⟩
    rw [List.length_append, List.length_cons] at hinside
    omega

/-! ## What a call leaves -/

/-- More than `n` calls of `multi::perform` were not left yet. -/
def inside (n : ℕ) : Nest → Move → Prop := fun g _ => n < g.performs.length

theorem Effect.stays {g g' : Nest} {ev : List Sound} (he : Effect g g' ev) {x : Slot}
    (hflag : (g.handles.transfers x).delivered = true) :
    (g'.handles.transfers x).delivered = true ∨ Renewed x ev := by
  by_cases hrenewed : Renewed x ev
  · exact .inr hrenewed
  · left
    by_cases htold : ∃ m, .delivering m x ∈ ev
    · obtain ⟨m, hmem⟩ := htold
      exact (he.delivering m x hmem).2.2
    · rw [he.kept x hrenewed (not_exists.mp htold)]
      exact hflag

/-- A transfer of the array was dealt with, or its turn is still to come. -/
def DealtWith (g : Nest) (tr : List Sound) (rest : List Slot) (x : Slot) : Prop :=
  (g.handles.transfers x).delivered = true ∨ x ∈ rest ∨ Renewed x tr

/-- The call that began in `g₁` has come past the transfer in its copy; when it did, the answer had
been delivered since the transfer last began. -/
def Passed (before : List Sound) (g₁ : Nest) (ps : List Performing) (copy : List Slot)
    (tr : List Sound) (g : Nest) (x : Slot) : Prop :=
  ∃ a b g' p front, tr = a ++ b ∧ Reaches step (inside ps.length) g₁ a g' ∧
    Reaches step (inside ps.length) g' b g ∧ g'.performs = p :: ps ∧
    copy = front ++ x :: p.rest ∧ Told x (before ++ a)

section Call

variable {before : List Sound} {g₁ : Nest} {ps : List Performing} {copy : List Slot}

theorem Passed.next {g g' : Nest} {tr ev : List Sound} {x : Slot} {move : Move}
    (passed : Passed before g₁ ps copy tr g x) (hok : inside ps.length g move)
    (hstep : Nest.step g move = some (g', ev)) : Passed before g₁ ps copy (tr ++ ev) g' x := by
  obtain ⟨a, b, g₂, p, front, rfl, hfirst, hlast, hperforms, hcopy, htold⟩ := passed
  exact ⟨a, b ++ ev, g₂, p, front, List.append_assoc a b ev, hfirst, .next hlast hok hstep, hperforms,
    hcopy, htold⟩

variable (before g₁ ps copy)

/-- In the middle of a call of `multi::perform`, around which there are the calls of `ps`. -/
structure Within (m : MultiSlot) (tr : List Sound) (g : Nest) (inner : List Performing)
    (p : Performing) : Prop where
  performs : g.performs = inner ++ p :: ps
  multi : p.multi = m
  copied : ∃ front, copy = front ++ p.rest ∧ ∀ x ∈ front, Passed before g₁ ps copy tr g x
  array : ∀ x ∈ (g.handles.multis m).locals, DealtWith g tr p.rest x

/-- After it. -/
structure Left (m : MultiSlot) (tr : List Sound) (g : Nest) : Prop where
  performs : g.performs = ps
  calling : g.calling = true
  copied : ∀ x ∈ copy, Passed before g₁ ps copy tr g x
  array : ∀ x ∈ (g.handles.multis m).locals,
    Renewed x tr ∨ (g.handles.multis m).messages.count = capacity

variable {before g₁ ps copy}

theorem DealtWith.step {g g' : Nest} {tr ev : List Sound} {rest rest' : List Slot} {x : Slot}
    (he : Effect g g' ev) (hdealt : DealtWith g tr rest x)
    (hrest : x ∈ rest → x ∈ rest' ∨ (g'.handles.transfers x).delivered = true) :
    DealtWith g' (tr ++ ev) rest' x := by
  rcases hdealt with hflag | hin | hrenewed
  · rcases he.stays hflag with hflag' | hrenewed
    · exact .inl hflag'
    · exact .inr (.inr (renewed_append.mpr (.inr hrenewed)))
  · rcases hrest hin with hin' | hflag'
    · exact .inr (.inl hin')
    · exact .inl hflag'
  · exact .inr (.inr (renewed_append.mpr (.inl hrenewed)))

theorem Within.goesOn {m : MultiSlot} {tr ev : List Sound} {g g' : Nest}
    {inner inner' : List Performing} {p p' : Performing}
    (within : Within before g₁ ps copy m tr g inner p) (he : Effect g g' ev)
    (hperforms : g'.performs = inner' ++ p' :: ps) (hmulti : p'.multi = p.multi)
    (hcopied : ∃ front, copy = front ++ p'.rest ∧
      ∀ x ∈ front, Passed before g₁ ps copy (tr ++ ev) g' x)
    (hrest : ∀ x ∈ p.rest, x ∈ p'.rest ∨ (g'.handles.transfers x).delivered = true) :
    Within before g₁ ps copy m (tr ++ ev) g' inner' p' where
  performs := hperforms
  multi := hmulti.trans within.multi
  copied := hcopied
  array x hx := by
    rcases he.locals m x hx with hx | hrenewed
    · exact (within.array x hx).step he (hrest x)
    · exact .inr (.inr (renewed_append.mpr (.inr hrenewed)))

theorem Within.stays {m : MultiSlot} {tr ev : List Sound} {g g' : Nest} {move : Move}
    {inner inner' : List Performing} {p p' : Performing}
    (within : Within before g₁ ps copy m tr g inner p) (he : Effect g g' ev)
    (hok : inside ps.length g move) (hstep : Nest.step g move = some (g', ev))
    (hperforms : g'.performs = inner' ++ p' :: ps) (hmulti : p'.multi = p.multi)
    (hrest : p'.rest = p.rest) : Within before g₁ ps copy m (tr ++ ev) g' inner' p' := by
  refine within.goesOn he hperforms hmulti ?_ fun x hx => .inl (by rw [hrest]; exact hx)
  obtain ⟨front, hcopy, hpassed⟩ := within.copied
  exact ⟨front, by rw [hrest]; exact hcopy, fun x hx => (hpassed x hx).next hok hstep⟩

/-- The innermost call comes past one transfer of its copy, which is then delivered. -/
theorem Within.comesPast {m : MultiSlot} {tr ev : List Sound} {g g' : Nest} {move : Move}
    {inner qs : List Performing} {p q q' : Performing} {y : Slot}
    (within : Within before g₁ ps copy m tr g inner p) (he : Effect g g' ev)
    (hrun : Reaches Nest.step (inside ps.length) g₁ tr g) (hok : inside ps.length g move)
    (hstep : Nest.step g move = some (g', ev)) (hflagged : Flagged (before ++ (tr ++ ev)) g')
    (hbefore : g.performs = q :: qs) (hafter : g'.performs = q' :: qs)
    (hmulti : q'.multi = q.multi) (hrest : q.rest = y :: q'.rest)
    (hdelivered : (g'.handles.transfers y).delivered = true) :
    ∃ inner' p', Within before g₁ ps copy m (tr ++ ev) g' inner' p' := by
  have hperforms := within.performs
  rw [hbefore] at hperforms
  cases inner with
  | nil =>
    obtain ⟨rfl, rfl⟩ := List.cons.inj hperforms
    refine ⟨[], q', within.goesOn he hafter hmulti ?_ ?_⟩
    · obtain ⟨front, hcopy, hpassed⟩ := within.copied
      rw [hrest] at hcopy
      refine ⟨front ++ [y], by rw [hcopy, List.append_assoc]; rfl, ?_⟩
      intro x hx
      rcases List.mem_append.mp hx with hx | hx
      · exact (hpassed x hx).next hok hstep
      · obtain rfl := List.mem_singleton.mp hx
        exact ⟨tr ++ ev, [], g', q', front, (List.append_nil _).symm, hrun.next hok hstep, .start,
          hafter, hcopy, (hflagged x).mp hdelivered⟩
    · intro x hx
      rw [hrest] at hx
      rcases List.mem_cons.mp hx with rfl | hx
      · exact .inr hdelivered
      · exact .inl hx
  | cons q₁ inner =>
    obtain ⟨rfl, rfl⟩ := List.cons.inj hperforms
    exact ⟨q' :: inner, p, within.stays he hok hstep hafter rfl rfl⟩

theorem Within.advances {m : MultiSlot} {tr ev : List Sound} {g g' : Nest} {move : Move}
    {inner qs : List Performing} {p q q' : Performing}
    (within : Within before g₁ ps copy m tr g inner p) (he : Effect g g' ev)
    (hok : inside ps.length g move) (hstep : Nest.step g move = some (g', ev))
    (hbefore : g.performs = q :: qs) (hafter : g'.performs = q' :: qs)
    (hmulti : q'.multi = q.multi) (hrest : q'.rest = q.rest) :
    ∃ inner' p', Within before g₁ ps copy m (tr ++ ev) g' inner' p' := by
  have hperforms := within.performs
  rw [hbefore] at hperforms
  cases inner with
  | nil =>
    obtain ⟨rfl, rfl⟩ := List.cons.inj hperforms
    exact ⟨[], q', within.stays he hok hstep hafter hmulti hrest⟩
  | cons q₁ inner =>
    obtain ⟨rfl, rfl⟩ := List.cons.inj hperforms
    exact ⟨q' :: inner, p, within.stays he hok hstep hafter rfl rfl⟩

/-- The call itself is left. -/
theorem Within.leaves {m : MultiSlot} {tr ev : List Sound} {g : Nest} {p : Performing} {move : Move}
    (within : Within before g₁ ps copy m tr g [] p) (hrest : p.rest = [])
    (hok : inside ps.length g move)
    (hstep : Nest.step g move = some (⟨(g.handles.collect p.multi).1, ps, true⟩, ev)) :
    Left before g₁ ps copy m (tr ++ ev) ⟨(g.handles.collect p.multi).1, ps, true⟩ := by
  obtain ⟨taken, -, -, -, hheld, -, -, -⟩ := collect_spec g.handles p.multi
  refine ⟨rfl, rfl, ?_, ?_⟩
  · intro x hx
    obtain ⟨front, hcopy, hpassed⟩ := within.copied
    rw [hrest, List.append_nil] at hcopy
    rw [hcopy] at hx
    exact (hpassed x hx).next hok hstep
  · intro x hx
    rw [← within.multi] at hx ⊢
    have hin := collect_locals g.handles p.multi p.multi hx
    rw [within.multi] at hin
    rcases within.array x hin with hflag | hmem | hrenewed
    · exact .inr (hheld x hx hflag)
    · rw [hrest] at hmem
      cases hmem
    · exact .inl (renewed_append.mpr (.inl hrenewed))

theorem Within.step {m : MultiSlot} {tr ev : List Sound} {g g' : Nest} {inner : List Performing}
    {p : Performing} {move : Move} (within : Within before g₁ ps copy m tr g inner p)
    (hrun : Reaches Nest.step (inside ps.length) g₁ tr g) (hok : inside ps.length g move)
    (hstep : Nest.step g move = some (g', ev)) (hflagged : Flagged (before ++ (tr ++ ev)) g') :
    (∃ inner' p', Within before g₁ ps copy m (tr ++ ev) g' inner' p') ∨
      Left before g₁ ps copy m (tr ++ ev) g' := by
  have h := happens hstep
  have he := effect h
  have hperforms := within.performs
  cases h with
  | call hother hcall => exact .inl ⟨inner, p, within.stays he hok hstep hperforms rfl rfl⟩
  | still calling => exact .inl ⟨inner, p, within.stays he hok hstep hperforms rfl rfl⟩
  | pass hmulti hcurl => exact .inl ⟨inner, p, within.stays he hok hstep hperforms rfl rfl⟩
  | @enter m' m₁ work alive s ev hmulti hcurl =>
    refine .inl ⟨⟨m₁, alive, (s.multis m₁).locals, none⟩ :: inner, p,
      within.stays he hok hstep ?_ rfl rfl⟩
    exact congrArg (List.cons _) hperforms
  | part hbefore hcurrent calling => exact .inl (within.advances he hok hstep hbefore rfl rfl rfl)
  | finish hbefore hcurrent => exact .inl (within.advances he hok hstep hbefore rfl rfl rfl)
  | skip hbefore hcurrent hrest hdelivered =>
    exact .inl (within.comesPast he hrun hok hstep hflagged hbefore rfl rfl hrest hdelivered)
  | begin hbefore hcurrent hrest hdelivered =>
    refine .inl (within.comesPast he hrun hok hstep hflagged hbefore rfl rfl hrest ?_)
    rw [transfers_setTransfer, if_pos rfl]
  | leave hbefore hcurrent hrest =>
    rw [hbefore] at hperforms
    cases inner with
    | nil =>
      obtain ⟨rfl, rfl⟩ := List.cons.inj hperforms
      exact .inr (within.leaves hrest hok hstep)
    | cons q inner =>
      obtain ⟨rfl, rfl⟩ := List.cons.inj hperforms
      exact .inl ⟨inner, p, within.stays he hok hstep rfl rfl rfl⟩

end Call

/-- A call of `multi::perform` that had transfers to deliver: from wherever it is, it comes to its end
once the callbacks only return. Then each transfer of its copy had been delivered when the call came
past it, and what is left in the array began anew, unless there is no room for another completion. -/
theorem perform_returns {tr₀ ev tr : List Sound} {g₀ g₁ g : Nest} {m' : Option MultiSlot}
    {work : List Work} {alive : ℕ} (hrun : Reaches step always {} tr₀ g₀)
    (hstep : step g₀ (.perform m' work alive) = some (g₁, ev))
    (hentered : g₁.performs.length = g₀.performs.length + 1)
    (hinside : Reaches step (inside g₀.performs.length) g₁ tr g) :
    (∃ tr' s, Reaches step (quiet g₀.performs.length) g tr' ⟨s, g₀.performs, true⟩) ∧
    (g.performs.length = g₀.performs.length → g.performs = g₀.performs ∧ ∃ m, m' = some m ∧
      (∀ x ∈ (g₁.handles.multis m).locals,
        Passed (tr₀ ++ ev) g₁ g₀.performs (g₁.handles.multis m).locals tr g x) ∧
      ∀ x ∈ (g.handles.multis m).locals,
        Renewed x tr ∨ (g.handles.multis m).messages.count = capacity) := by
  have hfirst : Reaches step always {} (tr₀ ++ ev) g₁ := hrun.next trivial hstep
  have hhappens := happens hstep
  obtain ⟨m, rfl, hwithin⟩ : ∃ m, m' = some m ∧
      Within (tr₀ ++ ev) g₁ g₀.performs (g₁.handles.multis m).locals m [] g₁ []
        ⟨m, alive, (g₁.handles.multis m).locals, none⟩ := by
    cases hhappens with
    | still calling => simp at hentered
    | pass hmulti hcurl => simp at hentered
    | enter hmulti hcurl =>
      exact ⟨_, (asMulti_some hmulti).1, rfl, rfl, ⟨[], rfl, by simp⟩, fun x hx => .inr (.inl hx)⟩
  generalize hcopy : (g₁.handles.multis m).locals = copy at hwithin
  have hall : Reaches step (inside g₀.performs.length) g₁ tr g ∧
      ((∃ inner p, Within (tr₀ ++ ev) g₁ g₀.performs copy m tr g inner p) ∨
        Left (tr₀ ++ ev) g₁ g₀.performs copy m tr g) := by
    refine hinside.invariant (P := fun tr g => Reaches step (inside g₀.performs.length) g₁ tr g ∧
      ((∃ inner p, Within (tr₀ ++ ev) g₁ g₀.performs copy m tr g inner p) ∨
        Left (tr₀ ++ ev) g₁ g₀.performs copy m tr g)) ⟨.start, .inl ⟨_, _, hwithin⟩⟩ ?_
    rintro tr g move g' ev' ⟨hreach, ⟨inner, p, within⟩ | left⟩ hok hstep'
    · have hreach' := hreach.next hok hstep'
      have hflagged : Flagged (tr₀ ++ ev ++ (tr ++ ev')) g' :=
        reaches_flagged (hfirst.trans (hreach'.mono fun _ _ _ => trivial))
      exact ⟨hreach', within.step hreach hok hstep' hflagged⟩
    · rw [inside, left.performs] at hok
      exact absurd hok (lt_irrefl _)
  constructor
  · rcases hall.2 with ⟨inner, p, within⟩ | left
    · exact unwinds within.performs
    · obtain ⟨s, performs, calling⟩ := g
      obtain rfl : performs = g₀.performs := left.performs
      obtain rfl : calling = true := left.calling
      exact ⟨[], s, .start⟩
  · intro hlength
    rcases hall.2 with ⟨inner, p, within⟩ | left
    · rw [within.performs, List.length_append, List.length_cons] at hlength
      omega
    · exact ⟨left.performs, m, rfl, hcopy ▸ left.copied, left.array⟩

instance (n : ℕ) (g : Nest) (move : Move) : Decidable (inside n g move) :=
  inferInstanceAs (Decidable (n < g.performs.length))

/-- A call of `multi::perform` from its beginning to its end, with one callback. -/
def oneCallback : List Move :=
  [.goOn, .goOn, .goOn, .goOn, .goOn, .goOn, .giveBack, .goOn, .goOn]

theorem oneCallback_trace :
    (execute step {} (addWriting.map .call)).bind (fun first =>
      (step first.1 (.perform (some 0) [] 0)).bind fun next =>
        (execute step next.1 oneCallback).map fun last => (first.2, next.2, last.2,
          decide (first.1.performs.length = 0 ∧ next.1.performs.length = 1 ∧
            0 ∈ (next.1.handles.multis 0).locals ∧ last.1.performs.length = 0 ∧
            Along step (inside 0) next.1 oneCallback))) =
      some (addedWriting, [],
        [.delivering 0 0, .called 0 0 bodyCall, .of (.queued 0 0), .of (.performed 0 0 0)], true) := by
  decide +kernel

theorem perform_returns_once :
    ∃ a b, [.delivering 0 0, .called 0 0 bodyCall, .of (.queued 0 0), .of (.performed 0 0 0)] =
      a ++ b ∧ Told 0 (addedWriting ++ [] ++ a) := by
  obtain ⟨⟨g₀, tr₀⟩, hrun, hnext⟩ := Option.bind_eq_some_iff.mp oneCallback_trace
  obtain ⟨⟨g₁, ev⟩, hstep, hlast⟩ := Option.bind_eq_some_iff.mp hnext
  obtain ⟨⟨g, tr⟩, hinside, heq⟩ := Option.map_eq_some_iff.mp hlast
  simp only [Prod.mk.injEq, decide_eq_true_eq] at heq
  obtain ⟨rfl, rfl, rfl, hnone, hone, hcopied, hleft, halong⟩ := heq
  have hinside : Reaches step (inside g₀.performs.length) g₁
      [.delivering 0 0, .called 0 0 bodyCall, .of (.queued 0 0), .of (.performed 0 0 0)] g := by
    rw [hnone]
    exact reaches_of_execute _ hinside halong
  obtain ⟨-, m, hm, hpassed, -⟩ := (perform_returns (reaches_of_run hrun) hstep
    (by rw [hone, hnone]) hinside).2 (by rw [hleft, hnone])
  obtain rfl := Option.some.inj hm
  obtain ⟨a, b, -, -, -, htrace, -, -, -, -, htold⟩ := hpassed 0 hcopied
  exact ⟨a, b, htrace, htold⟩

/-! ## A transfer that is nowhere -/

/-- The call is to deliver the transfer, or is in the middle of it. -/
def Holds (p : Performing) (x : Slot) : Prop := x ∈ p.rest ∨ ∃ parts, p.current = some (x, parts)

/-- The event names the transfer. -/
def Reports (m : MultiSlot) (x : Slot) : Sound → Prop
  | .of e => e.Reports m x
  | .delivering m' x' => m' = m ∧ x' = x
  | .called m' x' _ => m' = m ∧ x' = x

/-- It is in none of the four places, and no call of `multi::perform` holds it. -/
structure Away (g : Nest) (m : MultiSlot) (x : Slot) : Prop where
  absent : g.handles.Absent m x
  unheld : ∀ p ∈ g.performs, p.multi = m → ¬ Holds p x

theorem absent_collect {s : Handles} {m : MultiSlot} {x : Slot} (absent : s.Absent m x)
    (m' : MultiSlot) : (s.collect m').1.Absent m x := by
  have hlocals : x ∉ (s.multis m).locals := List.count_eq_zero.mp absent.locals
  obtain ⟨taken, hperm, -, -, -, hring, htransfers, hothers⟩ := collect_spec s m'
  have hhand : (s.collect m').1.inHand m x = s.inHand m x := by
    unfold inHand
    rw [htransfers]
  by_cases hm : m = m'
  · subst hm
    have hhandle : ((s.collect m).1.multis m).handle = (s.multis m).handle := by
      rw [collect, multis_setMulti, if_pos rfl]
    refine ⟨?_, ?_, hhand.trans absent.hand, ?_⟩
    · exact List.count_eq_zero.mpr fun hmem => hlocals (collect_locals s m m hmem)
    · unfold inRing
      rw [hring, List.countP_append, List.countP_map, Nat.add_eq_zero_iff]
      refine ⟨absent.ring, List.countP_eq_zero.mpr ?_⟩
      intro x' hmem heq
      obtain rfl : x' = x := of_decide_eq_true heq
      exact hlocals (hperm.mem_iff.mpr (List.mem_append_right _ hmem))
    · unfold inMsglist
      rw [hhandle]
      exact absent.msglist
  · apply absent.of_counts _ _ hhand
    · unfold inMsglist
      rw [hothers m hm]
    · unfold inLocals
      rw [hothers m hm]
    · unfold inRing
      rw [hothers m hm]

theorem Away.advances {g g' : Nest} {m : MultiSlot} {x : Slot} {p p' : Performing}
    {ps : List Performing} (away : Away g m x) (habsent : g'.handles.Absent m x)
    (hbefore : g.performs = p :: ps) (hafter : g'.performs = p' :: ps) (hmulti : p'.multi = p.multi)
    (hholds : Holds p' x → Holds p x) : Away g' m x where
  absent := habsent
  unheld q hq hm := by
    rw [hafter] at hq
    rcases List.mem_cons.mp hq with rfl | hq
    · have hold := away.unheld p (by rw [hbefore]; exact List.mem_cons_self) (hmulti.symm.trans hm)
      exact fun hin => hold (hholds hin)
    · exact away.unheld q (by rw [hbefore]; exact List.mem_cons_of_mem _ hq) hm

theorem Away.unnamed {g : Nest} {m : MultiSlot} {x y : Slot} {p : Performing}
    {ps : List Performing} (away : Away g m x) (hbefore : g.performs = p :: ps) (hy : Holds p y) :
    ¬ (p.multi = m ∧ y = x) := by
  rintro ⟨hm, rfl⟩
  exact away.unheld p (by rw [hbefore]; exact List.mem_cons_self) hm hy

theorem Away.step {g g' : Nest} {m : MultiSlot} {x : Slot} {move : Move} {ev : List Sound}
    (away : Away g m x) (h : Happens g move g' ev)
    (hadded : ∀ here, .of (.added m x .ok here) ∉ ev) :
    Away g' m x ∧ ∀ e ∈ ev, ¬ Reports m x e := by
  cases h with
  | call hother hstep =>
    obtain ⟨habsent, hquiet⟩ := away.absent.step hstep fun here hmem =>
      hadded here (List.mem_map_of_mem hmem)
    exact ⟨⟨habsent, away.unheld⟩, List.forall_mem_map.mpr hquiet⟩
  | still calling => exact ⟨⟨away.absent, away.unheld⟩, by simp⟩
  | pass hmulti hcurl =>
    obtain ⟨habsent, hquiet⟩ := away.absent.curlPerform hcurl
    refine ⟨⟨habsent, away.unheld⟩, List.forall_mem_map.mpr ?_⟩
    intro e he
    rcases List.mem_append.mp he with he | he
    · exact hquiet e he
    · rw [List.mem_singleton.mp he]
      exact id
  | @enter m' m₁ work alive s ev hmulti hcurl =>
    obtain ⟨habsent, hquiet⟩ := away.absent.curlPerform hcurl
    refine ⟨⟨habsent, ?_⟩, List.forall_mem_map.mpr hquiet⟩
    intro p hp hm
    rcases List.mem_cons.mp hp with rfl | hp
    · obtain rfl : m₁ = m := hm
      rintro (hin | ⟨parts, hcurrent⟩)
      · exact List.count_eq_zero.mp habsent.locals hin
      · cases hcurrent
    · exact away.unheld p hp hm
  | @part p ps y part parts hbefore hcurrent calling =>
    constructor
    · refine away.advances away.absent hbefore rfl rfl ?_
      rintro (hin | ⟨parts', hcurrent'⟩)
      · exact .inl hin
      · obtain ⟨rfl, -⟩ := Prod.mk.inj (Option.some.inj hcurrent')
        exact .inr ⟨_, hcurrent⟩
    · intro e he
      obtain ⟨c, -, rfl⟩ := List.mem_map.mp he
      exact away.unnamed hbefore (.inr ⟨_, hcurrent⟩)
  | finish hbefore hcurrent =>
    refine ⟨away.advances away.absent hbefore rfl rfl ?_, by simp⟩
    rintro (hin | ⟨parts', hcurrent'⟩)
    · exact .inl hin
    · cases hcurrent'
  | skip hbefore hcurrent hrest hdelivered =>
    refine ⟨away.advances away.absent hbefore rfl rfl ?_, by simp⟩
    rintro (hin | ⟨parts', hcurrent'⟩)
    · exact .inl (by rw [hrest]; exact List.mem_cons_of_mem _ hin)
    · exact .inr ⟨parts', hcurrent'⟩
  | @begin p ps y rest hbefore hcurrent hrest hdelivered =>
    have hfewer : Fewer (fun _ _ => True) g.handles
        (g.handles.setTransfer y { g.handles.transfers y with delivered := true }) :=
      setTransfer_fewer g.handles rfl
    have hholds : Holds p y := .inl (by rw [hrest]; exact List.mem_cons_self)
    constructor
    · refine away.advances (hfewer.absent away.absent) hbefore rfl rfl ?_
      rintro (hin | ⟨parts', hcurrent'⟩)
      · exact .inl (by rw [hrest]; exact List.mem_cons_of_mem _ hin)
      · obtain ⟨rfl, -⟩ := Prod.mk.inj (Option.some.inj hcurrent')
        exact hholds
    · intro e he
      rw [List.mem_singleton.mp he]
      exact away.unnamed hbefore hholds
  | @leave p ps hbefore hcurrent hrest =>
    refine ⟨⟨absent_collect away.absent p.multi, ?_⟩, List.forall_mem_map.mpr ?_⟩
    · intro q hq
      exact away.unheld q (by rw [hbefore]; exact List.mem_cons_of_mem _ hq)
    · obtain ⟨taken, hperm, hevents, -⟩ := collect_spec g.handles p.multi
      intro e he
      rcases List.mem_append.mp he with he | he
      · rw [hevents] at he
        obtain ⟨y, hmem, rfl⟩ := List.mem_map.mp he
        rintro ⟨rfl, rfl⟩
        have hin := hperm.mem_iff.mpr (List.mem_append_right _ hmem)
        exact List.count_eq_zero.mp away.absent.locals hin
      · rw [List.mem_singleton.mp he]
        exact id

theorem Away.reaches {ok : Nest → Move → Prop} {g g' : Nest} {m : MultiSlot} {x : Slot}
    {tr : List Sound} (away : Away g m x) (hrun : Reaches Nest.step ok g tr g')
    (hadded : ∀ here, .of (.added m x .ok here) ∉ tr) : ∀ e ∈ tr, ¬ Reports m x e := by
  have hall : (∀ here, .of (.added m x .ok here) ∉ tr) →
      Away g' m x ∧ ∀ e ∈ tr, ¬ Reports m x e := by
    refine hrun.invariant (P := fun tr g => (∀ here, .of (.added m x .ok here) ∉ tr) →
      Away g m x ∧ ∀ e ∈ tr, ¬ Reports m x e) (fun _ => ⟨away, by simp⟩) ?_
    intro tr g move g' ev ih _ hstep hnone
    obtain ⟨away, hquiet⟩ := ih fun here hmem => hnone here (List.mem_append_left _ hmem)
    obtain ⟨away', hquiet'⟩ := away.step (happens hstep) fun here hmem =>
      hnone here (List.mem_append_right _ hmem)
    exact ⟨away', List.forall_mem_append.mpr ⟨hquiet, hquiet'⟩⟩
  exact (hall hadded).2

/-! ## Removing -/

theorem accounted_step {g g' : Nest} {move : Move} {ev : List Sound} (acc : g.handles.Accounted)
    (h : Happens g move g' ev) : g'.handles.Accounted := by
  cases h with
  | call hother hstep => exact acc.step hstep
  | still calling => exact acc
  | pass hmulti hcurl => exact acc.curlPerform hcurl
  | enter hmulti hcurl => exact acc.curlPerform hcurl
  | part hbefore hcurrent calling => exact acc
  | finish hbefore hcurrent => exact acc
  | skip hbefore hcurrent hrest hdelivered => exact acc
  | begin hbefore hcurrent hrest hdelivered => exact acc.setTransfer rfl
  | leave hbefore hcurrent hrest => exact acc.setMulti rfl

theorem removed_cases {g g' : Nest} {move : Move} {ev : List Sound} (h : Happens g move g' ev)
    {m : MultiSlot} {x : Slot} {code : MultiCode} (hmem : .of (.removed m x code) ∈ ev) :
    move = .call (.multiRemoveHandle (some m) (some x)) ∧ g'.performs = g.performs ∧
      g.handles.remove m x = (code, g'.handles) ∧ ev = [.of (.removed m x code)] := by
  cases h with
  | call hother hstep =>
    obtain ⟨⟨rfl, -, -, hremove⟩, honly⟩ := step_causes hstep (of_mem.mp hmem)
    rw [honly rfl]
    exact ⟨rfl, rfl, hremove, rfl⟩
  | pass hmulti hcurl =>
    rcases pass_events hcurl _ (of_mem.mp hmem) with ⟨y, heq⟩ | heq <;> cases heq
  | enter hmulti hcurl =>
    obtain ⟨y, heq⟩ := curlPerform_called hcurl _ (of_mem.mp hmem)
    cases heq
  | @leave p ps hbefore hcurrent hrest =>
    obtain ⟨taken, -, hevents, -⟩ := collect_spec g.handles p.multi
    rw [hevents] at hmem
    simp at hmem
  | _ => simp at hmem

theorem reaches_accounted {tr : List Sound} {g : Nest} (hrun : Reaches step always {} tr g) :
    g.handles.Accounted := by
  refine hrun.state_invariant (P := fun g => g.handles.Accounted) start_accounted ?_
  intro g move g' ev acc _ hstep
  exact accounted_step acc (happens hstep)

/-- Once `multi::remove` has returned, nothing is heard of the transfer until it is added again,
provided that all of it was found and no call of `multi::perform` held it. -/
theorem quiet_once_removed {tr₀ ev tr : List Sound} {g₀ g₁ g : Nest} {move : Move}
    {m : MultiSlot} {x : Slot} (hrun : Reaches step always {} tr₀ g₀)
    (hstep : step g₀ move = some (g₁, ev)) (hremoved : .of (.removed m x .ok) ∈ ev)
    (hfound : g₀.handles.Removable m x)
    (hunheld : ∀ p ∈ g₀.performs, p.multi = m → ¬ Holds p x)
    (hlater : Reaches step always g₁ tr g) (hadded : ∀ here, .of (.added m x .ok here) ∉ tr) :
    ∀ e ∈ tr, ¬ Reports m x e := by
  obtain ⟨-, hperforms, hremove, -⟩ := removed_cases (happens hstep) hremoved
  have away : Away g₁ m x :=
    ⟨hfound.absent (reaches_accounted hrun) hremove, by rw [hperforms]; exact hunheld⟩
  exact away.reaches hlater hadded

section Run

theorem holds_iff (p : Performing) (x : Slot) :
    (p.rest.any (fun y => decide (y = x)) || p.current.any fun d => decide (d.1 = x)) = true ↔
      Holds p x := by
  rw [Bool.or_eq_true, List.any_eq_true, Option.any_eq_true]
  apply or_congr
  · constructor
    · rintro ⟨y, hmem, heq⟩
      obtain rfl : y = x := of_decide_eq_true heq
      exact hmem
    · intro hmem
      exact ⟨x, hmem, decide_eq_true rfl⟩
  · constructor
    · rintro ⟨⟨y, parts⟩, hcurrent, heq⟩
      obtain rfl : y = x := of_decide_eq_true heq
      exact ⟨parts, hcurrent⟩
    · rintro ⟨parts, hcurrent⟩
      exact ⟨(x, parts), hcurrent, decide_eq_true rfl⟩

instance (p : Performing) (x : Slot) : Decidable (Holds p x) :=
  decidable_of_iff
    ((p.rest.any (fun y => decide (y = x)) || p.current.any fun d => decide (d.1 = x)) = true)
    (holds_iff p x)

/-- A second transfer is added to the first. -/
def addSecond : List Entry :=
  addWriting ++ [.easyInit true,
    .easySetopt (some 1)
      (.url (some "https://privacy.xboxlive.com/users/xuid(9)/permission/validate".toList)),
    .multiAddHandle (some 0) (some 1) true]

def removeSecond : Move := .call (.multiRemoveHandle (some 0) (some 1))

theorem removeFirst_trace :
    (execute step {} (addSecond.map .call)).bind (fun first =>
      (step first.1 removeSecond).bind fun next =>
        (execute step next.1 [.perform (some 0) [] 0, .goOn]).map fun last => (next.2, last.2,
          decide (first.1.handles.Removable 0 1 ∧
            ∀ p ∈ first.1.performs, p.multi = 0 → ¬ Holds p 1))) =
      some ([.of (.removed 0 1 .ok)], [.delivering 0 0], true) := by
  decide +kernel

theorem quiet_once_removed_first : ¬ Reports 0 1 (.delivering 0 0) := by
  obtain ⟨⟨g₀, tr₀⟩, hrun, hnext⟩ := Option.bind_eq_some_iff.mp removeFirst_trace
  obtain ⟨⟨g₁, ev⟩, hstep, hlast⟩ := Option.bind_eq_some_iff.mp hnext
  obtain ⟨⟨g, tr⟩, hlater, heq⟩ := Option.map_eq_some_iff.mp hlast
  simp only [Prod.mk.injEq, decide_eq_true_eq] at heq
  obtain ⟨rfl, rfl, hfound, hunheld⟩ := heq
  exact quiet_once_removed (reaches_of_run hrun) hstep (List.mem_singleton_self _) hfound hunheld
    (reaches_of_run hlater) (by simp) _ (List.mem_singleton_self _)

/-- The first callback is called, and removes the second transfer. -/
def removesInside : List Move :=
  addSecond.map .call ++ [.perform (some 0) [] 0, .goOn, .goOn, .goOn, .goOn, .goOn, .goOn]

theorem removesInside_trace :
    (execute step {} removesInside).bind (fun first =>
      (step first.1 removeSecond).bind fun next =>
        (execute step next.1 [.giveBack, .goOn, .goOn]).map fun last => (next.2, last.2,
          decide (first.1.handles.Removable 0 1))) =
      some ([.of (.removed 0 1 .ok)], [.delivering 0 1], true) := by
  decide +kernel

theorem removed_transfer_is_delivered :
    ¬ ∀ (tr₀ ev tr : List Sound) (g₀ g₁ g : Nest) (move : Move) (m : MultiSlot) (x : Slot),
      Reaches step always {} tr₀ g₀ → step g₀ move = some (g₁, ev) →
      .of (.removed m x .ok) ∈ ev → g₀.handles.Removable m x → Reaches step always g₁ tr g →
      (∀ here, .of (.added m x .ok here) ∉ tr) → ∀ e ∈ tr, ¬ Reports m x e := by
  intro claim
  obtain ⟨⟨g₀, tr₀⟩, hrun, hnext⟩ := Option.bind_eq_some_iff.mp removesInside_trace
  obtain ⟨⟨g₁, ev⟩, hstep, hlast⟩ := Option.bind_eq_some_iff.mp hnext
  obtain ⟨⟨g, tr⟩, hlater, heq⟩ := Option.map_eq_some_iff.mp hlast
  simp only [Prod.mk.injEq, decide_eq_true_eq] at heq
  obtain ⟨rfl, rfl, hfound⟩ := heq
  have hquiet := claim _ _ _ g₀ g₁ g _ 0 1 (reaches_of_run hrun) hstep (List.mem_singleton_self _)
    hfound (reaches_of_run hlater) (by simp)
  exact hquiet _ (List.mem_singleton_self _) ⟨rfl, rfl⟩

end Run

end Nest

end IW4x.XCurl
