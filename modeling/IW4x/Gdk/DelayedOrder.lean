import IW4x.Gdk.PortSleep

/-!
# The order of delayed callbacks

Of two callbacks the one that was submitted first and is due no later is before the other in the
ring, and so it is taken first, as long as `due` never moves the callback at the head past a later one
that is due no earlier. Where the first callback that is due is behind the head, it does move the head
past whatever is between.
-/

namespace IW4x.Gdk

open Runs

namespace TimedPort

variable {α : Type}

def dueTime (t : Stamped α) : ℕ := t.made + t.delay

/-- The order that the callbacks should leave the ring in. -/
def Before (a b : Item (Stamped α)) : Prop :=
  a.callback.number < b.callback.number ∨ a.due < b.due

/-- The head is moved past no callback that was submitted later and is due no earlier. -/
def KeepsHead (p : TaskPort (Stamped α)) (now : ℕ) : Prop :=
  ∀ head between y after, p.ring.contents = head :: between ++ y :: after →
    (∀ z ∈ head :: between, now < z.due) → y.due ≤ now → ∀ z ∈ between, Before z head

/-- Taking a callback in this step keeps the order of the ring; a terminated port gives out its
head. -/
def KeepsOrder (s : TimedPort α) : TimedAct α → Prop
  | .dispatch _ _ looked _ _ | .resume _ looked _ =>
    s.port.terminated = true ∨ KeepsHead s.port looked
  | _ => True

/-- Of two accepted callbacks, the first of which is due no later or has the same delay, the second
is only taken after the first. -/
structure TakenInOrder (tr : List (TimedEvent α)) : Prop where
  due : ∀ x y, [.accepted x, .accepted y].Sublist tr → dueTime x ≤ dueTime y →
    ∀ a now live b, tr = a ++ .took y now live :: b → ∃ now' live', .took x now' live' ∈ a
  delay : ∀ x y, [.accepted x, .accepted y].Sublist tr → x.delay = y.delay →
    ∀ a now live b, tr = a ++ .took y now live :: b → ∃ now' live', .took x now' live' ∈ a

/-! ## What was accepted -/

/-- The callbacks that were accepted, in order. -/
def acceptedAll (tr : List (TimedEvent α)) : List (Stamped α) :=
  tr.filterMap fun
    | .accepted t => some t
    | _ => none

@[simp] theorem acceptedAll_append (tr ev : List (TimedEvent α)) :
    acceptedAll (tr ++ ev) = acceptedAll tr ++ acceptedAll ev :=
  List.filterMap_append

theorem mem_acceptedAll {tr : List (TimedEvent α)} {x : Stamped α} :
    x ∈ acceptedAll tr ↔ .accepted x ∈ tr := by
  simp only [acceptedAll, List.mem_filterMap]
  constructor
  · rintro ⟨e, he, hx⟩
    split at hx
    · obtain rfl := Option.some.inj hx
      exact he
    · cases hx
  · intro hx
    exact ⟨_, hx, rfl⟩

def TakenIn (tr : List (TimedEvent α)) (x : Stamped α) : Prop := ∃ now live, .took x now live ∈ tr

/-- What is in the ring or was taken was accepted, in an order that the ring keeps; and whatever was
taken was taken after all that goes before it. -/
structure InPlace (tr : List (TimedEvent α)) (s : TimedPort α) : Prop where
  due : ∀ i ∈ s.port.ring.contents, i.due = dueTime i.callback
  ring : s.port.ring.contents.Pairwise Before
  below : ∀ i ∈ s.port.ring.contents, i.callback.number < s.submitted
  numbered : (acceptedAll tr).Pairwise fun x y => x.number < y.number ∧ x.made ≤ y.made
  known : ∀ x ∈ acceptedAll tr, x.number < s.submitted ∧ x.made ≤ s.clock ∧
    (TakenIn tr x ∨ ∃ i ∈ s.port.ring.contents, i.callback = x)
  taken : ∀ a e b, tr = a ++ e :: b → ∀ y now live, e = .took y now live →
    y.number < s.submitted ∧ ∀ x ∈ acceptedAll tr, x.number < y.number → dueTime x ≤ dueTime y →
      TakenIn a x

theorem InPlace.inOrder {tr : List (TimedEvent α)} {s : TimedPort α} (h : InPlace tr s) :
    TakenInOrder tr := by
  have numbers : ∀ x y, [TimedEvent.accepted x, .accepted y].Sublist tr →
      x ∈ acceptedAll tr ∧ x.number < y.number ∧ x.made ≤ y.made := by
    intro x y hsub
    have hmem : x ∈ acceptedAll tr := mem_acceptedAll.mpr (hsub.subset List.mem_cons_self)
    have hpair : (acceptedAll [.accepted x, .accepted y]).Sublist (acceptedAll tr) :=
      hsub.filterMap _
    exact ⟨hmem, by simpa [acceptedAll] using h.numbered.sublist hpair⟩
  constructor
  · intro x y hsub hdue a now live b htr
    obtain ⟨hx, hnumber, -⟩ := numbers x y hsub
    exact (h.taken a _ b htr y now live rfl).2 x hx hnumber hdue
  · intro x y hsub hdelay a now live b htr
    obtain ⟨hx, hnumber, hmade⟩ := numbers x y hsub
    apply (h.taken a _ b htr y now live rfl).2 x hx hnumber
    simp only [dueTime]
    omega

/-! ## What a step keeps -/

/-- Taking a callback keeps the order, if the head goes past nothing that it should not. -/
theorem take_pairwise {p : TaskPort (Stamped α)} {now : ℕ} {t : TaskPort.Taken (Stamped α)}
    (h : p.take now = some t) (keeps : p.terminated = true ∨ KeepsHead p now)
    (order : p.ring.contents.Pairwise Before) : t.port.ring.contents.Pairwise Before := by
  rcases TaskPort.take_split h with ⟨hcontents, -⟩ |
    ⟨x, between, after, hcontents, hrest, hlive, hdue, hx, hbetween⟩
  · rw [hcontents] at order
    exact order.of_cons
  · have hkeeps : ∀ z ∈ between, Before z x := by
      rcases keeps with hterm | hhead
      · rw [hterm] at hlive
        cases hlive
      · apply hhead x between t.item after hcontents ?_ hdue
        intro z hz
        rcases List.mem_cons.mp hz with rfl | hz
        · exact hx
        · exact hbetween z hz
    rw [hcontents, List.cons_append, List.pairwise_cons, List.pairwise_append,
      List.pairwise_cons] at order
    obtain ⟨hfirst, hmiddle, ⟨-, hlast⟩, hacross⟩ := order
    rw [hrest, List.pairwise_append, List.pairwise_cons]
    refine ⟨hmiddle, ⟨?_, hlast⟩, ?_⟩
    · intro z hz
      exact hfirst z (by simp [hz])
    · intro z hz w hw
      rcases List.mem_cons.mp hw with rfl | hw
      · exact hkeeps z hz
      · exact hacross z hz w (List.mem_cons_of_mem _ hw)

/-- What goes before the callback that is taken is no longer in the ring. -/
theorem take_first {p : TaskPort (Stamped α)} {now : ℕ} {t : TaskPort.Taken (Stamped α)}
    (h : p.take now = some t) (order : p.ring.contents.Pairwise Before) {z : Item (Stamped α)}
    (hz : z ∈ p.ring.contents) (number : z.callback.number < t.item.callback.number)
    (due : z.due ≤ t.item.due) : False := by
  have hbehind : ¬ Before t.item z := by
    rintro (hnumber | hdue) <;> omega
  have hne : z ≠ t.item := by
    rintro rfl
    exact lt_irrefl _ number
  rcases TaskPort.take_split h with ⟨hcontents, -⟩ |
    ⟨x, between, after, hcontents, -, -, hdue, hx, hbetween⟩
  · rw [hcontents] at hz order
    rcases List.mem_cons.mp hz with rfl | hz
    · exact hne rfl
    · exact hbehind (List.rel_of_pairwise_cons order hz)
  · -- what is before it in the ring is not yet due
    have hlate : ∀ w ∈ x :: between, now < w.due := by
      intro w hw
      rcases List.mem_cons.mp hw with rfl | hw
      · exact hx
      · exact hbetween w hw
    rw [hcontents] at hz order
    rcases List.mem_append.mp hz with hz | hz
    · have := hlate z hz
      omega
    · rcases List.mem_cons.mp hz with rfl | hz
      · exact hne rfl
      · exact hbehind (List.rel_of_pairwise_cons (List.pairwise_append.mp order).2.1 hz)

theorem InPlace.start (m : DispatchMode) (p : TaskPort (Stamped α)) (workers threads clock : ℕ) :
    InPlace [] (start m p workers threads clock) where
  due := fun i hi => by simp [TimedPort.start, TaskPort.openPort, RingBuffer.contents] at hi
  ring := by simp [TimedPort.start, TaskPort.openPort, RingBuffer.contents]
  below := fun i hi => by simp [TimedPort.start, TaskPort.openPort, RingBuffer.contents] at hi
  numbered := .nil
  known := fun x hx => by cases hx
  taken := fun a e b h => by simp at h

theorem TakenIn.append {tr : List (TimedEvent α)} {x : Stamped α} (h : TakenIn tr x)
    (ev : List (TimedEvent α)) : TakenIn (tr ++ ev) x := by
  obtain ⟨now, live, hx⟩ := h
  exact ⟨now, live, List.mem_append_left _ hx⟩

/-- A step that neither accepts nor takes a callback. -/
theorem InPlace.quiet {tr ev : List (TimedEvent α)} {s t : TimedPort α} (h : InPlace tr s)
    (ring : t.port.ring = s.port.ring) (submitted : t.submitted = s.submitted)
    (later : s.clock ≤ t.clock) (accepts : ∀ x, .accepted x ∉ ev)
    (takes : ∀ x now live, .took x now live ∉ ev) : InPlace (tr ++ ev) t := by
  have hnone : acceptedAll ev = [] := by
    apply List.eq_nil_iff_forall_not_mem.mpr
    intro x hx
    exact accepts x (mem_acceptedAll.mp hx)
  have hsame : acceptedAll (tr ++ ev) = acceptedAll tr := by
    rw [acceptedAll_append, hnone, List.append_nil]
  constructor
  · rw [ring]
    exact h.due
  · rw [ring]
    exact h.ring
  · rw [ring, submitted]
    exact h.below
  · rw [hsame]
    exact h.numbered
  · rw [hsame, ring, submitted]
    intro x hx
    obtain ⟨hnumber, hmade, hknown⟩ := h.known x hx
    exact ⟨hnumber, hmade.trans later, hknown.imp_left (·.append ev)⟩
  · rw [hsame, submitted]
    apply split_append h.taken
    rintro a e b rfl y now live rfl
    exact absurd (by simp) (takes y now live)

theorem InPlace.accepted {tr : List (TimedEvent α)} {s : TimedPort α} (h : InPlace tr s)
    {now delay : ℕ} {x : α} {p : TaskPort (Stamped α)} (later : s.clock ≤ now)
    (taken : s.port.submit now delay ⟨x, now, delay, s.submitted⟩ = .accepted p) :
    InPlace (tr ++ [.accepted ⟨x, now, delay, s.submitted⟩])
      { s with port := p, clock := now, wakes := s.wakes + 1, submitted := s.submitted + 1 } := by
  have hcontents := TaskPort.submit_contents taken
  have haccepted : acceptedAll (tr ++ [.accepted ⟨x, now, delay, s.submitted⟩]) =
      acceptedAll tr ++ [⟨x, now, delay, s.submitted⟩] := by
    rw [acceptedAll_append]
    rfl
  constructor
  · rw [hcontents]
    intro i hi
    rcases List.mem_append.mp hi with hi | hi
    · exact h.due i hi
    · rw [List.mem_singleton.mp hi]
      rfl
  · rw [hcontents]
    apply List.pairwise_append.mpr
    refine ⟨h.ring, List.pairwise_singleton _ _, ?_⟩
    intro i hi j hj
    rw [List.mem_singleton.mp hj]
    exact .inl (h.below i hi)
  · rw [hcontents]
    intro i hi
    rcases List.mem_append.mp hi with hi | hi
    · exact Nat.lt_succ_of_lt (h.below i hi)
    · rw [List.mem_singleton.mp hi]
      exact Nat.lt_succ_self _
  · rw [haccepted]
    apply List.pairwise_append.mpr
    refine ⟨h.numbered, List.pairwise_singleton _ _, ?_⟩
    intro y hy z hz
    rw [List.mem_singleton.mp hz]
    obtain ⟨hnumber, hmade, -⟩ := h.known y hy
    exact ⟨hnumber, hmade.trans later⟩
  · rw [haccepted, hcontents]
    intro y hy
    rcases List.mem_append.mp hy with hy | hy
    · obtain ⟨hnumber, hmade, hknown⟩ := h.known y hy
      refine ⟨Nat.lt_succ_of_lt hnumber, hmade.trans later, ?_⟩
      rcases hknown with htaken | ⟨i, hi, rfl⟩
      · exact .inl (htaken.append _)
      · exact .inr ⟨i, List.mem_append_left _ hi, rfl⟩
    · rw [List.mem_singleton.mp hy]
      exact ⟨Nat.lt_succ_self _, le_rfl, .inr ⟨_, List.mem_append_right _ List.mem_cons_self, rfl⟩⟩
  · rw [haccepted]
    apply split_append
    · intro a e b htr y at' live he
      obtain ⟨hnumber, hfirst⟩ := h.taken a e b htr y at' live he
      refine ⟨Nat.lt_succ_of_lt hnumber, ?_⟩
      intro z hz hlt hdue
      rcases List.mem_append.mp hz with hz | hz
      · exact hfirst z hz hlt hdue
      · -- the callback that is accepted now has a later number
        rw [List.mem_singleton.mp hz] at hlt
        exact absurd hlt (Nat.lt_asymm hnumber)
    · intro a e b hev y at' live he
      subst he
      cases a with
      | nil => cases hev
      | cons e' a => simp at hev

/-- A pass keeps everything in its place. -/
theorem InPlace.passed {tr ev : List (TimedEvent α)} {s t : TimedPort α} {i looked now : ℕ}
    {deadline : Option ℕ} (h : InPlace tr s) (later : s.clock ≤ looked) (after : looked ≤ now)
    (keeps : s.port.terminated = true ∨ KeepsHead s.port looked)
    (passed : Passed s i looked now deadline t ev) : InPlace (tr ++ ev) t := by
  cases passed with
  | gaveUp _ _ => exact h.quiet rfl rfl (later.trans after) (by simp) (by simp)
  | waits _ _ _ => exact h.quiet rfl rfl (later.trans after) (by simp) (by simp)
  | @took x htake =>
    have hsubset := TaskPort.take_subset htake
    have hitem : x.item ∈ s.port.ring.contents :=
      (TaskPort.take_perm htake).mem_iff.mpr List.mem_cons_self
    have hnone : acceptedAll (tr ++ [.took x.item.callback looked s.port.terminated]) =
        acceptedAll tr := by
      rw [acceptedAll_append]
      exact List.append_nil _
    constructor
    · exact fun i hi => h.due i (hsubset i hi)
    · exact take_pairwise htake keeps h.ring
    · exact fun i hi => h.below i (hsubset i hi)
    · rw [hnone]
      exact h.numbered
    · rw [hnone]
      intro y hy
      obtain ⟨hnumber, hmade, hknown⟩ := h.known y hy
      refine ⟨hnumber, hmade.trans later, ?_⟩
      rcases hknown with htaken | ⟨i, hi, rfl⟩
      · exact .inl (htaken.append _)
      · rcases List.mem_cons.mp ((TaskPort.take_perm htake).mem_iff.mp hi) with rfl | hi
        · exact .inl ⟨looked, s.port.terminated, by simp⟩
        · exact .inr ⟨i, hi, rfl⟩
    · rw [hnone]
      apply split_append h.taken
      intro a e b hev y at' live he
      subst he
      cases a with
      | cons e' a => simp at hev
      | nil =>
        obtain ⟨heq, -⟩ := List.cons.inj hev
        obtain ⟨rfl, -, -⟩ := TimedEvent.took.inj heq
        refine ⟨h.below _ hitem, ?_⟩
        intro z hz hlt hdue
        rw [List.append_nil]
        rcases (h.known z hz).2.2 with htaken | ⟨i, hi, rfl⟩
        · exact htaken
        · rw [← h.due i hi, ← h.due _ hitem] at hdue
          exact (take_first htake h.ring hi hlt hdue).elim

theorem InPlace.step {tr ev : List (TimedEvent α)} {s t : TimedPort α} {a : TimedAct α}
    (h : InPlace tr s) (keeps : KeepsOrder s a) (stepped : Stepped s a t ev) :
    InPlace (tr ++ ev) t := by
  cases stepped with
  | accepted later taken => exact h.accepted later taken
  | refused later => exact h.quiet rfl rfl later (by simp) (by simp)
  | unheard _ => exact h.quiet rfl rfl le_rfl (by simp) (by simp)
  | woke _ => exact h.quiet rfl rfl le_rfl (by simp) (by simp)
  | empty => exact h.quiet rfl rfl le_rfl (by simp) (by simp)
  | entered later after _ passed => exact h.passed later after keeps passed
  | resumed later after _ passed => exact h.passed later after keeps passed
  | terminated port =>
    refine h.quiet ?_ rfl le_rfl (by simp) (by simp)
    rcases port with ⟨-, rfl⟩ | ⟨-, rfl⟩ <;> rfl

/-- In every run in which `due` never moves the head of the ring past a callback that was submitted
later and is due no earlier, callbacks are taken in the order of their submission unless the later
one is due earlier; and those of one delay always. -/
theorem taken_in_order {m : DispatchMode} {p : TaskPort (Stamped α)} {workers threads clock : ℕ}
    {tr : List (TimedEvent α)} {s : TimedPort α}
    (run : Reaches TimedPort.step KeepsOrder (TimedPort.start m p workers threads clock) tr s) :
    TakenInOrder tr := by
  have hplace := run.invariant (P := InPlace) (InPlace.start m p workers threads clock)
    fun tr s a t ev hplace keeps h => hplace.step keeps (step_cases h)
  exact hplace.inOrder

theorem keepsHead_of_second {p : TaskPort (Stamped α)} {now : ℕ} {x y : Item (Stamped α)}
    {rest : List (Item (Stamped α))} (hcontents : p.ring.contents = x :: y :: rest)
    (due : y.due ≤ now) : KeepsHead p now := by
  intro head between z after hsplit late hdue w hw
  cases between with
  | nil => cases hw
  | cons v between =>
    rw [hcontents, List.cons_append, List.cons_append] at hsplit
    obtain ⟨-, htail⟩ := List.cons.inj hsplit
    obtain ⟨rfl, -⟩ := List.cons.inj htail
    have := late y (by simp)
    omega

/-- The first callback is due last. -/
def lateHead : List (TimedAct ℕ) :=
  [.submit 0 100 1, .submit 0 50 2, .submit 0 50 3]

theorem lateHead_contents :
    (execute TimedPort.step (TimedPort.start .manual (.fresh : TaskPort (Stamped ℕ)) 0 1 0)
      lateHead).map (fun last => last.1.port.ring.contents) =
      some [⟨⟨1, 0, 100, 0⟩, 100⟩, ⟨⟨2, 0, 50, 1⟩, 50⟩, ⟨⟨3, 0, 50, 2⟩, 50⟩] := by
  decide

theorem lateHead_trace :
    (execute TimedPort.step (TimedPort.start .manual (.fresh : TaskPort (Stamped ℕ)) 0 1 0)
      (lateHead ++ [.dispatch 0 60 60 60 (some 0)])).map Prod.snd =
      some [.accepted ⟨1, 0, 100, 0⟩, .accepted ⟨2, 0, 50, 1⟩, .accepted ⟨3, 0, 50, 2⟩,
        .took ⟨2, 0, 50, 1⟩ 60 false] := by
  decide

theorem taken_in_order_late :
    ∃ (tr : List (TimedEvent ℕ)) (s : TimedPort ℕ),
      Reaches TimedPort.step KeepsOrder (TimedPort.start .manual .fresh 0 1 0) tr s ∧
        TakenInOrder tr ∧ .took ⟨2, 0, 50, 1⟩ 60 false ∈ tr := by
  obtain ⟨⟨s, tr⟩, hrun, htrace⟩ := Option.map_eq_some_iff.mp lateHead_trace
  obtain ⟨t, tr₁, ev, hfirst, hstep, rfl⟩ := execute_concat hrun
  have hcontents : t.port.ring.contents =
      [⟨⟨1, 0, 100, 0⟩, 100⟩, ⟨⟨2, 0, 50, 1⟩, 50⟩, ⟨⟨3, 0, 50, 2⟩, 50⟩] := by
    have h := lateHead_contents
    rw [hfirst] at h
    exact Option.some.inj h
  have along : Along TimedPort.step KeepsOrder (TimedPort.start .manual .fresh 0 1 0) lateHead :=
    ⟨trivial, fun _ _ _ => ⟨trivial, fun _ _ _ => ⟨trivial, fun _ _ _ => trivial⟩⟩⟩
  have keeps : KeepsOrder t (.dispatch 0 60 60 60 (some 0)) :=
    .inr (keepsHead_of_second hcontents (by decide))
  have run := Reaches.next (reaches_of_execute lateHead hfirst along) keeps hstep
  refine ⟨_, s, run, taken_in_order run, ?_⟩
  change tr₁ ++ ev = _ at htrace
  rw [htrace]
  simp

/-- The callbacks 1 and 2 have one delay, and the third is due before them. -/
def passedBy : List (TimedAct ℕ) :=
  [.submit 0 100 1, .submit 0 100 2, .submit 0 50 3, .dispatch 0 60 60 60 (some 0),
    .dispatch 0 100 100 100 (some 0)]

theorem passedBy_trace :
    (execute TimedPort.step (TimedPort.start .manual (.fresh : TaskPort (Stamped ℕ)) 0 1 0)
      passedBy).map Prod.snd =
      some ([.accepted ⟨1, 0, 100, 0⟩, .accepted ⟨2, 0, 100, 1⟩, .accepted ⟨3, 0, 50, 2⟩,
        .took ⟨3, 0, 50, 2⟩ 60 false] ++ .took ⟨2, 0, 100, 1⟩ 100 false :: []) := by
  decide

/-- The third callback is taken from behind the second, and the first goes where it was. -/
theorem taken_out_of_order :
    ¬ ∀ (tr : List (TimedEvent ℕ)) (s : TimedPort ℕ),
      Reaches TimedPort.step always (TimedPort.start .manual .fresh 0 1 0) tr s →
        TakenInOrder tr := by
  intro claim
  obtain ⟨⟨s, tr⟩, hrun, htrace⟩ := Option.map_eq_some_iff.mp passedBy_trace
  have hsub : [TimedEvent.accepted (⟨1, 0, 100, 0⟩ : Stamped ℕ),
      .accepted ⟨2, 0, 100, 1⟩].Sublist tr := by
    change tr = _ at htrace
    rw [htrace]
    simp
  obtain ⟨now, live, hmem⟩ :=
    (claim tr s (reaches_of_run hrun)).delay _ _ hsub rfl _ _ _ _ htrace
  simp at hmem

end TimedPort

end IW4x.Gdk
