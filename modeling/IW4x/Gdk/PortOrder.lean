import IW4x.Gdk.TimedPort

/-!
# The order of callbacks

`due` exchanges the first callback that is due with the one at the head, so the ring does not keep the
order of submission. A callback without delay is due as soon as it is submitted: none is ever moved
past another, and none is behind what is due later.
-/

namespace IW4x.Gdk

open Runs

namespace TaskPort

variable {α : Type}

/-- Taking a callback brings the first that is due out of the ring, and puts the head in its place;
or it takes the head, whether it is due or not, if the port is terminated. -/
theorem take_split {p : TaskPort α} {now : ℕ} {t : Taken α} (h : p.take now = some t) :
    (p.ring.contents = t.item :: t.port.ring.contents ∧ (p.terminated = false → t.item.due ≤ now)) ∨
      ∃ x between after, p.ring.contents = x :: between ++ t.item :: after ∧
        t.port.ring.contents = between ++ x :: after ∧ p.terminated = false ∧ t.item.due ≤ now ∧
        now < x.due ∧ ∀ y ∈ between, now < y.due := by
  unfold take at h
  obtain ⟨q, hq, rfl⟩ := Option.map_eq_some_iff.mp h
  unfold due at hq
  split_ifs at hq with hempty hterm
  · cases hq
    refine .inl ⟨?_, fun hlive => absurd hlive (by simp [hterm])⟩
    rw [p.ring.contents_pop]
    exact p.ring.head_contents (by omega)
  · split at hq
    · cases hq
    · rename_i hfirst
      cases hq
      refine .inl ⟨?_, fun _ => by simpa using List.find?_some hfirst⟩
      rw [p.ring.contents_pop]
      exact p.ring.head_contents (by omega)
    · rename_i i hne hfirst
      cases hq
      have hi := firstDue_lt hfirst
      have hdue : (p.ring.get i).due ≤ now := by simpa using List.find?_some hfirst
      have hlate : ∀ j < i, now < (p.ring.get j).due := by
        intro j hj
        simpa using (List.find?_range_eq_some.mp hfirst).2.2 j hj
      obtain ⟨k, rfl⟩ := Nat.exists_eq_succ_of_ne_zero hne
      have hhead := p.ring.head_contents (by omega)
      have htail : ∀ j < k + 1, p.ring.contents.tail[j]? = some (p.ring.get (j + 1)) := by
        intro j hj
        rw [List.getElem?_tail, p.ring.contents_getElem? (by omega)]
      have hlength : k < p.ring.contents.tail.length := by
        rw [List.length_tail, RingBuffer.length_contents]
        omega
      have hget : p.ring.contents.tail[k] = p.ring.get (k + 1) := by
        have := htail k (by omega)
        rw [List.getElem?_eq_getElem hlength] at this
        exact Option.some.inj this
      have hsplit : p.ring.contents = p.ring.get 0 :: p.ring.contents.tail.take k ++
          p.ring.get (k + 1) :: p.ring.contents.tail.drop (k + 1) := by
        rw [← hget, List.cons_append, ← List.drop_eq_getElem_cons hlength, List.take_append_drop]
        exact hhead
      have hbrought := p.ring.contents_bringToHead_split hsplit
      rw [List.length_take, Nat.min_eq_left hlength.le] at hbrought
      have hitem : (p.ring.bringToHead (k + 1)).get 0 = p.ring.get (k + 1) := by
        have := (p.ring.bringToHead (k + 1)).contents_getElem? (i := 0) (by simpa using by omega)
        rw [hbrought] at this
        simpa using this.symm
      refine .inr ⟨p.ring.get 0, p.ring.contents.tail.take k, p.ring.contents.tail.drop (k + 1),
        ?_, ?_, by simpa using hterm, ?_, hlate 0 (by omega), ?_⟩
      · rw [hitem]
        exact hsplit
      · rw [RingBuffer.contents_pop, hbrought]
        rfl
      · rw [hitem]
        exact hdue
      · intro y hy
        obtain ⟨j, hj, rfl⟩ := List.mem_iff_getElem.mp hy
        rw [List.length_take] at hj
        have := htail j (by omega)
        rw [List.getElem?_eq_getElem (by omega)] at this
        rw [List.getElem_take, Option.some.inj this]
        exact hlate (j + 1) (by omega)

theorem take_perm {p : TaskPort α} {now : ℕ} {t : Taken α} (h : p.take now = some t) :
    p.ring.contents.Perm (t.item :: t.port.ring.contents) := by
  rcases take_split h with ⟨hcontents, -⟩ | ⟨x, between, after, hcontents, hrest, -⟩
  · rw [hcontents]
  · rw [hcontents, hrest]
    calc (x :: between ++ t.item :: after).Perm (t.item :: (x :: between ++ after)) :=
          List.perm_middle
      _ |>.Perm (t.item :: (between ++ x :: after)) := (List.perm_middle.symm).cons _

theorem take_subset {p : TaskPort α} {now : ℕ} {t : Taken α} (h : p.take now = some t) :
    ∀ x ∈ t.port.ring.contents, x ∈ p.ring.contents := fun _ hx =>
  (take_perm h).mem_iff.mpr (List.mem_cons_of_mem _ hx)

end TaskPort

namespace TimedPort

variable {α : Type}

/-! ## Callbacks without delay -/

/-- The callbacks without delay that were accepted, in order. -/
def acceptedPrompt (tr : List (TimedEvent α)) : List (Stamped α) :=
  tr.filterMap fun
    | .accepted t => if t.delay = 0 then some t else none
    | _ => none

/-- The callbacks without delay that were taken, in order. -/
def takenPrompt (tr : List (TimedEvent α)) : List (Stamped α) :=
  tr.filterMap fun
    | .took t _ _ => if t.delay = 0 then some t else none
    | _ => none

/-- The callbacks without delay that are in the ring, in the order of their places. -/
def queuedPrompt (p : TaskPort (Stamped α)) : List (Stamped α) :=
  p.callbacks.filter fun t => t.delay = 0

@[simp] theorem acceptedPrompt_append (tr ev : List (TimedEvent α)) :
    acceptedPrompt (tr ++ ev) = acceptedPrompt tr ++ acceptedPrompt ev :=
  List.filterMap_append

@[simp] theorem takenPrompt_append (tr ev : List (TimedEvent α)) :
    takenPrompt (tr ++ ev) = takenPrompt tr ++ takenPrompt ev :=
  List.filterMap_append

/-- What is taken, and what is in the ring, was accepted in this order; and nothing is taken before
it is due. -/
structure Ordered (tr : List (TimedEvent α)) (s : TimedPort α) : Prop where
  due : ∀ x ∈ s.port.ring.contents, x.due = x.callback.made + x.callback.delay ∧
    x.callback.made ≤ s.clock
  order : takenPrompt tr ++ queuedPrompt s.port = acceptedPrompt tr
  early : ∀ t now, .took t now false ∈ tr → t.made + t.delay ≤ now

/-- Of the callbacks without delay the first in the ring is taken, if one is taken. -/
theorem take_queuedPrompt {p : TaskPort (Stamped α)} {now : ℕ} {t : TaskPort.Taken (Stamped α)}
    (h : p.take now = some t)
    (due : ∀ x ∈ p.ring.contents, x.callback.delay = 0 → x.due ≤ now) :
    queuedPrompt p =
      (if t.item.callback.delay = 0 then [t.item.callback] else []) ++ queuedPrompt t.port := by
  unfold queuedPrompt TaskPort.callbacks
  rcases TaskPort.take_split h with ⟨hcontents, -⟩ |
    ⟨x, between, after, hcontents, hrest, -, -, hx, hbetween⟩
  · rw [hcontents, List.map_cons, List.filter_cons]
    split_ifs <;> simp_all
  · have late : ∀ y ∈ p.ring.contents, now < y.due → y.callback.delay ≠ 0 := by
      intro y hy hlate hprompt
      have := due y hy hprompt
      omega
    have hskip : x.callback.delay ≠ 0 := late x (by simp [hcontents]) hx
    have hnone : (between.map Item.callback).filter (fun t => t.delay = 0) = [] := by
      rw [List.filter_eq_nil_iff]
      intro c hc
      obtain ⟨y, hy, rfl⟩ := List.mem_map.mp hc
      simpa using late y (by simp [hcontents, hy]) (hbetween y hy)
    rw [hcontents, hrest]
    simp only [List.map_append, List.map_cons, List.filter_append, List.filter_cons, hskip, hnone,
      decide_false, Bool.false_eq_true, if_false, List.nil_append, List.cons_append]
    split_ifs <;> simp_all

theorem Ordered.start (m : DispatchMode) (p : TaskPort (Stamped α)) (workers threads clock : ℕ) :
    Ordered [] (start m p workers threads clock) where
  due := fun x hx => by simp [TimedPort.start, TaskPort.openPort, RingBuffer.contents] at hx
  order := rfl
  early := fun t now h => by cases h

theorem Ordered.later {tr : List (TimedEvent α)} {s t : TimedPort α} (ordered : Ordered tr s)
    (ring : t.port.ring = s.port.ring) (later : s.clock ≤ t.clock) : Ordered tr t where
  due := by
    rw [ring]
    exact fun x hx => ⟨(ordered.due x hx).1, (ordered.due x hx).2.trans later⟩
  order := by
    rw [queuedPrompt, TaskPort.callbacks, ring]
    exact ordered.order
  early := ordered.early

theorem Ordered.refused {tr : List (TimedEvent α)} {s : TimedPort α} (ordered : Ordered tr s) (x : α) :
    Ordered (tr ++ [.refused x]) s where
  due := ordered.due
  order := by simpa [takenPrompt, acceptedPrompt] using ordered.order
  early := fun t now h => ordered.early t now (by simpa using h)

/-- A pass keeps the order. -/
theorem Ordered.passed {tr ev : List (TimedEvent α)} {s t : TimedPort α} {i looked now : ℕ}
    {deadline : Option ℕ} (ordered : Ordered tr s) (later : s.clock ≤ looked) (after : looked ≤ now)
    (h : Passed s i looked now deadline t ev) : Ordered (tr ++ ev) t := by
  cases h with
  | gaveUp _ _ =>
    rw [List.append_nil]
    exact ordered.later rfl (later.trans after)
  | waits _ _ _ =>
    rw [List.append_nil]
    exact ordered.later rfl (later.trans after)
  | @took x htake =>
    have hprompt := take_queuedPrompt htake fun y hy hdelay => by
      obtain ⟨hdue, hmade⟩ := ordered.due y hy
      omega
    have hmem := TaskPort.take_subset htake
    have hitem : x.item ∈ s.port.ring.contents :=
      (TaskPort.take_perm htake).mem_iff.mpr List.mem_cons_self
    constructor
    · intro y hy
      obtain ⟨hdue, hmade⟩ := ordered.due y (hmem y hy)
      exact ⟨hdue, hmade.trans later⟩
    · have htaken : takenPrompt [TimedEvent.took x.item.callback looked s.port.terminated] =
          if x.item.callback.delay = 0 then [x.item.callback] else [] := by
        simp only [takenPrompt, List.filterMap_cons, List.filterMap_nil]
        split_ifs <;> rfl
      have haccepted :
          acceptedPrompt [TimedEvent.took x.item.callback looked s.port.terminated] = [] := rfl
      rw [takenPrompt_append, acceptedPrompt_append, htaken, haccepted, List.append_nil,
        List.append_assoc, ← hprompt]
      exact ordered.order
    · intro y at' hy
      rcases List.mem_append.mp hy with hy | hy
      · exact ordered.early y at' hy
      · obtain ⟨rfl, hat, hlive⟩ := by simpa using hy
        obtain ⟨hdue, -⟩ := ordered.due _ hitem
        have hnow : x.item.due ≤ looked := by
          rcases TaskPort.take_split htake with ⟨-, hnow⟩ | ⟨_, _, _, _, _, _, hnow, _⟩
          · exact hnow hlive
          · exact hnow
        omega

theorem Ordered.step {tr ev : List (TimedEvent α)} {s t : TimedPort α} {a : TimedAct α}
    (ordered : Ordered tr s) (h : Stepped s a t ev) : Ordered (tr ++ ev) t := by
  cases h with
  | @accepted now delay x p later taken =>
    have hcontents := TaskPort.submit_contents taken
    constructor
    · intro y hy
      rw [hcontents] at hy
      rcases List.mem_append.mp hy with hy | hy
      · exact ⟨(ordered.due y hy).1, (ordered.due y hy).2.trans later⟩
      · obtain rfl := List.mem_singleton.mp hy
        exact ⟨rfl, le_rfl⟩
    · have haccepted : acceptedPrompt [TimedEvent.accepted ⟨x, now, delay, s.submitted⟩] =
          if delay = 0 then [⟨x, now, delay, s.submitted⟩] else [] := by
        simp only [acceptedPrompt, List.filterMap_cons, List.filterMap_nil]
        split_ifs <;> rfl
      have hqueued : queuedPrompt p = queuedPrompt s.port ++
          if delay = 0 then [⟨x, now, delay, s.submitted⟩] else [] := by
        simp only [queuedPrompt, TaskPort.callbacks, hcontents, List.map_append, List.map_cons,
          List.map_nil, List.filter_append, List.filter_cons, List.filter_nil, decide_eq_true_eq]
      have htaken : takenPrompt [TimedEvent.accepted ⟨x, now, delay, s.submitted⟩] = [] := rfl
      rw [takenPrompt_append, acceptedPrompt_append, haccepted, htaken, List.append_nil, hqueued,
        ← List.append_assoc, ordered.order]
    · exact fun y at' hy => ordered.early y at' (by simpa using hy)
  | refused later => exact (ordered.refused _).later rfl later
  | unheard _ =>
    rw [List.append_nil]
    exact ordered.later rfl le_rfl
  | woke _ =>
    rw [List.append_nil]
    exact ordered.later rfl le_rfl
  | empty =>
    rw [List.append_nil]
    exact ordered
  | entered later after _ passed => exact ordered.passed later after passed
  | resumed later after _ passed => exact ordered.passed later after passed
  | terminated port =>
    rw [List.append_nil]
    refine ordered.later ?_ le_rfl
    rcases port with ⟨-, rfl⟩ | ⟨-, rfl⟩ <;> rfl

/-- In every run the callbacks without delay that were accepted are, in the order of their submission,
those that were taken, in the order in which they were taken, and then those in the ring; and unless
the port was terminated none is taken before it is due. -/
theorem prompt_in_order {m : DispatchMode} {p : TaskPort (Stamped α)} {workers threads clock : ℕ}
    {tr : List (TimedEvent α)} {s : TimedPort α}
    (run : Reaches TimedPort.step always (TimedPort.start m p workers threads clock) tr s) :
    takenPrompt tr ++ queuedPrompt s.port = acceptedPrompt tr ∧
      ∀ t now, .took t now false ∈ tr → t.made + t.delay ≤ now := by
  have hordered := run.invariant (P := Ordered) (Ordered.start m p workers threads clock)
    fun tr s a t ev hordered _ h => hordered.step (step_cases h)
  exact ⟨hordered.order, hordered.early⟩

/-- Three callbacks, of which the first is due last, and the ring is changed when the second is
taken. -/
def promptPastDelayed : List (TimedAct ℕ) :=
  [.submit 10 50 1, .submit 11 0 2, .submit 11 0 3, .dispatch 0 12 12 12 none,
    .dispatch 1 12 12 12 (some 0), .dispatch 0 60 60 60 none]

theorem promptPastDelayed_trace :
    (execute TimedPort.step (TimedPort.start .manual (.fresh : TaskPort (Stamped ℕ)) 0 2 0)
      promptPastDelayed).map (fun last => (takenPrompt last.2, queuedPrompt last.1.port)) =
      some ([⟨2, 11, 0, 1⟩, ⟨3, 11, 0, 2⟩], []) := by
  decide

theorem prompt_in_order_pastDelayed :
    ∃ (tr : List (TimedEvent ℕ)) (s : TimedPort ℕ),
      Reaches TimedPort.step always (TimedPort.start .manual .fresh 0 2 0) tr s ∧
        acceptedPrompt tr = [⟨2, 11, 0, 1⟩, ⟨3, 11, 0, 2⟩] := by
  obtain ⟨⟨s, tr⟩, hrun, htrace⟩ := Option.map_eq_some_iff.mp promptPastDelayed_trace
  obtain ⟨htaken, hqueued⟩ := Prod.mk.inj htrace
  have run := reaches_of_run hrun
  refine ⟨tr, s, run, ?_⟩
  rw [← (prompt_in_order run).1, htaken, hqueued]
  rfl

end TimedPort

end IW4x.Gdk
