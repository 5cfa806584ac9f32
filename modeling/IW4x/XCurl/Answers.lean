import IW4x.XCurl.Courses

/-!
# Every answer is delivered once and reported once

The array holds the transfers that were added and not queued, so what `multi::add` and
`multi::perform` say of its length they say of these transfers. Reading the ring empty makes room for
the whole array, so that one more `multi::perform` and as many reads leave nothing behind.
-/

namespace IW4x.XCurl

open Runs Handles

variable {w w' : Watched} {s s' : Handles} {ev tr : List Event} {m : MultiSlot} {h : Slot}

/-! ## The array -/

/-- The transfers that the client answers that were added to the multi handle in a run and are not
queued yet. -/
def unqueued (tr : List Event) (m : MultiSlot) : Finset Slot :=
  Finset.univ.filter fun h => tr.countP (Event.queues m h) < tr.countP (Event.addsAnswered m h)

theorem length_locals (hrun : Reaches watch polite watchStart tr w) (m : MultiSlot) :
    (w.handles.multis m).locals.length = (unqueued tr m).card := by
  obtain ⟨hkept, htallied⟩ := watchStart_kept.reaches hrun
  have hnodup : (w.handles.multis m).locals.Nodup := by
    rw [List.nodup_iff_count_le_one]
    intro h
    have hsum := hkept.answered m h
    change w.handles.inLocals m h ≤ 1
    split_ifs at hsum <;> omega
  rw [← List.toFinset_card_of_nodup hnodup]
  congr 1
  ext h
  have hcount := htallied.queued m h
  have hnone : watchStart.handles.inLocals m h = 0 := rfl
  have hmem : h ∈ (w.handles.multis m).locals ↔ 0 < w.handles.inLocals m h := List.count_pos_iff.symm
  rw [List.mem_toFinset, unqueued, Finset.mem_filter, hmem]
  constructor
  · intro hpos
    exact ⟨Finset.mem_univ h, by omega⟩
  · rintro ⟨-, hless⟩
    omega

theorem perform_last (pooled : s.Pooled) {work : List Work} {alive : ℕ}
    (hperform : s.perform m work alive = some (s', ev)) :
    ∃ evs, ev = evs ++ [.performed m alive (s'.multis m).locals.length] := by
  obtain ⟨s₁, ev₁, hcurl, ⟨hnone, rfl, rfl⟩ | ⟨-, -, rfl⟩⟩ := perform_cases hperform
  · refine ⟨ev₁, ?_⟩
    rw [← (pooled.curlPerform hcurl).answered m, hnone]
  · exact ⟨_, rfl⟩

/-! ## From the add on -/

/-- A transfer that is not added again is pending as it was, or not at all. -/
theorem pending_of_unadded {w₀ : Watched} (hrun : Reaches watch polite w₀ tr w)
    (hadded : ∀ m here, .added m h .ok here ∉ tr) :
    w.pending h = w₀.pending h ∨ w.pending h = none := by
  have hnote : ∀ (ev : List Event) (pending : Slot → Option (MultiSlot × Bool)),
      (∀ m here, Event.added m h .ok here ∉ ev) →
        ev.foldl note pending h = pending h ∨ ev.foldl note pending h = none := by
    intro ev
    induction ev with
    | nil => exact fun _ _ => .inl rfl
    | cons e ev ih =>
      intro pending hadded
      have hfirst : note pending e h = pending h ∨ note pending e h = none := by
        unfold note
        split
        · next m h' here =>
          left
          apply Function.update_of_ne
          rintro rfl
          exact hadded m here List.mem_cons_self
        · next h' _ _ =>
          by_cases hh : h = h'
          · subst hh
            exact .inr (Function.update_self ..)
          · exact .inl (Function.update_of_ne hh ..)
        · exact .inl rfl
      rw [List.foldl_cons]
      rcases ih (note pending e) fun m here hmem => hadded m here (List.mem_cons_of_mem _ hmem) with
        hrest | hrest
      · rw [hrest]
        exact hfirst
      · exact .inr hrest
  revert hadded
  refine hrun.invariant (P := fun tr w => (∀ m here, Event.added m h .ok here ∉ tr) →
    w.pending h = w₀.pending h ∨ w.pending h = none) (fun _ => .inl rfl) ?_
  intro tr w i w' ev ih _ hwatch hadded
  rw [(watch_some hwatch).2]
  rcases hnote ev w.pending fun m here hmem => hadded m here (List.mem_append_right _ hmem) with
    hlast | hlast
  · rw [hlast]
    exact ih fun m here hmem => hadded m here (List.mem_append_left _ hmem)
  · exact .inr hlast

theorem countP_adds_zero (hadded : ∀ m here, .added m h .ok here ∉ ev) (m : MultiSlot) :
    ev.countP (Event.adds m h) = 0 ∧ ev.countP (Event.addsAnswered m h) = 0 := by
  constructor
  · rw [List.countP_eq_zero]
    intro e he hadds
    unfold Event.adds at hadds
    split at hadds
    · obtain ⟨rfl, rfl⟩ := of_decide_eq_true hadds
      exact hadded _ _ he
    · cases hadds
  · rw [List.countP_eq_zero]
    intro e he hadds
    unfold Event.addsAnswered at hadds
    split at hadds
    · obtain ⟨rfl, rfl⟩ := of_decide_eq_true hadds
      exact hadded _ _ he
    · cases hadds

/-- What is delivered, queued and read of a transfer after it was added, and where it is otherwise. -/
theorem course_of_add {a b : List Event} (hrun : Reaches watch polite watchStart tr w)
    (htrace : tr = a ++ .added m h .ok true :: b) (hadded : ∀ m' here, .added m' h .ok here ∉ b) :
    b.countP (Event.delivers m h) + w.handles.waiting m h = 1 ∧
      b.countP (Event.queues m h) + w.handles.inLocals m h = 1 ∧
      b.countP (Event.completes m h) + (w.handles.inLocals m h + w.handles.inRing m h) = 1 ∧
      ∀ m', m' ≠ m → ∀ e ∈ b, ¬ e.Reports m' h := by
  obtain ⟨tr₁, w₁, i, ev₁, ev₂, w₂, tr₂, hrun₁, hpolite, hwatch, hrun₂, -, rfl⟩ := hrun.split htrace
  obtain ⟨hstep, hpending₂⟩ := watch_some hwatch
  obtain ⟨⟨accepts, rfl, -⟩, honly⟩ := step_causes hstep (List.mem_append_right ev₁ List.mem_cons_self)
  have hevents := honly rfl
  rw [hevents] at hwatch hpending₂
  obtain ⟨-, hlast⟩ := List.append_eq_singleton_iff.mp hevents |>.resolve_right (by simp)
  obtain rfl : ev₂ = [] := by simpa using hlast
  obtain ⟨hkept₁, -⟩ := watchStart_kept.reaches hrun₁
  obtain ⟨hkept₂, hadd⟩ := hkept₁.step hpolite hwatch
  obtain ⟨hkept, hrest⟩ := hkept₂.reaches hrun₂
  -- Just after the add the transfer is in the array, undelivered, and nowhere else.
  have hnowhere := hkept₁.nowhere hpolite
  have hthere : w₂.pending h = some (m, true) := by
    rw [hpending₂, List.foldl_cons, List.foldl_nil, note_added, if_pos rfl]
  have hlocals₁ := (hnowhere m).locals
  have hwaiting₁ := waiting_le w₁.handles m h
  have hdelivered := hadd.delivered m h
  have hqueued := hadd.queued m h
  simp only [List.countP_singleton, Event.delivers, Event.queues, Event.addsAnswered, and_self,
    decide_true, if_true, if_false, Bool.false_eq_true] at hdelivered hqueued
  -- From there to the end nothing is added.
  obtain ⟨hadds, hanswered⟩ := countP_adds_zero hadded m
  rw [List.nil_append] at hadds hanswered
  have hdelivered' := hrest.delivered m h
  have hqueued' := hrest.queued m h
  have hread' := hrest.read m h
  have hsum := hkept.answered m h
  rw [hanswered] at hdelivered' hqueued'
  rw [hadds] at hread'
  unfold Watched.inFlight at hread'
  rw [hthere] at hread'
  refine ⟨?_, ?_, ?_, ?_⟩
  · rw [List.nil_append]
    omega
  · rw [List.nil_append]
    omega
  · rw [List.nil_append, hsum]
    rcases pending_of_unadded hrun₂ hadded with hsame | hnone
    · rw [hsame, hthere] at hread' ⊢
      simpa using hread'
    · rw [hnone] at hread' ⊢
      simpa using hread'
  · intro m' hne
    have habsent : w₂.handles.Absent m' h := by
      apply hkept₂.absent
      intro here hpending
      rw [hthere] at hpending
      exact hne (Prod.mk.inj (Option.some.inj hpending)).1.symm
    exact (habsent.reaches (unwatch hrun₂) (hadded m')).2

/-! ## Reading everything -/

/-- The ring is read empty, the transfers are performed, and the ring is read empty again. -/
def drain (m : MultiSlot) (work : List Work) (alive : ℕ) : List Entry :=
  List.replicate capacity (.multiInfoRead (some m)) ++ .multiPerform (some m) work alive ::
    List.replicate capacity (.multiInfoRead (some m))

theorem drain_polite (m : MultiSlot) (work : List Work) (alive : ℕ) :
    ∀ i ∈ drain m work alive, ∀ w, polite w i := by
  intro i hi w
  rcases List.mem_append.mp hi with hi | hi
  · rw [List.eq_of_mem_replicate hi]
    trivial
  · rcases List.mem_cons.mp hi with rfl | hi
    · trivial
    · rw [List.eq_of_mem_replicate hi]
      trivial

theorem watch_read (hours : (w.handles.multis m).ours = true)
    (hwatch : watch w (.multiInfoRead (some m)) = some (w', ev)) :
    (w'.handles.multis m).messages.contents = (w.handles.multis m).messages.contents.tail ∧
      (w'.handles.multis m).locals = (w.handles.multis m).locals ∧
      (w'.handles.multis m).ours = true := by
  obtain ⟨hstep, -⟩ := watch_some hwatch
  generalize hread : w.handles.read m = result
  obtain ⟨msg, left, s₁⟩ := result
  rw [step_read hours hread] at hstep
  obtain ⟨rfl, -⟩ := Prod.mk.inj (Option.some.inj hstep)
  rcases read_cases w.handles m hread with ⟨head, rest, hring, -, n, hs', hlocals, hrest, -, -, hn⟩ |
    ⟨hempty, ⟨h, result, rest, -, hs', -⟩ | ⟨-, -, hs'⟩⟩
  · rw [hs', multis_setMulti, if_pos rfl, hring, hrest, hlocals, hn]
    exact ⟨rfl, rfl, hours⟩
  · rw [hs', multis_setMsglist, if_pos rfl, hempty]
    exact ⟨rfl, rfl, hours⟩
  · rw [hs', hempty]
    exact ⟨rfl, rfl, hours⟩

theorem execute_reads {n : ℕ} (hours : (w.handles.multis m).ours = true)
    (hexecute : execute watch w (List.replicate n (.multiInfoRead (some m))) = some (w', tr)) :
    (w'.handles.multis m).messages.contents = (w.handles.multis m).messages.contents.drop n ∧
      (w'.handles.multis m).locals = (w.handles.multis m).locals ∧
      (w'.handles.multis m).ours = true := by
  induction n generalizing w tr with
  | zero =>
    obtain ⟨rfl, -⟩ := Prod.mk.inj (Option.some.inj hexecute)
    exact ⟨rfl, rfl, hours⟩
  | succ n ih =>
    rw [List.replicate_succ, execute] at hexecute
    cases hwatch : watch w (.multiInfoRead (some m)) with
    | none => simp [hwatch] at hexecute
    | some next =>
      obtain ⟨w₁, ev⟩ := next
      rw [hwatch] at hexecute
      obtain ⟨⟨w₂, tr'⟩, hrest, heq⟩ := Option.map_eq_some_iff.mp hexecute
      obtain ⟨rfl, -⟩ := Prod.mk.inj heq
      obtain ⟨hring, hlocals, hours'⟩ := watch_read hours hwatch
      obtain ⟨hring', hlocals', hours''⟩ := ih hours' hrest
      rw [hring', hring, List.drop_tail]
      exact ⟨rfl, hlocals'.trans hlocals, hours''⟩

theorem perform_empties (pooled : s.Pooled) {work : List Work} {alive : ℕ}
    (hempty : (s.multis m).messages.contents = [])
    (hperform : s.perform m work alive = some (s', ev)) : (s'.multis m).locals = [] := by
  obtain ⟨s₁, ev₁, hcurl, hcase⟩ := perform_cases hperform
  have hkeeps : Keeps (fun _ => False) (fun _ => False) s s₁ := curlPerform_keeps hcurl
  rcases hcase with ⟨hnone, rfl, -⟩ | ⟨-, rfl, -⟩
  · apply List.eq_nil_of_length_eq_zero
    rw [← hkeeps.answered m (pooled.answered m), hnone]
  · apply (answered_takes _).1
    apply List.eq_nil_of_subset_nil
    rw [← hempty]
    exact hkeeps.ring m

/-- Reading, performing and reading again leaves nothing in the array or the ring. -/
theorem drained (hrun : Reaches watch polite watchStart tr w)
    (hours : (w.handles.multis m).ours = true) {work : List Work} {alive : ℕ} {tr' : List Event}
    (hexecute : execute watch w (drain m work alive) = some (w', tr')) (h : Slot) :
    w'.handles.inLocals m h = 0 ∧ w'.handles.inRing m h = 0 := by
  obtain ⟨w₁, tr₁, tr₂, hfirst, hrest, -⟩ := execute_append hexecute
  obtain ⟨hring₁, -, hours₁⟩ := execute_reads hours hfirst
  have hempty : (w₁.handles.multis m).messages.contents = [] := by
    rw [hring₁, List.drop_eq_nil_iff, RingBuffer.length_contents]
    exact (w.handles.multis m).messages.bounded
  have hpooled : w₁.handles.Pooled := by
    have hreads : Reaches watch polite w tr₁ w₁ := by
      apply reaches_of_execute _ hfirst
      apply along_of_forall
      intro i hi w
      rw [List.eq_of_mem_replicate hi]
      trivial
    exact (watchStart_kept.reaches (hrun.trans hreads)).1.pooled
  rw [execute] at hrest
  cases hwatch : watch w₁ (.multiPerform (some m) work alive) with
  | none => simp [hwatch] at hrest
  | some next =>
    obtain ⟨w₂, ev⟩ := next
    rw [hwatch] at hrest
    obtain ⟨⟨w₃, tr₃⟩, hlast, heq⟩ := Option.map_eq_some_iff.mp hrest
    obtain ⟨rfl, -⟩ := Prod.mk.inj heq
    obtain ⟨hstep, -⟩ := watch_some hwatch
    rw [step_perform hours₁] at hstep
    have hlocals₂ := perform_empties hpooled hempty hstep
    have hours₂ : (w₂.handles.multis m).ours = true := by
      rw [ours_perform hstep]
      exact hours₁
    obtain ⟨hring₃, hlocals₃, -⟩ := execute_reads hours₂ hlast
    constructor
    · unfold inLocals
      rw [hlocals₃, hlocals₂]
      rfl
    · have hempty₃ : (w₃.handles.multis m).messages.contents = [] := by
        rw [hring₃, List.drop_eq_nil_iff, RingBuffer.length_contents]
        exact (w₂.handles.multis m).messages.bounded
      unfold inRing
      rw [hempty₃]
      rfl

/-- It can always be done without work of libcurl. -/
theorem drain_possible (w : Watched) (m : MultiSlot) :
    (execute watch w (drain m [] 0)).isSome = true := by
  apply execute_isSome
  have hread : ∀ w : Watched, (watch w (.multiInfoRead (some m))).isSome = true := by
    intro w
    unfold watch
    rw [Option.isSome_map]
    simp only [step]
    split <;> rfl
  intro i hi w
  rcases List.mem_append.mp hi with hi | hi
  · rw [List.eq_of_mem_replicate hi]
    exact hread w
  · rcases List.mem_cons.mp hi with rfl | hi
    · unfold watch
      rw [Option.isSome_map]
      simp only [step]
      split
      · next m _ =>
        have hcurl : w.handles.curlPerform m [] = some (w.handles, []) := rfl
        obtain ⟨s', ev, hperform⟩ := perform_of_curl hcurl 0
        rw [hperform]
        rfl
      · rfl
    · rw [List.eq_of_mem_replicate hi]
      exact hread w

/-! ## The law -/

/-- Where no pending transfer is added again, removed or cleaned up: a transfer that the client answers
is delivered, queued and read once each, in one multi handle, unless it is still on its way; adding is
refused exactly when 32 such transfers are not queued yet; performing counts them; and reading,
performing and reading again brings every one to its end. -/
theorem answers_once (tr : List Event) (w : Watched) (hrun : Reaches watch polite watchStart tr w) :
    (∀ a b m h, tr = a ++ .added m h .ok true :: b → (∀ m' here, .added m' h .ok here ∉ b) →
      b.countP (Event.delivers m h) + w.handles.waiting m h = 1 ∧
        b.countP (Event.queues m h) + w.handles.inLocals m h = 1 ∧
        b.countP (Event.completes m h) + (w.handles.inLocals m h + w.handles.inRing m h) = 1 ∧
        ∀ m', m' ≠ m → ∀ e ∈ b, ¬ e.Reports m' h) ∧
    (∀ m h accepts, (answer (w.handles.transfers h).method (w.handles.transfers h).url).isSome = true →
      ((w.handles.add m h accepts).1 ≠ .ok ↔ (unqueued tr m).card = capacity)) ∧
    (∀ m work alive w' ev, (w.handles.multis m).ours = true →
      watch w (.multiPerform (some m) work alive) = some (w', ev) →
        ∃ evs, ev = evs ++ [.performed m alive (unqueued (tr ++ ev) m).card]) ∧
    ∀ m, (w.handles.multis m).ours = true → (execute watch w (drain m [] 0)).isSome = true ∧
      ∀ work alive w' tr', execute watch w (drain m work alive) = some (w', tr') →
        ∀ a b h, tr ++ tr' = a ++ .added m h .ok true :: b →
          (∀ m' here, .added m' h .ok here ∉ b) →
            b.countP (Event.delivers m h) = 1 ∧ b.countP (Event.queues m h) = 1 ∧
              b.countP (Event.completes m h) = 1 := by
  refine ⟨?_, ?_, ?_, ?_⟩
  · intro a b m h htrace hadded
    exact course_of_add hrun htrace hadded
  · intro m h accepts hanswer
    rw [add_answered w.handles m h accepts hanswer, length_locals hrun]
    split_ifs with hfull
    · simp [hfull]
    · simp [hfull]
  · intro m work alive w' ev hours hwatch
    have hkept := (watchStart_kept.reaches hrun).1
    obtain ⟨hstep, -⟩ := watch_some hwatch
    rw [step_perform hours] at hstep
    obtain ⟨evs, hevs⟩ := perform_last hkept.pooled hstep
    have hpolite : polite w (.multiPerform (some m) work alive) := trivial
    refine ⟨evs, ?_⟩
    rw [← length_locals (.next hrun hpolite hwatch) m]
    exact hevs
  · intro m hours
    refine ⟨drain_possible w m, ?_⟩
    intro work alive w' tr' hexecute a b h htrace hadded
    have hdrain : Reaches watch polite w tr' w' :=
      reaches_of_execute _ hexecute (along_of_forall _ _ (drain_polite m work alive))
    obtain ⟨hdelivered, hqueued, hread, -⟩ := course_of_add (hrun.trans hdrain) htrace hadded
    obtain ⟨hlocals, hring⟩ := drained hrun hours hexecute h
    have hwaiting := waiting_le w'.handles m h
    refine ⟨?_, ?_, ?_⟩
    · omega
    · omega
    · omega

section Run

theorem answerOne_trace :
    (execute watch watchStart (addAnswered ++ [.multiPerform (some 0) [] 0,
        .multiInfoRead (some 0)])).map (fun last => (last.2, last.1.handles.waiting 0 0,
          last.1.handles.inLocals 0 0, last.1.handles.inRing 0 0, (last.1.handles.multis 0).ours)) =
      some ([.opened 0] ++ .added 0 0 .ok true :: [.delivered 0 0 [], .queued 0 0,
        .performed 0 0 0, .read 0 (some ⟨.transfer 0, 0⟩) 0], 0, 0, 0, true) := by
  decide +kernel

theorem answers_once_read :
    ∃ (w : Watched) (tr b : List Event), Reaches watch polite watchStart tr w ∧
      tr = [.opened 0] ++ .added 0 0 .ok true :: b ∧ b.countP (Event.delivers 0 0) = 1 ∧
        b.countP (Event.queues 0 0) = 1 ∧ b.countP (Event.completes 0 0) = 1 ∧
        (execute watch w (drain 0 [] 0)).isSome = true := by
  obtain ⟨⟨w, tr⟩, hrun, hlast⟩ := Option.map_eq_some_iff.mp answerOne_trace
  simp only [Prod.mk.injEq] at hlast
  obtain ⟨rfl, hwaiting, hlocals, hring, hours⟩ := hlast
  have h : Reaches watch polite watchStart _ w := reaches_of_execute _ hrun (by decide +kernel)
  obtain ⟨hcourse, -, -, hdrain⟩ := answers_once _ w h
  obtain ⟨hdelivered, hqueued, hread, -⟩ := hcourse _ _ 0 0 rfl (by simp)
  rw [hwaiting, Nat.add_zero] at hdelivered
  rw [hlocals, Nat.add_zero] at hqueued
  rw [hlocals, hring, Nat.add_zero] at hread
  exact ⟨w, _, _, h, rfl, hdelivered, hqueued, hread, (hdrain 0 hours).1⟩

end Run

end IW4x.XCurl
