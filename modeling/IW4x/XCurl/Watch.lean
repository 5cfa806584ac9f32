import IW4x.XCurl.Pools

/-!
# Watching what becomes of the transfers

The events of a run are counted for each multi handle and transfer: the adds that were accepted, the
answers that were delivered, the completions that were queued and the messages that were read. A call
that adds nothing and reads nothing moves the transfers between the places, and the counts say how.
-/

namespace IW4x.XCurl

open Runs Handles

/-! ## What is counted -/

/-- `multi::add` of the transfer returned `CURLM_OK`. -/
def Event.adds (m : MultiSlot) (h : Slot) : Event → Bool
  | .added m' h' .ok _ => decide (m' = m ∧ h' = h)
  | _ => false

/-- It did, and the client answers the transfer itself. -/
def Event.addsAnswered (m : MultiSlot) (h : Slot) : Event → Bool
  | .added m' h' .ok true => decide (m' = m ∧ h' = h)
  | _ => false

def Event.delivers (m : MultiSlot) (h : Slot) : Event → Bool
  | .delivered m' h' _ => decide (m' = m ∧ h' = h)
  | _ => false

def Event.queues (m : MultiSlot) (h : Slot) : Event → Bool
  | .queued m' h' => decide (m' = m ∧ h' = h)
  | _ => false

def Event.completes (m : MultiSlot) (h : Slot) : Event → Bool
  | .read m' (some ⟨.transfer h', _⟩) _ => decide (m' = m ∧ h' = h)
  | _ => false

/-- Neither an accepted add nor a message that names a transfer. -/
def Event.idle : Event → Bool
  | .added _ _ .ok _ => false
  | .read _ (some ⟨.transfer _, _⟩) _ => false
  | _ => true

theorem Event.idle_counts {e : Event} (hidle : e.idle = true) (m : MultiSlot) (h : Slot) :
    e.adds m h = false ∧ e.addsAnswered m h = false ∧ e.completes m h = false := by
  unfold Event.idle at hidle
  split at hidle
  · cases hidle
  · cases hidle
  · next hadd hread =>
    refine ⟨?_, ?_, ?_⟩
    · unfold Event.adds
      split
      · exact absurd rfl (hadd _ _ _)
      · rfl
    · unfold Event.addsAnswered
      split
      · exact absurd rfl (hadd _ _ _)
      · rfl
    · unfold Event.completes
      split
      · exact absurd rfl (hread _ _ _ _)
      · rfl

theorem countP_of_idle {ev : List Event} (hidle : ∀ e ∈ ev, e.idle = true) (m : MultiSlot)
    (h : Slot) :
    ev.countP (Event.adds m h) = 0 ∧ ev.countP (Event.addsAnswered m h) = 0 ∧
      ev.countP (Event.completes m h) = 0 := by
  refine ⟨?_, ?_, ?_⟩
  · exact List.countP_eq_zero.mpr fun e he => by simp [(Event.idle_counts (hidle e he) m h).1]
  · exact List.countP_eq_zero.mpr fun e he => by simp [(Event.idle_counts (hidle e he) m h).2.1]
  · exact List.countP_eq_zero.mpr fun e he => by simp [(Event.idle_counts (hidle e he) m h).2.2]

theorem Event.idle_of_performing {e : Event} (hperforming : e.performing = true) :
    e.idle = true := by
  cases e with
  | added | read => cases hperforming
  | _ => rfl

namespace Handles

variable {s s' s'' : Handles} {m : MultiSlot} {h : Slot} {ev ev' : List Event}

/-- In the array and not delivered yet. -/
def waiting (s : Handles) (m : MultiSlot) (h : Slot) : ℕ :=
  if (s.transfers h).delivered = true then 0 else s.inLocals m h

/-! ## Moving transfers -/

/-- The transfers that the client answers move from the array to the ring, those of libcurl from its
hands to its list, and the events tell. -/
structure Moved (s s' : Handles) (ev : List Event) : Prop where
  answered : ∀ m h, s'.inLocals m h + s'.inRing m h = s.inLocals m h + s.inRing m h
  network : ∀ m h, s'.inHand m h + s'.inMsglist m h = s.inHand m h + s.inMsglist m h
  delivered : ∀ m h, ev.countP (Event.delivers m h) + s'.waiting m h = s.waiting m h
  queued : ∀ m h, ev.countP (Event.queues m h) + s'.inLocals m h = s.inLocals m h
  idle : ∀ e ∈ ev, e.idle = true

theorem Moved.refl (s : Handles) : Moved s s [] :=
  ⟨fun _ _ => rfl, fun _ _ => rfl, fun _ _ => Nat.zero_add _, fun _ _ => Nat.zero_add _, by simp⟩

theorem Moved.trans (first : Moved s s' ev) (last : Moved s' s'' ev') :
    Moved s s'' (ev ++ ev') where
  answered m h := (last.answered m h).trans (first.answered m h)
  network m h := (last.network m h).trans (first.network m h)
  delivered m h := by
    rw [List.countP_append, Nat.add_assoc, last.delivered m h, first.delivered m h]
  queued m h := by
    rw [List.countP_append, Nat.add_assoc, last.queued m h, first.queued m h]
  idle e he := by
    rcases List.mem_append.mp he with he | he
    · exact first.idle e he
    · exact last.idle e he

/-- Where nothing moves, an event that tells of no move is added. -/
theorem Moved.of_same (hsame : ∀ m h, s'.inLocals m h = s.inLocals m h ∧
      s'.inRing m h = s.inRing m h ∧ s'.inHand m h + s'.inMsglist m h = s.inHand m h + s.inMsglist m h)
    (hdelivered : ∀ m h, 0 < s.inLocals m h →
      (s'.transfers h).delivered = (s.transfers h).delivered)
    (hquiet : ∀ e ∈ ev, e.idle = true ∧ ∀ m h, e.delivers m h = false ∧ e.queues m h = false) :
    Moved s s' ev where
  answered m h := by
    rw [(hsame m h).1, (hsame m h).2.1]
  network m h := (hsame m h).2.2
  delivered m h := by
    have hnone : ev.countP (Event.delivers m h) = 0 :=
      List.countP_eq_zero.mpr fun e he => by simp [((hquiet e he).2 m h).1]
    unfold waiting
    rw [hnone, (hsame m h).1, Nat.zero_add]
    by_cases hin : 0 < s.inLocals m h
    · rw [hdelivered m h hin]
    · rw [Nat.eq_zero_of_not_pos hin, ite_self, ite_self]
  queued m h := by
    have hnone : ev.countP (Event.queues m h) = 0 :=
      List.countP_eq_zero.mpr fun e he => by simp [((hquiet e he).2 m h).2]
    rw [hnone, (hsame m h).1, Nat.zero_add]
  idle e he := (hquiet e he).1

theorem curlPerform_moved {work : List Work} (hperform : s.curlPerform m work = some (s', ev)) :
    Moved s s' ev := by
  refine curlPerform_induct (m := m) (P := fun s ev s' => Moved s s' ev) ?_ ?_ hperform
  · exact Moved.refl
  · intro s w s₁ ev ev' s' hwork ih
    refine Moved.trans ?_ ih
    obtain ⟨h, halive, ⟨rfl, rfl⟩ | ⟨rfl, result, hs₁⟩⟩ := curlWork_cases hwork
    · apply Moved.of_same
      · exact fun _ _ => ⟨rfl, rfl, rfl⟩
      · exact fun _ _ _ => rfl
      · intro e he
        rw [List.mem_singleton.mp he]
        exact ⟨rfl, fun _ _ => ⟨rfl, rfl⟩⟩
    · have hcounts := finish_counts halive result hs₁
      have hin := inHand_of_alive halive
      apply Moved.of_same
      · intro m' h'
        obtain ⟨hlocals, hring, hhand, hlist, -⟩ := hcounts m' h'
        refine ⟨hlocals, hring, ?_⟩
        rw [hhand, hlist]
        by_cases hh : h' = h
        · subst hh
          by_cases hm : m' = m
          · subst hm
            simp
            omega
          · have hout : s.inHand m' h' = 0 := by
              unfold inHand
              rw [halive.2, if_neg]
              rintro ⟨⟩
              exact hm rfl
            simp [hm, hout]
        · simp [hh]
      · intro m' h' _
        rw [hs₁, transfers_setMsglist, transfers_setEasy]
        split_ifs with hh
        · rw [hh]
        · rfl
      · simp

theorem curlPerform_inLocals {work : List Work} (hperform : s.curlPerform m work = some (s', ev))
    (m' : MultiSlot) (h : Slot) : s'.inLocals m' h = s.inLocals m' h := by
  refine curlPerform_induct (m := m) (P := fun s _ s' => s'.inLocals m' h = s.inLocals m' h)
    ?_ ?_ hperform
  · exact fun _ => rfl
  · intro s w s₁ ev ev' s' hwork ih
    obtain ⟨h', halive, ⟨rfl, -⟩ | ⟨-, result, hs₁⟩⟩ := curlWork_cases hwork
    · exact ih
    · exact ih.trans (finish_counts halive result hs₁ m' h).1

/-- Each answer of the list that was not delivered yet is delivered once. -/
theorem deliverAll_counts (m : MultiSlot) (ls : List Slot) (s : Handles) (m' : MultiSlot) (h : Slot) :
    (s.deliverAll m ls).2.countP (Event.delivers m' h) =
      if m' = m ∧ h ∈ ls ∧ (s.transfers h).delivered = false then 1 else 0 := by
  induction ls generalizing s with
  | nil => simp [deliverAll]
  | cons h₁ ls ih =>
    have hfirst := deliver_transfers s m h₁ h
    rw [deliverAll, List.countP_append, ih, hfirst]
    rcases deliver_cases s m h₁ with ⟨hdone, heq⟩ | ⟨hwaiting, heq⟩
    · rw [heq]
      by_cases hh : h = h₁
      · subst hh
        simp [hdone]
      · simp [hh]
    · rw [heq]
      by_cases hh : h = h₁
      · subst hh
        by_cases hm : m' = m
        · simp [Event.delivers, hwaiting, hm]
        · simp [Event.delivers, hm, Ne.symm hm]
      · simp [Event.delivers, hh, Ne.symm hh]

theorem countP_map_queued (m m' : MultiSlot) (h : Slot) (taken : List Slot) :
    (taken.map fun h => Event.queued m h).countP (Event.queues m' h) =
      if m' = m then taken.count h else 0 := by
  induction taken with
  | nil => simp
  | cons h₁ taken ih =>
    rw [List.map_cons, List.countP_cons, ih, List.count_cons]
    by_cases hm : m' = m
    · simp [Event.queues, hm]
    · simp [Event.queues, hm, Ne.symm hm]

theorem countP_delivers_queued (m m' : MultiSlot) (h : Slot) (taken : List Slot) :
    (taken.map fun h => Event.queued m h).countP (Event.delivers m' h) = 0 := by
  rw [List.countP_eq_zero]
  intro e he
  obtain ⟨h', -, rfl⟩ := List.mem_map.mp he
  exact Bool.false_ne_true

theorem countP_queues_delivered (m m' : MultiSlot) (h : Slot) (ls : List Slot) (s : Handles) :
    (s.deliverAll m ls).2.countP (Event.queues m' h) = 0 := by
  rw [List.countP_eq_zero]
  intro e he
  obtain ⟨-, -, -, -, hdelivered⟩ := deliverAll_spec m ls s
  obtain ⟨h', -, calls, rfl⟩ := hdelivered e he
  exact Bool.false_ne_true

theorem waiting_le (s : Handles) (m : MultiSlot) (h : Slot) : s.waiting m h ≤ s.inLocals m h := by
  unfold waiting
  split_ifs
  · exact Nat.zero_le _
  · exact le_rfl

/-- `answered` moves transfers from the array to the ring, where each transfer is in one array at most
and there once. -/
theorem answered_moved (s : Handles) (m : MultiSlot)
    (halone : ∀ m m' h, h ∈ (s.multis m).locals → s.inLocals m' h = if m' = m then 1 else 0) :
    Moved s (s.answered m).1 (s.answered m).2 := by
  obtain ⟨taken, spec⟩ := answered_spec s m
  have hlocals : ∀ m' h, s.inLocals m' h = (s.answered m).1.inLocals m' h +
      if m' = m then taken.count h else 0 := by
    intro m' h
    unfold inLocals
    by_cases hm : m' = m
    · subst hm
      rw [if_pos rfl, spec.locals.count_eq h, List.count_append]
    · rw [spec.others m' hm, if_neg hm, Nat.add_zero]
  have hring : ∀ m' h, (s.answered m).1.inRing m' h = s.inRing m' h +
      if m' = m then taken.count h else 0 := by
    intro m' h
    unfold inRing
    by_cases hm : m' = m
    · subst hm
      rw [if_pos rfl, spec.ring, List.countP_append, List.countP_map]
      rfl
    · rw [spec.others m' hm, if_neg hm, Nat.add_zero]
  refine ⟨?_, ?_, ?_, ?_, ?_⟩
  · intro m' h
    rw [hring, hlocals m' h]
    omega
  · intro m' h
    have hhand : (s.answered m).1.inHand m' h = s.inHand m' h := by
      unfold inHand
      rw [spec.transfers]
      split_ifs <;> rfl
    have hlist : (s.answered m).1.inMsglist m' h = s.inMsglist m' h := by
      unfold inMsglist
      by_cases hm : m' = m
      · rw [hm, spec.handle]
      · rw [spec.others m' hm]
    rw [hhand, hlist]
  · intro m' h
    have hle := waiting_le (s.answered m).1 m' h
    have hcount := hlocals m' h
    rw [spec.events, List.countP_append, countP_delivers_queued, Nat.add_zero, deliverAll_counts]
    by_cases hin : h ∈ (s.multis m).locals
    · have hone := halone m m' h hin
      have hdone : (s.answered m).1.waiting m' h = 0 := by
        unfold waiting
        rw [spec.transfers, if_pos hin]
        exact if_pos rfl
      rw [hdone]
      unfold waiting
      rw [hone]
      cases hdelivered : (s.transfers h).delivered with
      | true => simp
      | false => simp [hin]
    · unfold waiting
      rw [spec.transfers, if_neg hin, if_neg fun hall => hin hall.2.1, Nat.zero_add]
      by_cases hm : m' = m
      · subst hm
        have hnone : s.inLocals m' h = 0 := List.count_eq_zero.mpr hin
        have hnone' : (s.answered m').1.inLocals m' h = 0 := by omega
        rw [hnone, hnone']
      · rw [if_neg hm, Nat.add_zero] at hcount
        rw [hcount]
  · intro m' h
    rw [spec.events, List.countP_append, countP_queues_delivered, countP_map_queued, hlocals m' h]
    omega
  · intro e he
    exact Event.idle_of_performing (answered_performing s m e he)

/-- All of `multi::perform`. -/
theorem perform_moved {work : List Work} {alive : ℕ}
    (hperform : s.perform m work alive = some (s', ev))
    (halone : ∀ m m' h, h ∈ (s.multis m).locals → s.inLocals m' h = if m' = m then 1 else 0) :
    Moved s s' ev := by
  have hlast : ∀ (s : Handles) (k : ℕ), Moved s s [.performed m alive k] := by
    intro s k
    apply Moved.of_same
    · exact fun _ _ => ⟨rfl, rfl, rfl⟩
    · exact fun _ _ _ => rfl
    · intro e he
      rw [List.mem_singleton.mp he]
      exact ⟨rfl, fun _ _ => ⟨rfl, rfl⟩⟩
  obtain ⟨s₁, ev₁, hcurl, ⟨-, rfl, rfl⟩ | ⟨-, rfl, rfl⟩⟩ := perform_cases hperform
  · exact (curlPerform_moved hcurl).trans (hlast _ 0)
  · have hfirst := curlPerform_moved hcurl
    have hsame := curlPerform_inLocals hcurl
    refine (hfirst.trans (answered_moved s₁ m ?_)).trans (hlast _ _)
    intro m₁ m₂ h hin
    rw [hsame]
    apply halone
    apply List.count_pos_iff.mp
    have hpos : 0 < s₁.inLocals m₁ h := List.count_pos_iff.mpr hin
    rwa [hsame] at hpos

end Handles

end IW4x.XCurl
