import IW4x.XCurl.Presence

/-!
# Which call an event comes from

Apart from `multi::perform`, a call makes one event known at most. An event of such a call says with
which handles it was called and what it wrote.
-/

namespace IW4x.XCurl

open Handles

theorem asTransfer_some {s : Handles} {h : Option Slot} {h' : Slot}
    (hsome : s.asTransfer h = some h') : h = some h' ∧ (s.transfers h').ours = true := by
  simpa [asTransfer, Option.filter_eq_some_iff] using hsome

theorem asMulti_some {s : Handles} {m : Option MultiSlot} {m' : MultiSlot}
    (hsome : s.asMulti m = some m') : m = some m' ∧ (s.multis m').ours = true := by
  simpa [asMulti, Option.filter_eq_some_iff] using hsome

/-- The call that made the event known, and the state after it. -/
def Event.CausedBy (s s' : Handles) (i : Entry) : Event → Prop
  | .opened h => ∃ accepts, i = .easyInit accepts ∧ s.openTransfer accepts = (some h, s')
  | .cleaned h => i = .easyCleanup (some h) ∧ (s.transfers h).ours = true ∧ s' = s.closeTransfer h
  | .added m h code here => ∃ accepts, i = .multiAddHandle (some m) (some h) accepts ∧
      (s.multis m).ours = true ∧ (s.transfers h).ours = true ∧ s.add m h accepts = (code, s') ∧
      here = (s'.transfers h).here
  | .removed m h code => i = .multiRemoveHandle (some m) (some h) ∧ (s.multis m).ours = true ∧
      (s.transfers h).ours = true ∧ s.remove m h = (code, s')
  | .read m msg left => i = .multiInfoRead (some m) ∧ (s.multis m).ours = true ∧
      s.read m = (msg, left, s')
  | _ => ∃ m work alive, i = .multiPerform m work alive

/-- What `multi::perform` makes known. -/
def Event.performing : Event → Bool
  | .calledBack .. => true
  | .delivered .. => true
  | .queued .. => true
  | .performed .. => true
  | _ => false

theorem Handles.curlPerform_performing {s s' : Handles} {m : MultiSlot} {work : List Work}
    {ev : List Event} (hperform : s.curlPerform m work = some (s', ev)) :
    ∀ e ∈ ev, e.performing = true := by
  refine curlPerform_induct (m := m) (P := fun _ ev _ => ∀ e ∈ ev, e.performing = true) ?_ ?_ hperform
  · simp
  · intro s w s₁ ev ev' s' hwork ih e he
    rcases List.mem_append.mp he with he | he
    · obtain ⟨h, -, ⟨-, rfl⟩ | ⟨rfl, -⟩⟩ := curlWork_cases hwork
      · rw [List.mem_singleton.mp he]
        rfl
      · cases he
    · exact ih e he

theorem Handles.answered_performing (s : Handles) (m : MultiSlot) :
    ∀ e ∈ (s.answered m).2, e.performing = true := by
  obtain ⟨taken, spec⟩ := answered_spec s m
  obtain ⟨-, -, -, -, hdelivered⟩ := deliverAll_spec m (s.multis m).locals s
  intro e he
  rw [spec.events] at he
  rcases List.mem_append.mp he with he | he
  · obtain ⟨h, -, calls, rfl⟩ := hdelivered e he
    rfl
  · obtain ⟨h, -, rfl⟩ := List.mem_map.mp he
    rfl

theorem Handles.perform_cases {s s' : Handles} {m : MultiSlot} {work : List Work} {alive : ℕ}
    {ev : List Event} (hperform : s.perform m work alive = some (s', ev)) :
    ∃ s₁ ev₁, s.curlPerform m work = some (s₁, ev₁) ∧
      ((s₁.multis m).answered = 0 ∧ s' = s₁ ∧ ev = ev₁ ++ [.performed m alive 0] ∨
        (s₁.multis m).answered ≠ 0 ∧ s' = (s₁.answered m).1 ∧
          ev = ev₁ ++ (s₁.answered m).2 ++ [.performed m alive (s'.multis m).locals.length]) := by
  unfold Handles.perform at hperform
  cases hcurl : s.curlPerform m work with
  | none => simp [hcurl] at hperform
  | some first =>
    obtain ⟨s₁, ev₁⟩ := first
    rw [hcurl] at hperform
    refine ⟨s₁, ev₁, rfl, ?_⟩
    dsimp only at hperform
    split_ifs at hperform with hsome
    · obtain ⟨rfl, rfl⟩ := Prod.mk.inj (Option.some.inj hperform)
      exact .inr ⟨hsome, rfl, rfl⟩
    · obtain ⟨rfl, rfl⟩ := Prod.mk.inj (Option.some.inj hperform)
      exact .inl ⟨not_not.mp hsome, rfl, rfl⟩

theorem Handles.perform_performing {s s' : Handles} {m : MultiSlot} {work : List Work} {alive : ℕ}
    {ev : List Event} (hperform : s.perform m work alive = some (s', ev)) :
    ∀ e ∈ ev, e.performing = true := by
  obtain ⟨s₁, ev₁, hcurl, ⟨-, -, rfl⟩ | ⟨-, -, rfl⟩⟩ := perform_cases hperform
  · intro e he
    rcases List.mem_append.mp he with he | he
    · exact curlPerform_performing hcurl e he
    · rw [List.mem_singleton.mp he]
      rfl
  · intro e he
    rcases List.mem_append.mp he with he | he
    · rcases List.mem_append.mp he with he | he
      · exact curlPerform_performing hcurl e he
      · exact answered_performing s₁ m e he
    · rw [List.mem_singleton.mp he]
      rfl

theorem Event.causedBy_of_performing {s s' : Handles} {m : Option MultiSlot}
    {work : List Work} {alive : ℕ} {e : Event} (he : e.performing = true) :
    e.CausedBy s s' (.multiPerform m work alive) := by
  cases e with
  | calledBack | delivered | queued | performed => exact ⟨m, work, alive, rfl⟩
  | _ => cases he

/-- An event that is not one of `multi::perform` is the only one of its call. -/
theorem step_causes {s s' : Handles} {i : Entry} {ev : List Event}
    (hstep : step s i = some (s', ev)) {e : Event} (he : e ∈ ev) :
    e.CausedBy s s' i ∧ (e.performing = false → ev = [e]) := by
  cases i with
  | easyInit accepts =>
    simp only [step] at hstep
    generalize hopen : s.openTransfer accepts = opened at hstep
    obtain ⟨_ | h, s₁⟩ := opened <;> obtain ⟨rfl, rfl⟩ := Prod.mk.inj (Option.some.inj hstep)
    · cases he
    · rw [List.mem_singleton.mp he]
      exact ⟨⟨accepts, rfl, hopen⟩, fun _ => rfl⟩
  | easySetopt h o =>
    simp only [step] at hstep
    split at hstep <;> obtain ⟨-, rfl⟩ := Prod.mk.inj (Option.some.inj hstep) <;> cases he
  | easyCleanup h =>
    simp only [step] at hstep
    split at hstep
    · obtain ⟨-, rfl⟩ := Prod.mk.inj (Option.some.inj hstep)
      cases he
    · next h' hh =>
      obtain ⟨rfl, rfl⟩ := Prod.mk.inj (Option.some.inj hstep)
      obtain ⟨rfl, hours⟩ := asTransfer_some hh
      rw [List.mem_singleton.mp he]
      exact ⟨⟨rfl, hours, rfl⟩, fun _ => rfl⟩
  | multiInit accepts =>
    obtain ⟨-, rfl⟩ := Prod.mk.inj (Option.some.inj hstep)
    cases he
  | multiAddHandle m h accepts =>
    simp only [step] at hstep
    split at hstep
    · next m' h' hm hh =>
      obtain ⟨rfl, rfl⟩ := Prod.mk.inj (Option.some.inj hstep)
      obtain ⟨rfl, hmine⟩ := asMulti_some hm
      obtain ⟨rfl, hours⟩ := asTransfer_some hh
      rw [List.mem_singleton.mp he]
      exact ⟨⟨accepts, rfl, hmine, hours, rfl, rfl⟩, fun _ => rfl⟩
    · obtain ⟨-, rfl⟩ := Prod.mk.inj (Option.some.inj hstep)
      cases he
  | multiRemoveHandle m h =>
    simp only [step] at hstep
    split at hstep
    · next m' h' hm hh =>
      obtain ⟨rfl, rfl⟩ := Prod.mk.inj (Option.some.inj hstep)
      obtain ⟨rfl, hmine⟩ := asMulti_some hm
      obtain ⟨rfl, hours⟩ := asTransfer_some hh
      rw [List.mem_singleton.mp he]
      exact ⟨⟨rfl, hmine, hours, rfl⟩, fun _ => rfl⟩
    · obtain ⟨-, rfl⟩ := Prod.mk.inj (Option.some.inj hstep)
      cases he
  | multiPerform m work alive =>
    simp only [step] at hstep
    split at hstep
    · have hperforming := perform_performing hstep e he
      refine ⟨Event.causedBy_of_performing hperforming, ?_⟩
      intro hnot
      rw [hperforming] at hnot
      cases hnot
    · obtain ⟨-, rfl⟩ := Prod.mk.inj (Option.some.inj hstep)
      cases he
  | multiInfoRead m =>
    simp only [step] at hstep
    split at hstep
    · next m' hm =>
      generalize hread : s.read m' = result at hstep
      obtain ⟨msg, left, s₁⟩ := result
      obtain ⟨rfl, rfl⟩ := Prod.mk.inj (Option.some.inj hstep)
      obtain ⟨rfl, hmine⟩ := asMulti_some hm
      rw [List.mem_singleton.mp he]
      exact ⟨⟨rfl, hmine, hread⟩, fun _ => rfl⟩
    · obtain ⟨-, rfl⟩ := Prod.mk.inj (Option.some.inj hstep)
      cases he
  | multiCleanup m =>
    simp only [step] at hstep
    split at hstep <;> obtain ⟨-, rfl⟩ := Prod.mk.inj (Option.some.inj hstep) <;> cases he
  | servePlatformAt d =>
    obtain ⟨-, rfl⟩ := Prod.mk.inj (Option.some.inj hstep)
    cases he

end IW4x.XCurl
