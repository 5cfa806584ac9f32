import IW4x.XCurl.Heard

/-!
# Cleaning a transfer up

`xcurl_easy_cleanup` takes the handle back and leaves everything else as it is: the easy handle is
closed when the slot is opened again, and the arrays, the rings and libcurl keep what they have of it.
A transfer that is nowhere when it is cleaned up is not heard of any more.
-/

namespace IW4x.XCurl

open Runs Handles

variable {s s' : Handles} {m : MultiSlot} {h : Slot}

/-! ## Which multi handle an easy handle belongs to -/

theorem attached_add {m' : MultiSlot} {h' : Slot} {accepts : Bool} {code : MultiCode}
    (hadd : s.add m' h' accepts = (code, s')) (hatt : s'.Attached m h) :
    s.Attached m h ∨ code = .ok ∧ m' = m ∧ h' = h := by
  obtain ⟨t, ht, hcase⟩ := add_cases s m' h' accepts hadd
  have heasy : t.easy = (s.transfers h').easy := ht ▸ (Transfer.begin_same _ _ _).2.1
  rcases hcase with ⟨-, hs'⟩ | ⟨hcode, -, -, -, hs'⟩ |
    ⟨-, -, -, n, hs', hlocals, hmessages, hhandle, -, -⟩
  · left
    have hfewer : Fewer (fun _ _ => True) s (s.setTransfer h' t) := setTransfer_fewer s heasy
    exact hfewer.attached m h (hs' ▸ hatt)
  · obtain ⟨-, -, -, -, hiff⟩ := attach_counts s m' h' t hs' m h
    have hwhich := hiff.mp hatt
    split_ifs at hwhich with hh
    · exact .inr ⟨hcode, hwhich.symm, hh.symm⟩
    · exact .inl hwhich
  · obtain ⟨-, -, -, -, hiff⟩ := push_counts s hs' heasy hlocals hmessages hhandle m h
    exact .inl (hiff.mp hatt)

theorem attached_perform {m' : MultiSlot} {work : List Work} {alive : ℕ} {ev : List Event}
    (hperform : s.perform m' work alive = some (s', ev)) (hatt : s'.Attached m h) :
    s.Attached m h := by
  obtain ⟨s₁, ev₁, hcurl, hcase⟩ := perform_cases hperform
  have hfirst : s₁.Attached m h → s.Attached m h := by
    refine curlPerform_induct (m := m') (P := fun s _ s' => s'.Attached m h → s.Attached m h) ?_ ?_
      hcurl
    · exact fun _ => id
    · intro s w s₁ ev ev' s' hwork ih hatt
      have hatt := ih hatt
      obtain ⟨h', halive, ⟨rfl, -⟩ | ⟨-, result, hs₁⟩⟩ := curlWork_cases hwork
      · exact hatt
      · exact (finish_counts halive result hs₁ m h).2.2.2.2.mp hatt
  apply hfirst
  rcases hcase with ⟨-, rfl, -⟩ | ⟨-, rfl, -⟩
  · exact hatt
  · obtain ⟨taken, spec⟩ := answered_spec s₁ m'
    unfold Attached at hatt ⊢
    rw [spec.transfers] at hatt
    split_ifs at hatt <;> exact hatt

theorem attached_read {m' : MultiSlot} {msg : Option Message} {left : ℕ}
    (hread : s.read m' = (msg, left, s')) (hatt : s'.Attached m h) : s.Attached m h := by
  rcases read_cases s m' hread with ⟨-, -, -, -, n, rfl, -⟩ |
    ⟨-, ⟨-, -, rest, -, rfl, -⟩ | ⟨-, -, rfl⟩⟩
  · exact hatt
  · exact hatt
  · exact hatt

/-- An easy handle comes to a multi handle by being added there. -/
theorem attached_step {i : Entry} {ev : List Event} (hstep : step s i = some (s', ev))
    (hadded : ∀ here, .added m h .ok here ∉ ev) (hatt : s'.Attached m h) : s.Attached m h := by
  cases hplain : i.plain with
  | true => exact (plain_step hplain hstep).1.attached m h hatt
  | false =>
    cases i with
    | multiAddHandle m' h' accepts =>
      simp only [step] at hstep
      split at hstep
      · next m' h' _ _ =>
        generalize hadd : s.add m' h' accepts = result at hstep
        obtain ⟨code, s₁⟩ := result
        obtain ⟨rfl, rfl⟩ := Prod.mk.inj (Option.some.inj hstep)
        rcases attached_add hadd hatt with hbefore | ⟨rfl, rfl, rfl⟩
        · exact hbefore
        · exact absurd (List.mem_singleton_self _) (hadded _)
      · obtain ⟨rfl, -⟩ := Prod.mk.inj (Option.some.inj hstep)
        exact hatt
    | multiPerform m' work alive =>
      simp only [step] at hstep
      split at hstep
      · exact attached_perform hstep hatt
      · obtain ⟨rfl, -⟩ := Prod.mk.inj (Option.some.inj hstep)
        exact hatt
    | multiInfoRead m' =>
      simp only [step] at hstep
      split at hstep
      · next m' _ =>
        generalize hread : s.read m' = result at hstep
        obtain ⟨msg, left, s₁⟩ := result
        obtain ⟨rfl, -⟩ := Prod.mk.inj (Option.some.inj hstep)
        exact attached_read hread hatt
      · obtain ⟨rfl, -⟩ := Prod.mk.inj (Option.some.inj hstep)
        exact hatt
    | _ => cases hplain

theorem opened_unattached {accepts : Bool} (hopen : s.openTransfer accepts = (some h, s')) :
    ¬ s'.Attached m h := by
  intro hatt
  rcases openTransfer_cases s accepts with heq | ⟨h', -, heq | heq⟩
  · rw [hopen] at heq
    cases heq
  · rw [hopen] at heq
    cases heq
  · rw [hopen] at heq
    obtain ⟨hh, rfl⟩ := Prod.mk.inj heq
    obtain rfl := Option.some.inj hh
    unfold Attached at hatt
    simp [Transfer.opened] at hatt

/-! ## After a transfer was cleaned up -/

def cleansNowhere (s : Handles) : Entry → Prop
  | .easyCleanup (some h) => ∀ m, s.Absent m h
  | _ => True

instance (s : Handles) : ∀ i : Entry, Decidable (cleansNowhere s i)
  | .easyCleanup (some h) => inferInstanceAs (Decidable (∀ m, s.Absent m h))
  | .easyInit _ | .easySetopt _ _ | .easyCleanup none | .multiInit _ | .multiAddHandle _ _ _
  | .multiRemoveHandle _ _ | .multiPerform _ _ _ | .multiInfoRead _ | .multiCleanup _
  | .servePlatformAt _ => isTrue trivial

theorem closeTransfer_present (hpresent : ¬ s.Absent m h) (h' : Slot) :
    ¬ (s.closeTransfer h').Absent m h := by
  intro absent
  have hfewer : Fewer (fun _ _ => False) s (s.closeTransfer h') := closeTransfer_fewer s h'
  obtain ⟨hlocals, hring, hhand, hlist⟩ := hfewer.same m h id
  apply hpresent
  exact absent.of_counts hlocals.symm hring.symm hhand.symm hlist.symm

/-- Once a transfer was cleaned up, no callback of it is called and no message of it is read until it
is added again, and a handle that is given out for its slot belongs to no multi handle, provided that
it was nowhere. A transfer that was still somewhere can be heard of by performing and reading alone.
No call is made from a callback that `perform` is in. -/
theorem quiet_after_cleanup (tr : List Event) (s : Handles) :
    (Reaches step cleansNowhere start tr s →
      ∀ a b m h, tr = a ++ .cleaned h :: b → (∀ here, .added m h .ok here ∉ b) →
        (∀ e ∈ b, ¬ e.Reports m h) ∧
          (.opened h ∈ b → s.Absent m h ∧ ¬ s.Attached m h)) ∧
    (Reaches step always start tr s →
      ∀ h s', step s (.easyCleanup (some h)) = some (s', [.cleaned h]) →
        ¬ (∀ m, s.Absent m h) →
          ∃ m s'' tr', Reaches step (listens m) s' tr' s'' ∧ ∃ e ∈ tr', e.Reports m h) := by
  constructor
  · intro hrun a b m h htrace hadded
    obtain ⟨tr₁, s₁, i, ev₁, ev₂, s₂, tr₂, -, hnowhere, hstep, hrun₂, -, rfl⟩ := hrun.split htrace
    obtain ⟨⟨rfl, -, rfl⟩, honly⟩ := step_causes hstep (List.mem_append_right ev₁ List.mem_cons_self)
    obtain ⟨-, hevents⟩ := List.append_eq_singleton_iff.mp (honly rfl) |>.resolve_right (by simp)
    obtain rfl : ev₂ = [] := by simpa using hevents
    have hfewer : Fewer (fun _ _ => True) s₁ (s₁.closeTransfer h) := closeTransfer_fewer s₁ h
    have habsent := hfewer.absent (hnowhere m)
    obtain ⟨habsent', hquiet⟩ := habsent.reaches hrun₂ hadded
    refine ⟨hquiet, fun hopened => ⟨habsent', ?_⟩⟩
    have hfree : (∀ here, .added m h .ok here ∉ tr₂) → .opened h ∈ tr₂ → ¬ s.Attached m h := by
      refine hrun₂.invariant (P := fun tr s => (∀ here, Event.added m h .ok here ∉ tr) →
        Event.opened h ∈ tr → ¬ s.Attached m h) ?_ ?_
      · intro _ hopened
        cases hopened
      · intro tr s i t ev ih _ hstep hadded hopened hatt
        rcases List.mem_append.mp hopened with hopened | hopened
        · apply ih (fun here hmem => hadded here (List.mem_append_left _ hmem)) hopened
          exact attached_step hstep (fun here hmem => hadded here (List.mem_append_right _ hmem)) hatt
        · obtain ⟨⟨accepts, -, hopen⟩, -⟩ := step_causes hstep hopened
          exact opened_unattached hopen hatt
    exact hfree hadded hopened
  · intro hrun h s' hstep hsomewhere
    obtain ⟨m, hpresent⟩ := not_forall.mp hsomewhere
    obtain ⟨hpooled, htidy⟩ : s.Pooled ∧ s.Tidy := by
      refine hrun.state_invariant (P := fun s => s.Pooled ∧ s.Tidy) ⟨start_pooled, start_tidy⟩ ?_
      rintro s i t ev ⟨pooled, tidy⟩ _ hstep
      exact ⟨pooled.step hstep, tidy.step pooled hstep⟩
    obtain ⟨⟨-, -, rfl⟩, -⟩ := step_causes hstep (List.mem_singleton_self _)
    have hours : (s.multis m).ours = true := by
      by_contra hnot
      exact hpresent (htidy m h (by simpa using hnot))
    refine ⟨m, heard_of_present (m := m) (h := h) (s := s.closeTransfer h) hours
      (hpooled.multi m hours).2 (hpooled.answered m) (closeTransfer_present hpresent h)⟩

section Run

/-- A transfer that the client answers itself, with a callback for the body, is added. -/
def addWithCallback : List Entry :=
  [.easyInit true, .multiInit true,
    .easySetopt (some 0)
      (.url (some "https://privacy.xboxlive.com/users/xuid(9)/permission/validate".toList)),
    .easySetopt (some 0) (.writefunction (some 7)), .multiAddHandle (some 0) (some 0) true]

/-- It is performed, read and cleaned up, and its slot is opened again. -/
def cleanFinished : List Entry :=
  addWithCallback ++ [.multiPerform (some 0) [] 0, .multiInfoRead (some 0),
    .easyCleanup (some 0), .easyInit true, .multiPerform (some 0) [] 0, .multiInfoRead (some 0)]

theorem cleanFinished_trace :
    (execute step start cleanFinished).map (fun last => last.2) =
      some ([.opened 0, .added 0 0 .ok true,
        .delivered 0 0 [⟨7, "\x7b\"isAllowed\":true\x7d".toList, 0⟩], .queued 0 0,
        .performed 0 0 0, .read 0 (some ⟨.transfer 0, 0⟩) 0] ++ .cleaned 0 ::
        [.opened 0, .performed 0 0 0, .read 0 none 0]) := by
  decide +kernel

theorem addWithCallback_cleaned :
    (execute step start addWithCallback).map (fun last =>
        (decide (∀ m, last.1.Absent m 0),
          (step last.1 (.easyCleanup (some 0))).map fun next => next.2)) =
      some (false, some [.cleaned 0]) := by
  decide +kernel

theorem quiet_after_cleanup_finished :
    (∃ (s : Handles) (tr a b : List Event), Reaches step cleansNowhere start tr s ∧
      tr = a ++ .cleaned 0 :: b ∧ .opened 0 ∈ b ∧ .performed 0 0 0 ∈ b ∧
        (∀ e ∈ b, ¬ e.Reports 0 0) ∧ s.Absent 0 0 ∧ ¬ s.Attached 0 0) ∧
    ∃ (s s' : Handles), step s (.easyCleanup (some 0)) = some (s', [.cleaned 0]) ∧
      ∃ m s'' tr', Reaches step (listens m) s' tr' s'' ∧ ∃ e ∈ tr', e.Reports m 0 := by
  constructor
  · obtain ⟨⟨s, tr⟩, hrun, rfl⟩ := Option.map_eq_some_iff.mp cleanFinished_trace
    have h : Reaches step cleansNowhere start _ s := reaches_of_execute _ hrun (by decide +kernel)
    obtain ⟨hquiet, hfree⟩ := (quiet_after_cleanup _ s).1 h _ _ 0 0 rfl (by simp)
    exact ⟨s, _, _, _, h, rfl, by simp, by simp, hquiet, hfree (by simp)⟩
  · obtain ⟨⟨s, tr⟩, hrun, hlast⟩ := Option.map_eq_some_iff.mp addWithCallback_cleaned
    simp only [Prod.mk.injEq, decide_eq_false_iff_not, Option.map_eq_some_iff, Prod.exists] at hlast
    obtain ⟨hsomewhere, s', ev, hstep, rfl⟩ := hlast
    exact ⟨s, s', hstep, (quiet_after_cleanup tr s).2 (reaches_of_run hrun) 0 s' hstep hsomewhere⟩

theorem cleanAdded_trace :
    (execute step start (addWithCallback ++ [.easyCleanup (some 0), .easyInit true,
        .multiPerform (some 0) [] 0, .multiInfoRead (some 0)])).map (fun last => last.2) =
      some ([.opened 0, .added 0 0 .ok true] ++ .cleaned 0 ::
        [.opened 0, .delivered 0 0 [], .queued 0 0, .performed 0 0 0,
          .read 0 (some ⟨.transfer 0, 0⟩) 0]) := by
  decide +kernel

/-- A transfer that is cleaned up while it is added is answered and reported for its slot, also where
the slot was given out again. -/
theorem cleaned_transfer_is_answered :
    ¬ ∀ (tr : List Event) (s : Handles), Reaches step always start tr s →
      ∀ a b m h, tr = a ++ .cleaned h :: b → (∀ here, .added m h .ok here ∉ b) →
        (∀ e ∈ b, ¬ e.Reports m h) ∧
          (.opened h ∈ b → s.Absent m h ∧ ¬ s.Attached m h) := by
  intro hclaim
  obtain ⟨⟨s, tr⟩, hrun, rfl⟩ := Option.map_eq_some_iff.mp cleanAdded_trace
  obtain ⟨hquiet, -⟩ := hclaim _ s (reaches_of_run hrun) _ _ 0 0 rfl (by simp)
  exact hquiet (.delivered 0 0 []) (by simp) ⟨rfl, rfl⟩

end Run

end IW4x.XCurl
