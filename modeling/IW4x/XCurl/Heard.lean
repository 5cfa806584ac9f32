import IW4x.XCurl.Pools

/-!
# What is somewhere is heard of

A transfer that is in one of the four places of a multi handle is heard of by performing and reading
alone: the ring is read empty, then libcurl's list of messages; a transfer in libcurl's hands may be
called back; and once the ring is empty, `multi::perform` queues the whole array.
-/

namespace IW4x.XCurl

open Runs Handles

variable {s s' : Handles} {m : MultiSlot} {h : Slot}

def listens (m : MultiSlot) : Handles → Entry → Prop
  | _, .multiPerform m' _ _ => m' = some m
  | _, .multiInfoRead m' => m' = some m
  | _, _ => False

theorem listen {i : Entry} {ev tr : List Event} {s'' : Handles} (hlistens : listens m s i)
    (hstep : step s i = some (s', ev)) (hrun : Reaches step (listens m) s' tr s'') :
    Reaches step (listens m) s (ev ++ tr) s'' := by
  have hfirst : Reaches step (listens m) s ev s' := by
    simpa using Reaches.next (.start : Reaches step (listens m) s [] s) hlistens hstep
  exact hfirst.trans hrun

theorem step_read (hours : (s.multis m).ours = true) {msg : Option Message} {left : ℕ}
    (hread : s.read m = (msg, left, s')) :
    step s (.multiInfoRead (some m)) = some (s', [.read m msg left]) := by
  simp only [step, asMulti, Option.filter_some, hours, if_true]
  rw [hread]

theorem step_perform (hours : (s.multis m).ours = true) (work : List Work) (alive : ℕ) :
    step s (.multiPerform (some m) work alive) = s.perform m work alive := by
  simp only [step, asMulti, Option.filter_some, hours, if_true]

theorem setMulti_setMulti (s : Handles) (m : MultiSlot) (n n' : Multi) :
    (s.setMulti m n).setMulti m n' = s.setMulti m n' := by
  unfold setMulti
  rw [Function.update_idem]

theorem setMulti_self (s : Handles) (m : MultiSlot) : s.setMulti m (s.multis m) = s := by
  unfold setMulti
  rw [Function.update_eq_self]

theorem read_head {head : Message} {rest : List Message}
    (hring : (s.multis m).messages.contents = head :: rest) :
    ∃ left n, s.read m = (some head, left, s.setMulti m n) ∧ n.messages.contents = rest ∧
      n.locals = (s.multis m).locals ∧ n.handle = (s.multis m).handle ∧
      n.answered = (s.multis m).answered ∧ n.ours = (s.multis m).ours := by
  generalize hread : s.read m = result
  obtain ⟨msg, left, s'⟩ := result
  rcases read_cases s m hread with ⟨head', rest', hring', rfl, n, rfl, hlocals, hrest, hhandle,
    hanswered, hours⟩ | ⟨hempty, -⟩
  · rw [hring] at hring'
    obtain ⟨rfl, rfl⟩ := List.cons.inj hring'
    exact ⟨left, n, rfl, hrest, hlocals, hhandle, hanswered, hours⟩
  · rw [hring] at hempty
    cases hempty

/-- Reading the ring empty. Every message that was in it is read. -/
theorem read_ring {l : List Message} (hring : (s.multis m).messages.contents = l)
    (hours : (s.multis m).ours = true) :
    ∃ n tr, Reaches step (listens m) s tr (s.setMulti m n) ∧ n.messages.contents = [] ∧
      n.locals = (s.multis m).locals ∧ n.handle = (s.multis m).handle ∧
      n.answered = (s.multis m).answered ∧ n.ours = (s.multis m).ours ∧
      ∀ msg ∈ l, ∃ left, .read m (some msg) left ∈ tr := by
  induction l generalizing s with
  | nil =>
    refine ⟨s.multis m, [], ?_, hring, rfl, rfl, rfl, rfl, by simp⟩
    rw [setMulti_self]
    exact .start
  | cons head rest ih =>
    obtain ⟨left, n, hread, hrest, hlocals, hhandle, hanswered, hmine⟩ := read_head hring
    have hsame : (s.setMulti m n).multis m = n := by
      rw [multis_setMulti, if_pos rfl]
    obtain ⟨n', tr, hrun, hempty, hlocals', hhandle', hanswered', hmine', hall⟩ :=
      ih (s := s.setMulti m n) (by rw [hsame, hrest]) (by rw [hsame, hmine, hours])
    rw [setMulti_setMulti] at hrun
    rw [hsame] at hlocals' hhandle' hanswered' hmine'
    refine ⟨n', _, listen (i := .multiInfoRead (some m)) rfl (step_read hours hread) hrun, hempty,
      hlocals'.trans hlocals, hhandle'.trans hhandle, hanswered'.trans hanswered, hmine'.trans hmine, ?_⟩
    intro msg hmem
    rcases List.mem_cons.mp hmem with rfl | hmem
    · exact ⟨left, List.mem_append_left _ List.mem_cons_self⟩
    · obtain ⟨left', hin⟩ := hall msg hmem
      exact ⟨left', List.mem_append_right _ hin⟩

/-- Reading libcurl's messages, once the ring is empty. -/
theorem read_msglist {l : List (Slot × CurlCode)} (hhandle : (s.multis m).handle = some l)
    (hempty : (s.multis m).messages.contents = []) (hours : (s.multis m).ours = true)
    (hmem : ∃ msg ∈ l, msg.1 = h) :
    ∃ s' tr, Reaches step (listens m) s tr s' ∧ ∃ e ∈ tr, e.Reports m h := by
  induction l generalizing s with
  | nil =>
    obtain ⟨msg, hin, -⟩ := hmem
    cases hin
  | cons head rest ih =>
    generalize hread : s.read m = result
    obtain ⟨msg, left, s₁⟩ := result
    rcases read_cases s m hread with ⟨head', rest', hring, -⟩ |
      ⟨-, ⟨h', result, rest', hhandle', hs₁, hmsg⟩ | ⟨hnone, -, -⟩⟩
    · rw [hempty] at hring
      cases hring
    · rw [hhandle] at hhandle'
      obtain ⟨rfl, rfl⟩ := List.cons.inj (Option.some.inj hhandle')
      have hslot : ∀ msg', msg = some msg' → msg'.easyHandle.slot = h' := by
        rintro msg' rfl
        rw [Option.some.inj hmsg]
        dsimp only
        split_ifs <;> rfl
      by_cases hh : h' = h
      · refine ⟨s₁, _, listen (i := .multiInfoRead (some m)) rfl (step_read hours hread) .start,
          .read m msg left, ?_, ?_⟩
        · exact List.mem_append_left _ List.mem_cons_self
        · rw [hmsg]
          exact ⟨rfl, (hslot _ hmsg).trans hh⟩
      · have hsame : s₁.multis m = { s.multis m with handle := some rest } := by
          rw [hs₁, multis_setMsglist, if_pos rfl]
        obtain ⟨msg', hin, hnamed⟩ := hmem
        have hrest : ∃ msg ∈ rest, msg.1 = h := by
          rcases List.mem_cons.mp hin with rfl | hin
          · exact absurd hnamed hh
          · exact ⟨msg', hin, hnamed⟩
        obtain ⟨s', tr, hrun, e, he, hreports⟩ :=
          ih (s := s₁) (by rw [hsame]) (by rw [hsame]; exact hempty) (by rw [hsame]; exact hours) hrest
        exact ⟨s', _, listen (i := .multiInfoRead (some m)) rfl (step_read hours hread) hrun, e,
          List.mem_append_right _ he, hreports⟩
    · rw [hhandle] at hnone
      cases hnone

theorem perform_of_curl {work : List Work} {ev₁ : List Event} {s₁ : Handles}
    (hcurl : s.curlPerform m work = some (s₁, ev₁)) (alive : ℕ) :
    ∃ s' ev, s.perform m work alive = some (s', ev₁ ++ ev) := by
  unfold perform
  rw [hcurl]
  dsimp only
  split_ifs
  · exact ⟨_, _, by rw [List.append_assoc]⟩
  · exact ⟨_, _, rfl⟩

/-- An empty ring has room for the whole array. -/
theorem answered_takes (hempty : (s.multis m).messages.contents = []) :
    ((s.answered m).1.multis m).locals = [] ∧
      ∀ h ∈ (s.multis m).locals, .queued m h ∈ (s.answered m).2 := by
  obtain ⟨taken, spec⟩ := answered_spec s m
  have hnone : ((s.answered m).1.multis m).locals = [] := by
    by_contra hne
    have hlength := congrArg List.length spec.ring
    rw [hempty, List.nil_append, List.length_map, RingBuffer.length_contents, spec.full hne] at hlength
    have hsplit := spec.locals.length_eq
    rw [List.length_append] at hsplit
    have hfits := (s.multis m).fits
    have hpos := List.length_pos_iff.mpr hne
    omega
  refine ⟨hnone, ?_⟩
  intro h hmem
  have htaken := spec.locals.mem_iff.mp hmem
  rw [hnone, List.nil_append] at htaken
  rw [spec.events]
  apply List.mem_append_right
  exact List.mem_map.mpr ⟨h, htaken, rfl⟩

/-- A transfer that is somewhere for a multi handle is heard of by performing and reading. -/
theorem heard_of_present (hours : (s.multis m).ours = true)
    (hhandle : (s.multis m).handle.isSome = true)
    (hanswered : (s.multis m).answered = (s.multis m).locals.length) (hpresent : ¬ s.Absent m h) :
    ∃ s' tr, Reaches step (listens m) s tr s' ∧ ∃ e ∈ tr, e.Reports m h := by
  obtain ⟨n, tr, hrun, hempty, hlocals, hhandle', hanswered', hmine, hall⟩ := read_ring rfl hours
  have hsame : (s.setMulti m n).multis m = n := by
    rw [multis_setMulti, if_pos rfl]
  by_cases hring : 0 < s.inRing m h
  · obtain ⟨msg, hmem, hnamed⟩ := List.countP_pos_iff.mp hring
    obtain ⟨left, hread⟩ := hall msg hmem
    exact ⟨_, tr, hrun, _, hread, rfl, of_decide_eq_true hnamed⟩
  · by_cases hlist : 0 < s.inMsglist m h
    · obtain ⟨l, hl⟩ := Option.isSome_iff_exists.mp hhandle
      unfold inMsglist at hlist
      rw [hl, Option.getD_some] at hlist
      obtain ⟨msg, hmem, hnamed⟩ := List.countP_pos_iff.mp hlist
      obtain ⟨s', tr', hrun', e, he, hreports⟩ := read_msglist (s := s.setMulti m n)
        (by rw [hsame, hhandle', hl]) (by rw [hsame, hempty]) (by rw [hsame, hmine, hours])
        ⟨msg, hmem, of_decide_eq_true hnamed⟩
      exact ⟨s', _, hrun.trans hrun', e, List.mem_append_right _ he, hreports⟩
    · by_cases hhand : 0 < s.inHand m h
      · have halive : s.Alive m h := by
          refine ⟨hhandle, ?_⟩
          unfold inHand at hhand
          split_ifs at hhand with heasy
          · exact heasy
          · exact absurd hhand (lt_irrefl 0)
        have hcurl : s.curlPerform m [.callBack h] = some (s, [.calledBack m h]) := by
          simp [curlPerform, curlWork, halive]
        obtain ⟨s', ev, hperform⟩ := perform_of_curl hcurl 0
        refine ⟨s', _, listen (i := .multiPerform (some m) [.callBack h] 0) rfl
          ((step_perform hours _ _).trans hperform) .start, .calledBack m h, ?_, rfl, rfl⟩
        simp
      · have hin : h ∈ (s.multis m).locals := by
          by_contra hnot
          apply hpresent
          refine ⟨List.count_eq_zero.mpr hnot, ?_, ?_, ?_⟩
          · omega
          · omega
          · omega
        have hqueued : .queued m h ∈ ((s.setMulti m n).answered m).2 := by
          apply (answered_takes (by rw [hsame, hempty])).2
          rw [hsame, hlocals]
          exact hin
        have hperform : (s.setMulti m n).perform m [] 0 = some (((s.setMulti m n).answered m).1,
            ((s.setMulti m n).answered m).2 ++
              [.performed m 0 ((((s.setMulti m n).answered m).1.multis m).locals.length)]) := by
          have hsome : ((s.setMulti m n).multis m).answered ≠ 0 := by
            rw [hsame, hanswered', hanswered]
            exact (List.length_pos_of_mem hin).ne'
          unfold perform curlPerform
          dsimp only
          rw [if_pos hsome]
          rfl
        have hmine' : ((s.setMulti m n).multis m).ours = true := by
          rw [hsame, hmine, hours]
        have hlast := listen (i := .multiPerform (some m) [] 0) rfl
          ((step_perform hmine' _ _).trans hperform) .start
        refine ⟨_, _, hrun.trans hlast, .queued m h, ?_, rfl, rfl⟩
        apply List.mem_append_right
        apply List.mem_append_left
        exact List.mem_append_left _ hqueued

/-! ## Beginning a run -/

/-- A transfer is added with a URL. -/
def addWith (url : String) : List Entry :=
  [.easyInit true, .multiInit true, .easySetopt (some 0) (.url (some url.toList)),
    .multiAddHandle (some 0) (some 0) true]

/-- A transfer that the client answers itself is added. -/
def addAnswered : List Entry :=
  addWith "https://privacy.xboxlive.com/users/xuid(9)/permission/validate"

end IW4x.XCurl
