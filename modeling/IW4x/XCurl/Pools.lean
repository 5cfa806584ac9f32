import IW4x.XCurl.Absence

/-!
# What holds of the pools

A handle that was given out has its slot in use and something of libcurl behind it, and `answered_`
is the length of the array. A multi handle that was closed has no transfer.
-/

namespace IW4x.XCurl

namespace Handles

variable {s s' s'' : Handles} {m : MultiSlot} {h : Slot} {H : Slot → Prop} {M : MultiSlot → Prop}

/-! ## What an operation leaves alone -/

/-- Of the transfers only the easy handles are written. Those of `H` and what libcurl has behind
those of `M` may be closed. -/
structure Keeps (H : Slot → Prop) (M : MultiSlot → Prop) (s s' : Handles) : Prop where
  transfer : ∀ h, s'.transfers h = { s.transfers h with easy := (s'.transfers h).easy }
  easy : ∀ h, ¬ H h → (s.transfers h).easy.isSome = true → (s'.transfers h).easy.isSome = true
  ours : ∀ m, (s'.multis m).ours = (s.multis m).ours
  handle : ∀ m, ¬ M m → (s.multis m).handle.isSome = true → (s'.multis m).handle.isSome = true
  answered : ∀ m, (s.multis m).answered = (s.multis m).locals.length →
    (s'.multis m).answered = (s'.multis m).locals.length
  ring : ∀ m, (s'.multis m).messages.contents ⊆ (s.multis m).messages.contents
  transferUsed : s'.transferUsed = s.transferUsed
  multiUsed : s'.multiUsed = s.multiUsed

theorem Keeps.refl (s : Handles) : Keeps H M s s :=
  ⟨fun _ => rfl, fun _ _ h => h, fun _ => rfl, fun _ _ h => h, fun _ h => h,
    fun _ => List.Subset.refl _, rfl, rfl⟩

theorem Keeps.trans (first : Keeps H M s s') (last : Keeps H M s' s'') : Keeps H M s s'' where
  transfer h := by
    rw [last.transfer h, first.transfer h]
  easy h hnot hsome := last.easy h hnot (first.easy h hnot hsome)
  ours m := (last.ours m).trans (first.ours m)
  handle m hnot hsome := last.handle m hnot (first.handle m hnot hsome)
  answered m heq := last.answered m (first.answered m heq)
  ring m := List.Subset.trans (last.ring m) (first.ring m)
  transferUsed := last.transferUsed.trans first.transferUsed
  multiUsed := last.multiUsed.trans first.multiUsed

theorem Keeps.mono {H' : Slot → Prop} {M' : MultiSlot → Prop} (keeps : Keeps H M s s')
    (hmore : ∀ h, H h → H' h) (mmore : ∀ m, M m → M' m) : Keeps H' M' s s' where
  transfer := keeps.transfer
  easy h hnot := keeps.easy h fun hin => hnot (hmore h hin)
  ours := keeps.ours
  handle m hnot := keeps.handle m fun hin => hnot (mmore m hin)
  answered := keeps.answered
  ring := keeps.ring
  transferUsed := keeps.transferUsed
  multiUsed := keeps.multiUsed

theorem setEasy_keeps (s : Handles) (e : Option Easy) (hsome : ¬ H h → e.isSome = true) :
    Keeps H M s (s.setEasy h e) := by
  refine ⟨?_, ?_, fun _ => rfl, fun _ _ h => h, fun _ h => h, fun _ => List.Subset.refl _, rfl, rfl⟩
  · intro h'
    rw [transfers_setEasy]
    split_ifs with heq
    · rw [heq]
    · rfl
  · intro h' hnot hbefore
    rw [transfers_setEasy]
    split_ifs with heq
    · exact hsome (heq ▸ hnot)
    · exact hbefore

theorem setMulti_keeps (s : Handles) {n : Multi} (hours : n.ours = (s.multis m).ours)
    (hhandle : ¬ M m → (s.multis m).handle.isSome = true → n.handle.isSome = true)
    (hanswered : (s.multis m).answered = (s.multis m).locals.length →
      n.answered = n.locals.length)
    (hring : n.messages.contents ⊆ (s.multis m).messages.contents) :
    Keeps H M s (s.setMulti m n) := by
  refine ⟨fun _ => rfl, fun _ _ h => h, ?_, ?_, ?_, ?_, rfl, rfl⟩
  · intro m'
    rw [multis_setMulti]
    split_ifs with heq
    · rw [hours, heq]
    · rfl
  · intro m' hnot hbefore
    rw [multis_setMulti]
    split_ifs with heq
    · subst heq
      exact hhandle hnot hbefore
    · exact hbefore
  · intro m' hbefore
    rw [multis_setMulti]
    split_ifs with heq
    · subst heq
      exact hanswered hbefore
    · exact hbefore
  · intro m'
    rw [multis_setMulti]
    split_ifs with heq
    · subst heq
      exact hring
    · exact List.Subset.refl _

theorem curlRemove_keeps (s : Handles) (m : MultiSlot) (h : Slot) :
    Keeps H M s (s.curlRemove m h).2 := by
  unfold curlRemove
  cases (s.multis m).handle with
  | none => exact Keeps.refl s
  | some msglist =>
    cases (s.transfers h).easy with
    | none => exact Keeps.refl s
    | some e =>
      dsimp only
      split_ifs
      · exact Keeps.refl s
      · exact Keeps.refl s
      · apply (setEasy_keeps s (some {}) fun _ => rfl).trans
        exact setMulti_keeps _ rfl (fun _ _ => rfl) id (List.Subset.refl _)

theorem curlEasyCleanup_keeps (s : Handles) (h : Slot) :
    Keeps (fun h' => h' = h) M s (s.curlEasyCleanup h) := by
  unfold curlEasyCleanup
  cases (s.transfers h).easy with
  | none => exact Keeps.refl s
  | some e =>
    dsimp only
    cases e.multi with
    | none => exact setEasy_keeps s none fun hnot => absurd rfl hnot
    | some m =>
      exact (curlRemove_keeps s m h).trans (setEasy_keeps _ none fun hnot => absurd rfl hnot)

theorem curlMultiCleanup_keeps (s : Handles) (m : MultiSlot) :
    Keeps H (fun m' => m' = m) s (s.curlMultiCleanup m) := by
  refine ⟨?_, ?_, ?_, ?_, ?_, ?_, rfl, rfl⟩
  · intro h
    by_cases hatt : (s.transfers h).easy.bind Easy.multi = some m
    · simp [curlMultiCleanup, hatt]
    · simp [curlMultiCleanup, hatt]
  · intro h _ hsome
    rw [curlMultiCleanup_easy]
    split_ifs
    · rfl
    · exact hsome
  · intro m'
    unfold curlMultiCleanup
    rw [multis_setMulti]
    split_ifs with heq
    · rw [heq]
    · rfl
  · intro m' hne hsome
    unfold curlMultiCleanup
    rw [multis_setMulti, if_neg hne]
    exact hsome
  · intro m' hbefore
    unfold curlMultiCleanup
    rw [multis_setMulti]
    split_ifs with heq
    · subst heq
      exact hbefore
    · exact hbefore
  · intro m'
    unfold curlMultiCleanup
    rw [multis_setMulti]
    split_ifs with heq
    · subst heq
      exact List.Subset.refl _
    · exact List.Subset.refl _

theorem foldl_curlRemove_keeps (m : MultiSlot) (ls : List Slot) (s : Handles) :
    Keeps H M s (ls.foldl (fun s h => (s.curlRemove m h).2) s) := by
  induction ls generalizing s with
  | nil => exact Keeps.refl s
  | cons h ls ih => exact (curlRemove_keeps s m h).trans (ih _)

theorem closeMulti_keeps (s : Handles) (m : MultiSlot) :
    Keeps H (fun m' => m' = m) s (s.closeMulti m) := by
  unfold closeMulti
  dsimp only
  have hclear : Keeps H (fun m' => m' = m) s (s.setMulti m { s.multis m with
      locals := []
      answered := 0
      messages := { (s.multis m).messages with
        head := ⟨0, by decide⟩
        count := 0
        bounded := Nat.zero_le _ }
      fits := by simp }) :=
    setMulti_keeps s rfl (fun _ hsome => hsome) (fun _ => rfl) (by simp [RingBuffer.contents])
  split_ifs
  · exact (hclear.trans (foldl_curlRemove_keeps m _ _)).trans (curlMultiCleanup_keeps _ m)
  · exact hclear.trans (foldl_curlRemove_keeps m _ _)

theorem remove_keeps (s : Handles) (m : MultiSlot) (h : Slot) :
    Keeps H M s (s.remove m h).2 := by
  unfold remove
  dsimp only
  split_ifs
  · exact curlRemove_keeps s m h
  · exact setMulti_keeps s rfl (fun _ hsome => hsome) (fun _ => rfl) (List.Subset.refl _)
  · exact Keeps.refl s

theorem curlPerform_keeps {work : List Work} {ev : List Event}
    (hperform : s.curlPerform m work = some (s', ev)) : Keeps H M s s' := by
  refine curlPerform_induct (m := m) (P := fun s _ s' => Keeps H M s s') ?_ ?_ hperform
  · exact Keeps.refl
  · intro s w s₁ ev ev' s' hwork ih
    obtain ⟨h, -, ⟨rfl, -⟩ | ⟨-, result, rfl⟩⟩ := curlWork_cases hwork
    · exact ih
    · have hfinished : Keeps H M s (s.setEasy h (some { multi := some m, alive := false })) :=
        setEasy_keeps s _ fun _ => rfl
      apply (hfinished.trans _).trans ih
      exact setMulti_keeps _ rfl (fun _ _ => rfl) id (List.Subset.refl _)

theorem Keeps.flags (keeps : Keeps H M s s') (h : Slot) :
    (s'.transfers h).ours = (s.transfers h).ours ∧ (s'.transfers h).here = (s.transfers h).here ∧
      (s'.transfers h).delivered = (s.transfers h).delivered := by
  rw [keeps.transfer h]
  exact ⟨rfl, rfl, rfl⟩

/-! ## The pools -/

/-- What holds of the pools between two calls. -/
structure Pooled (s : Handles) : Prop where
  transfer : ∀ h, (s.transfers h).ours = true →
    s.transferUsed h = true ∧ (s.transfers h).easy.isSome = true
  multi : ∀ m, (s.multis m).ours = true →
    s.multiUsed m = true ∧ (s.multis m).handle.isSome = true
  answered : ∀ m, (s.multis m).answered = (s.multis m).locals.length

theorem Keeps.pooled (keeps : Keeps H M s s') (pooled : s.Pooled)
    (hnone : ∀ h, H h → (s.transfers h).ours = false)
    (mnone : ∀ m, M m → (s.multis m).ours = false) : s'.Pooled where
  transfer h hours := by
    rw [keeps.transfer h] at hours
    obtain ⟨hused, heasy⟩ := pooled.transfer h hours
    rw [keeps.transferUsed]
    refine ⟨hused, keeps.easy h ?_ heasy⟩
    intro hin
    exact absurd hours (by simp [hnone h hin])
  multi m hours := by
    rw [keeps.ours m] at hours
    obtain ⟨hused, hhandle⟩ := pooled.multi m hours
    rw [keeps.multiUsed]
    refine ⟨hused, keeps.handle m ?_ hhandle⟩
    intro hin
    exact absurd hours (by simp [mnone m hin])
  answered m := keeps.answered m (pooled.answered m)

theorem Pooled.setTransfer (pooled : s.Pooled) {t : Transfer}
    (hours : t.ours = true → s.transferUsed h = true ∧ t.easy.isSome = true) :
    (s.setTransfer h t).Pooled where
  transfer h' hours' := by
    rw [transfers_setTransfer] at hours' ⊢
    split_ifs at hours' ⊢ with heq
    · exact heq ▸ hours hours'
    · exact pooled.transfer h' hours'
  multi := pooled.multi
  answered := pooled.answered

theorem Pooled.setMulti (pooled : s.Pooled) {n : Multi}
    (hours : n.ours = true → s.multiUsed m = true ∧ n.handle.isSome = true)
    (hanswered : n.answered = n.locals.length) : (s.setMulti m n).Pooled where
  transfer := pooled.transfer
  multi m' hours' := by
    rw [multis_setMulti] at hours' ⊢
    split_ifs at hours' ⊢ with heq
    · exact heq ▸ hours hours'
    · exact pooled.multi m' hours'
  answered m' := by
    rw [multis_setMulti]
    split_ifs
    · exact hanswered
    · exact pooled.answered m'

theorem Pooled.setTransfer_same (pooled : s.Pooled) {t : Transfer}
    (hours : t.ours = (s.transfers h).ours) (heasy : t.easy = (s.transfers h).easy) :
    (s.setTransfer h t).Pooled := by
  apply pooled.setTransfer
  rw [hours, heasy]
  exact pooled.transfer h

theorem Pooled.unused_transfer (pooled : s.Pooled) (hunused : s.transferUsed h = false) :
    (s.transfers h).ours = false := by
  by_contra hne
  have hused := (pooled.transfer h (by simpa using hne)).1
  simp [hunused] at hused

theorem Pooled.unused_multi (pooled : s.Pooled) (hunused : s.multiUsed m = false) :
    (s.multis m).ours = false := by
  by_contra hne
  have hused := (pooled.multi m (by simpa using hne)).1
  simp [hunused] at hused

theorem Pooled.openTransfer (pooled : s.Pooled) (accepts : Bool) :
    (s.openTransfer accepts).2.Pooled := by
  rcases openTransfer_cases s accepts with heq | ⟨h, hunused, heq | heq⟩
  · rw [heq]
    exact pooled
  · rw [heq]
    refine (curlEasyCleanup_keeps s h).pooled (M := fun _ => False) pooled ?_ ?_
    · rintro _ rfl
      exact pooled.unused_transfer hunused
    · exact fun _ hfalse => hfalse.elim
  · rw [heq]
    have hclosed : (s.curlEasyCleanup h).Pooled := by
      refine (curlEasyCleanup_keeps s h).pooled (M := fun _ => False) pooled ?_ ?_
      · rintro _ rfl
        exact pooled.unused_transfer hunused
      · exact fun _ hfalse => hfalse.elim
    refine ⟨?_, hclosed.multi, hclosed.answered⟩
    intro h' hours
    simp only [transfers_setTransfer, Function.update_apply] at hours ⊢
    split_ifs at hours ⊢
    · exact ⟨rfl, rfl⟩
    · exact hclosed.transfer h' hours

theorem Pooled.openMultiHandle (pooled : s.Pooled) (accepts : Bool) :
    (s.openMultiHandle accepts).2.Pooled := by
  unfold Handles.openMultiHandle
  cases hfind : (List.finRange 8).find? fun m => !s.multiUsed m with
  | none => exact pooled
  | some m =>
    have hunused : s.multiUsed m = false := by
      simpa using List.find?_some hfind
    have hclosed : (s.closeMulti m).Pooled := by
      refine (closeMulti_keeps s m).pooled (H := fun _ => False) pooled ?_ ?_
      · exact fun _ hfalse => hfalse.elim
      · rintro _ rfl
        exact pooled.unused_multi hunused
    unfold Handles.openMulti
    cases accepts with
    | false => exact hclosed
    | true =>
      refine ⟨hclosed.transfer, ?_, ?_⟩
      · intro m' hours
        simp only [if_true, multis_setMulti, Function.update_apply] at hours ⊢
        split_ifs at hours ⊢
        · exact ⟨rfl, rfl⟩
        · exact hclosed.multi m' hours
      · intro m'
        simp only [if_true, multis_setMulti]
        split_ifs
        · exact hclosed.answered m
        · exact hclosed.answered m'

theorem Pooled.closeMulti (pooled : s.Pooled) (m : MultiSlot) :
    ((s.closeMulti m).closeMultiHandle m).Pooled := by
  have hkeeps : Keeps (fun _ => False) (fun m' => m' = m) s (s.closeMulti m) := closeMulti_keeps s m
  refine ⟨?_, ?_, ?_⟩
  · intro h hours
    have hsame : ((s.closeMulti m).transfers h).ours = (s.transfers h).ours := by
      rw [hkeeps.transfer h]
    obtain ⟨hused, heasy⟩ := pooled.transfer h (hsame.symm.trans hours)
    refine ⟨?_, hkeeps.easy h id heasy⟩
    change (s.closeMulti m).transferUsed h = true
    rw [hkeeps.transferUsed]
    exact hused
  · intro m' hours
    unfold closeMultiHandle at hours ⊢
    dsimp only at hours ⊢
    rw [multis_setMulti] at hours ⊢
    split_ifs at hours ⊢ with heq
    rw [hkeeps.ours m'] at hours
    obtain ⟨hused, hhandle⟩ := pooled.multi m' hours
    rw [Function.update_of_ne heq, hkeeps.multiUsed]
    exact ⟨hused, hkeeps.handle m' heq hhandle⟩
  · intro m'
    unfold closeMultiHandle
    dsimp only
    rw [multis_setMulti]
    split_ifs with heq
    · exact hkeeps.answered m (pooled.answered m)
    · exact hkeeps.answered m' (pooled.answered m')

theorem Pooled.add (pooled : s.Pooled) {accepts : Bool} {code : MultiCode}
    (hadd : s.add m h accepts = (code, s')) : s'.Pooled := by
  obtain ⟨t, ht, hcase⟩ := add_cases s m h accepts hadd
  obtain ⟨hours, heasy, -, -⟩ := Transfer.begin_same s.installed accepts (s.transfers h)
  rw [← ht] at hours heasy
  have hbegun : (s.setTransfer h t).Pooled := pooled.setTransfer_same hours heasy
  rcases hcase with ⟨-, rfl⟩ | ⟨-, -, -, -, rfl⟩ | ⟨-, -, -, n, rfl, -, -, hhandle, hanswered, hmine⟩
  · exact hbegun
  · apply hbegun.setTransfer
    intro hours'
    exact ⟨(hbegun.transfer h hours').1, rfl⟩
  · apply hbegun.setMulti _ hanswered
    intro hmine'
    rw [hhandle]
    rw [hmine] at hmine'
    exact pooled.multi m hmine'

theorem Pooled.curlPerform (pooled : s.Pooled) {work : List Work} {ev : List Event}
    (hperform : s.curlPerform m work = some (s', ev)) : s'.Pooled :=
  (curlPerform_keeps (H := fun _ => False) (M := fun _ => False) hperform).pooled pooled
    (fun _ hfalse => hfalse.elim) fun _ hfalse => hfalse.elim

theorem Pooled.answered_ (pooled : s.Pooled) (m : MultiSlot) : (s.answered m).1.Pooled := by
  obtain ⟨taken, spec⟩ := answered_spec s m
  refine ⟨?_, ?_, ?_⟩
  · intro h hours
    rw [spec.transfers] at hours ⊢
    rw [spec.transferUsed]
    split_ifs at hours ⊢
    · exact pooled.transfer h hours
    · exact pooled.transfer h hours
  · intro m' hours
    rw [spec.multiUsed]
    by_cases heq : m' = m
    · subst heq
      rw [spec.ours] at hours
      rw [spec.handle]
      exact pooled.multi m' hours
    · rw [spec.others m' heq] at hours ⊢
      exact pooled.multi m' hours
  · intro m'
    by_cases heq : m' = m
    · rw [heq]
      exact spec.answered
    · rw [spec.others m' heq]
      exact pooled.answered m'

theorem Pooled.perform (pooled : s.Pooled) {work : List Work} {alive : ℕ} {ev : List Event}
    (hperform : s.perform m work alive = some (s', ev)) : s'.Pooled := by
  obtain ⟨s₁, ev₁, hcurl, ⟨-, rfl, -⟩ | ⟨-, rfl, -⟩⟩ := perform_cases hperform
  · exact pooled.curlPerform hcurl
  · exact (pooled.curlPerform hcurl).answered_ m

theorem Pooled.read (pooled : s.Pooled) {msg : Option Message} {left : ℕ}
    (hread : s.read m = (msg, left, s')) : s'.Pooled := by
  rcases read_cases s m hread with ⟨head, rest, -, -, n, rfl, hlocals, -, hhandle, hanswered, hmine⟩ |
    ⟨-, ⟨h, result, rest, hhandle, rfl, -⟩ | ⟨-, -, rfl⟩⟩
  · apply pooled.setMulti
    · rw [hmine, hhandle]
      exact pooled.multi m
    · rw [hanswered, hlocals]
      exact pooled.answered m
  · apply pooled.setMulti
    · intro hmine
      exact ⟨(pooled.multi m hmine).1, rfl⟩
    · exact pooled.answered m
  · exact pooled

end Handles

/-- Every call keeps the pools. -/
theorem Handles.Pooled.step {s s' : Handles} {i : Entry} {ev : List Event} (pooled : s.Pooled)
    (hstep : XCurl.step s i = some (s', ev)) : s'.Pooled := by
  cases i with
  | easyInit accepts =>
    have hopened := pooled.openTransfer accepts
    simp only [XCurl.step] at hstep
    generalize s.openTransfer accepts = opened at hstep hopened
    obtain ⟨_ | h, s₁⟩ := opened <;> obtain ⟨rfl, -⟩ := Prod.mk.inj (Option.some.inj hstep) <;>
      exact hopened
  | easySetopt h o =>
    simp only [XCurl.step] at hstep
    split at hstep <;> obtain ⟨rfl, -⟩ := Prod.mk.inj (Option.some.inj hstep)
    · exact pooled
    · obtain ⟨hours, heasy, -⟩ := Transfer.set_same (s.transfers _) o
      exact pooled.setTransfer_same hours heasy
  | easyCleanup h =>
    simp only [XCurl.step] at hstep
    split at hstep <;> obtain ⟨rfl, -⟩ := Prod.mk.inj (Option.some.inj hstep)
    · exact pooled
    · refine ⟨?_, pooled.multi, pooled.answered⟩
      intro h' hours
      unfold Handles.closeTransfer at hours ⊢
      dsimp only at hours ⊢
      rw [Handles.transfers_setTransfer] at hours ⊢
      split_ifs at hours ⊢ with heq
      rw [Function.update_of_ne heq]
      exact pooled.transfer h' hours
  | multiInit accepts =>
    obtain ⟨rfl, -⟩ := Prod.mk.inj (Option.some.inj hstep)
    exact pooled.openMultiHandle accepts
  | multiAddHandle m h accepts =>
    simp only [XCurl.step] at hstep
    split at hstep <;> obtain ⟨rfl, -⟩ := Prod.mk.inj (Option.some.inj hstep)
    · exact pooled.add rfl
    · exact pooled
  | multiRemoveHandle m h =>
    simp only [XCurl.step] at hstep
    split at hstep <;> obtain ⟨rfl, -⟩ := Prod.mk.inj (Option.some.inj hstep)
    · exact (Handles.remove_keeps (H := fun _ => False) (M := fun _ => False) s _ _).pooled pooled
        (fun _ hfalse => hfalse.elim) fun _ hfalse => hfalse.elim
    · exact pooled
  | multiPerform m work alive =>
    simp only [XCurl.step] at hstep
    split at hstep
    · exact pooled.perform hstep
    · obtain ⟨rfl, -⟩ := Prod.mk.inj (Option.some.inj hstep)
      exact pooled
  | multiInfoRead m =>
    simp only [XCurl.step] at hstep
    split at hstep
    · next m _ =>
      generalize hread : s.read m = result at hstep
      obtain ⟨msg, left, s₁⟩ := result
      obtain ⟨rfl, -⟩ := Prod.mk.inj (Option.some.inj hstep)
      exact pooled.read hread
    · obtain ⟨rfl, -⟩ := Prod.mk.inj (Option.some.inj hstep)
      exact pooled
  | multiCleanup m =>
    simp only [XCurl.step] at hstep
    split at hstep <;> obtain ⟨rfl, -⟩ := Prod.mk.inj (Option.some.inj hstep)
    · exact pooled.closeMulti _
    · exact pooled
  | servePlatformAt d =>
    obtain ⟨rfl, -⟩ := Prod.mk.inj (Option.some.inj hstep)
    exact ⟨pooled.transfer, pooled.multi, pooled.answered⟩

theorem start_pooled : start.Pooled := by
  refine ⟨?_, ?_, fun _ => rfl⟩
  · intro h hours
    cases hours
  · intro m hours
    cases hours

/-! ## A multi handle that was closed -/

/-- Closing a multi handle leaves no transfer there. -/
theorem Handles.closeMulti_absent {s : Handles} {m : MultiSlot}
    (hhandle : (s.multis m).handle.isSome = true) (h : Slot) : (s.closeMulti m).Absent m h := by
  unfold Handles.closeMulti
  dsimp only
  generalize hclear : s.setMulti m _ = s₁
  have hopen : (s₁.multis m).handle.isSome = true := by
    rw [← hclear, Handles.multis_setMulti, if_pos rfl]
    exact hhandle
  have hkeeps : Handles.Keeps (fun _ => False) (fun _ => False) s₁ _ :=
    Handles.foldl_curlRemove_keeps m (s.multis m).locals s₁
  have hfewer := Handles.foldl_curlRemove_fewer m (s.multis m).locals s₁
  rw [if_pos (hkeeps.handle m id hopen)]
  obtain ⟨hlocals, hring, hhand, hlist, -⟩ := Handles.curlMultiCleanup_counts
    ((s.multis m).locals.foldl (fun s h => (s.curlRemove m h).2) s₁) m m h
  rw [if_pos rfl] at hhand hlist
  refine ⟨?_, ?_, hhand, hlist⟩
  · rw [hlocals]
    apply Nat.le_zero.mp
    apply (hfewer.locals m h).trans
    rw [← hclear, Handles.inLocals_setMulti, if_pos rfl]
    exact Nat.zero_le 0
  · rw [hring]
    apply Nat.le_zero.mp
    apply (hfewer.ring m h).trans
    rw [← hclear, Handles.inRing_setMulti, if_pos rfl]
    simp [RingBuffer.contents]

theorem Handles.ours_setMulti {s : Handles} {m : MultiSlot} {n : Multi}
    (hours : n.ours = (s.multis m).ours) (m' : MultiSlot) :
    ((s.setMulti m n).multis m').ours = (s.multis m').ours := by
  rw [Handles.multis_setMulti]
  split_ifs with heq
  · rw [hours, heq]
  · rfl

theorem Handles.ours_setMsglist (s : Handles) (m m' : MultiSlot) (l : List (Slot × CurlCode)) :
    ((s.setMsglist m l).multis m').ours = (s.multis m').ours := by
  rw [Handles.multis_setMsglist]
  split_ifs with heq
  · rw [heq]
  · rfl

theorem Handles.ours_perform {s s' : Handles} {m : MultiSlot} {work : List Work} {alive : ℕ}
    {ev : List Event} (hperform : s.perform m work alive = some (s', ev)) (m' : MultiSlot) :
    (s'.multis m').ours = (s.multis m').ours := by
  obtain ⟨s₁, ev₁, hcurl, hcase⟩ := perform_cases hperform
  have hfirst : (s₁.multis m').ours = (s.multis m').ours :=
    (Handles.curlPerform_keeps (H := fun _ => False) (M := fun _ => False) hcurl).ours m'
  rcases hcase with ⟨-, rfl, -⟩ | ⟨-, rfl, -⟩
  · exact hfirst
  · obtain ⟨taken, spec⟩ := answered_spec s₁ m
    by_cases heq : m' = m
    · subst heq
      rw [spec.ours, hfirst]
    · rw [spec.others m' heq, hfirst]

/-- A multi handle that was given out is taken back when it is cleaned up, and not before. -/
theorem ours_step {s s' : Handles} {i : Entry} {ev : List Event} {m : MultiSlot}
    (hstep : step s i = some (s', ev)) (hours : (s.multis m).ours = true) :
    (s'.multis m).ours = true ∨ i = .multiCleanup (some m) := by
  cases i with
  | easyInit accepts =>
    left
    have hsame : ((s.openTransfer accepts).2.multis m).ours = (s.multis m).ours := by
      rcases Handles.openTransfer_cases s accepts with heq | ⟨h, -, heq | heq⟩
      · rw [heq]
      · rw [heq]
        exact (Handles.curlEasyCleanup_keeps (M := fun _ => False) s h).ours m
      · rw [heq]
        exact (Handles.curlEasyCleanup_keeps (M := fun _ => False) s h).ours m
    simp only [step] at hstep
    generalize s.openTransfer accepts = opened at hstep hsame
    obtain ⟨_ | h, s₁⟩ := opened <;> obtain ⟨rfl, -⟩ := Prod.mk.inj (Option.some.inj hstep) <;>
      exact hsame.trans hours
  | easySetopt h o =>
    simp only [step] at hstep
    split at hstep <;> obtain ⟨rfl, -⟩ := Prod.mk.inj (Option.some.inj hstep) <;> exact .inl hours
  | easyCleanup h =>
    simp only [step] at hstep
    split at hstep <;> obtain ⟨rfl, -⟩ := Prod.mk.inj (Option.some.inj hstep) <;> exact .inl hours
  | multiInit accepts =>
    left
    obtain ⟨rfl, -⟩ := Prod.mk.inj (Option.some.inj hstep)
    unfold Handles.openMultiHandle
    cases (List.finRange 8).find? fun m => !s.multiUsed m with
    | none => exact hours
    | some m' =>
      have hclosed := (Handles.closeMulti_keeps (H := fun _ => False) s m').ours m
      unfold Handles.openMulti
      cases accepts with
      | false => exact hclosed.trans hours
      | true =>
        simp only [if_true, Handles.multis_setMulti]
        split_ifs
        · rfl
        · exact hclosed.trans hours
  | multiAddHandle m' h accepts =>
    left
    simp only [step] at hstep
    split at hstep
    · next m' h _ _ =>
      generalize hadd : s.add m' h accepts = result at hstep
      obtain ⟨code, s₁⟩ := result
      obtain ⟨rfl, -⟩ := Prod.mk.inj (Option.some.inj hstep)
      obtain ⟨t, -, hcase⟩ := Handles.add_cases s m' h accepts hadd
      rcases hcase with ⟨-, rfl⟩ | ⟨-, -, -, -, rfl⟩ | ⟨-, -, -, n, rfl, -, -, -, -, hmine⟩
      · exact hours
      · exact hours
      · exact (Handles.ours_setMulti (s := s.setTransfer h t) hmine m).trans hours
    · obtain ⟨rfl, -⟩ := Prod.mk.inj (Option.some.inj hstep)
      exact hours
  | multiRemoveHandle m' h =>
    left
    simp only [step] at hstep
    split at hstep <;> obtain ⟨rfl, -⟩ := Prod.mk.inj (Option.some.inj hstep)
    · exact ((Handles.remove_keeps (H := fun _ => False) (M := fun _ => False) s _ _).ours m).trans
        hours
    · exact hours
  | multiPerform m' work alive =>
    left
    simp only [step] at hstep
    split at hstep
    · rw [Handles.ours_perform hstep]
      exact hours
    · obtain ⟨rfl, -⟩ := Prod.mk.inj (Option.some.inj hstep)
      exact hours
  | multiInfoRead m' =>
    left
    simp only [step] at hstep
    split at hstep
    · next m' _ =>
      generalize hread : s.read m' = result at hstep
      obtain ⟨msg, left, s₁⟩ := result
      obtain ⟨rfl, -⟩ := Prod.mk.inj (Option.some.inj hstep)
      rcases Handles.read_cases s m' hread with ⟨-, -, -, -, n, rfl, -, -, -, -, hmine⟩ |
        ⟨-, ⟨-, -, -, -, rfl, -⟩ | ⟨-, -, rfl⟩⟩
      · exact (Handles.ours_setMulti hmine m).trans hours
      · exact (Handles.ours_setMsglist s m' m _).trans hours
      · exact hours
    · obtain ⟨rfl, -⟩ := Prod.mk.inj (Option.some.inj hstep)
      exact hours
  | multiCleanup m' =>
    simp only [step] at hstep
    split at hstep
    · next m₁ hm =>
      obtain ⟨rfl, -⟩ := Prod.mk.inj (Option.some.inj hstep)
      obtain ⟨rfl, -⟩ := asMulti_some hm
      by_cases heq : m = m₁
      · exact .inr (by rw [heq])
      · left
        have hclosed := (Handles.closeMulti_keeps (H := fun _ => False) s m₁).ours m
        unfold Handles.closeMultiHandle
        dsimp only
        rw [Handles.multis_setMulti, if_neg heq]
        exact hclosed.trans hours
    · obtain ⟨rfl, -⟩ := Prod.mk.inj (Option.some.inj hstep)
      exact .inl hours
  | servePlatformAt d =>
    obtain ⟨rfl, -⟩ := Prod.mk.inj (Option.some.inj hstep)
    exact .inl hours

/-- A multi handle that is not given out has no transfer. -/
def Handles.Tidy (s : Handles) : Prop := ∀ m h, (s.multis m).ours = false → s.Absent m h

theorem Handles.Tidy.step {s s' : Handles} {i : Entry} {ev : List Event} (tidy : s.Tidy)
    (pooled : s.Pooled) (hstep : XCurl.step s i = some (s', ev)) : s'.Tidy := by
  intro m h hours
  cases hbefore : (s.multis m).ours with
  | false =>
    refine ((tidy m h hbefore).step hstep ?_).1
    intro here hadded
    obtain ⟨⟨accepts, -, hmine, -⟩, -⟩ := step_causes hstep hadded
    simp [hbefore] at hmine
  | true =>
    obtain rfl := (ours_step hstep hbefore).resolve_left (by simp [hours])
    have hclosed := Handles.closeMulti_absent (pooled.multi m hbefore).2 h
    simp only [XCurl.step, Handles.asMulti, Option.filter_some, hbefore, if_true] at hstep
    obtain ⟨rfl, -⟩ := Prod.mk.inj (Option.some.inj hstep)
    have hfewer : Handles.Fewer (fun _ _ => True) _ _ :=
      Handles.closeMultiHandle_fewer (s.closeMulti m) m
    exact hfewer.absent hclosed

theorem start_tidy : start.Tidy := by
  intro m h _
  exact ⟨rfl, rfl, rfl, rfl⟩

/-- A call other than adding, performing and reading writes what the client knows of a transfer by
opening its slot or cleaning it up. -/
theorem plain_flags {s s' : Handles} {i : Entry} {ev : List Event} (hplain : i.plain = true)
    (hstep : step s i = some (s', ev)) (h : Slot) :
    (s.transferUsed h = false ∨ i = .easyCleanup (some h)) ∨
      (s'.transfers h).ours = (s.transfers h).ours ∧ (s'.transfers h).here = (s.transfers h).here ∧
        (s'.transfers h).delivered = (s.transfers h).delivered := by
  cases i with
  | easyInit accepts =>
    have hopened : s.transferUsed h = false ∨ ((s.openTransfer accepts).2.transfers h).ours =
        (s.transfers h).ours ∧ ((s.openTransfer accepts).2.transfers h).here = (s.transfers h).here ∧
          ((s.openTransfer accepts).2.transfers h).delivered = (s.transfers h).delivered := by
      rcases Handles.openTransfer_cases s accepts with heq | ⟨h', hunused, heq | heq⟩
      · rw [heq]
        exact .inr ⟨rfl, rfl, rfl⟩
      · rw [heq]
        exact .inr ((Handles.curlEasyCleanup_keeps (M := fun _ => False) s h').flags h)
      · rw [heq]
        by_cases hh : h = h'
        · exact .inl (hh ▸ hunused)
        · simp only [Handles.transfers_setTransfer, if_neg hh]
          exact .inr ((Handles.curlEasyCleanup_keeps (M := fun _ => False) s h').flags h)
    simp only [step] at hstep
    generalize s.openTransfer accepts = opened at hstep hopened
    obtain ⟨_ | h', s₁⟩ := opened <;> obtain ⟨rfl, -⟩ := Prod.mk.inj (Option.some.inj hstep)
    · exact hopened.imp_left .inl
    · exact hopened.imp_left .inl
  | easySetopt h' o =>
    right
    simp only [step] at hstep
    split at hstep <;> obtain ⟨rfl, -⟩ := Prod.mk.inj (Option.some.inj hstep)
    · exact ⟨rfl, rfl, rfl⟩
    · next h' _ =>
      rw [Handles.transfers_setTransfer]
      split_ifs with hh
      · subst hh
        obtain ⟨hours, -, hhere, hdelivered, -⟩ := Transfer.set_same (s.transfers h) o
        exact ⟨hours, hhere, hdelivered⟩
      · exact ⟨rfl, rfl, rfl⟩
  | easyCleanup h' =>
    simp only [step] at hstep
    split at hstep
    · obtain ⟨rfl, -⟩ := Prod.mk.inj (Option.some.inj hstep)
      exact .inr ⟨rfl, rfl, rfl⟩
    · next h₁ hh =>
      obtain ⟨rfl, -⟩ := Prod.mk.inj (Option.some.inj hstep)
      obtain ⟨rfl, -⟩ := asTransfer_some hh
      by_cases heq : h = h₁
      · exact .inl (.inr (by rw [heq]))
      · right
        unfold Handles.closeTransfer
        rw [Handles.transfers_setTransfer, if_neg heq]
        exact ⟨rfl, rfl, rfl⟩
  | multiInit accepts =>
    right
    obtain ⟨rfl, -⟩ := Prod.mk.inj (Option.some.inj hstep)
    unfold Handles.openMultiHandle
    cases (List.finRange 8).find? fun m => !s.multiUsed m with
    | none => exact ⟨rfl, rfl, rfl⟩
    | some m =>
      unfold Handles.openMulti
      cases accepts <;> exact (Handles.closeMulti_keeps (H := fun _ => False) s m).flags h
  | multiRemoveHandle m h' =>
    right
    simp only [step] at hstep
    split at hstep <;> obtain ⟨rfl, -⟩ := Prod.mk.inj (Option.some.inj hstep)
    · exact (Handles.remove_keeps (H := fun _ => False) (M := fun _ => False) s _ _).flags h
    · exact ⟨rfl, rfl, rfl⟩
  | multiCleanup m =>
    right
    simp only [step] at hstep
    split at hstep <;> obtain ⟨rfl, -⟩ := Prod.mk.inj (Option.some.inj hstep)
    · exact (Handles.closeMulti_keeps (H := fun _ => False) s _).flags h
    · exact ⟨rfl, rfl, rfl⟩
  | servePlatformAt d =>
    obtain ⟨rfl, -⟩ := Prod.mk.inj (Option.some.inj hstep)
    exact .inr ⟨rfl, rfl, rfl⟩
  | multiAddHandle m h accepts => cases hplain
  | multiPerform m work alive => cases hplain
  | multiInfoRead m => cases hplain

/-- A call other than adding, performing and reading puts nothing into a ring. -/
theorem plain_ring {s s' : Handles} {i : Entry} {ev : List Event} (hplain : i.plain = true)
    (hstep : step s i = some (s', ev)) (m : MultiSlot) :
    (s'.multis m).messages.contents ⊆ (s.multis m).messages.contents := by
  cases i with
  | easyInit accepts =>
    have hopened : ((s.openTransfer accepts).2.multis m).messages.contents ⊆
        (s.multis m).messages.contents := by
      rcases Handles.openTransfer_cases s accepts with heq | ⟨h, -, heq | heq⟩
      · rw [heq]
        exact List.Subset.refl _
      · rw [heq]
        exact (Handles.curlEasyCleanup_keeps (M := fun _ => False) s h).ring m
      · rw [heq]
        exact (Handles.curlEasyCleanup_keeps (M := fun _ => False) s h).ring m
    simp only [step] at hstep
    generalize s.openTransfer accepts = opened at hstep hopened
    obtain ⟨_ | h, s₁⟩ := opened <;> obtain ⟨rfl, -⟩ := Prod.mk.inj (Option.some.inj hstep) <;>
      exact hopened
  | easySetopt h o =>
    simp only [step] at hstep
    split at hstep <;> obtain ⟨rfl, -⟩ := Prod.mk.inj (Option.some.inj hstep) <;>
      exact List.Subset.refl _
  | easyCleanup h =>
    simp only [step] at hstep
    split at hstep <;> obtain ⟨rfl, -⟩ := Prod.mk.inj (Option.some.inj hstep) <;>
      exact List.Subset.refl _
  | multiInit accepts =>
    obtain ⟨rfl, -⟩ := Prod.mk.inj (Option.some.inj hstep)
    unfold Handles.openMultiHandle
    cases (List.finRange 8).find? fun m => !s.multiUsed m with
    | none => exact List.Subset.refl _
    | some m' =>
      have hclosed := (Handles.closeMulti_keeps (H := fun _ => False) s m').ring m
      unfold Handles.openMulti
      cases accepts with
      | false => exact hclosed
      | true =>
        simp only [if_true, Handles.multis_setMulti]
        split_ifs with heq
        · subst heq
          exact hclosed
        · exact hclosed
  | multiRemoveHandle m' h =>
    simp only [step] at hstep
    split at hstep <;> obtain ⟨rfl, -⟩ := Prod.mk.inj (Option.some.inj hstep)
    · exact (Handles.remove_keeps (H := fun _ => False) (M := fun _ => False) s _ _).ring m
    · exact List.Subset.refl _
  | multiCleanup m' =>
    simp only [step] at hstep
    split at hstep <;> obtain ⟨rfl, -⟩ := Prod.mk.inj (Option.some.inj hstep)
    · next m₁ _ =>
      have hclosed := (Handles.closeMulti_keeps (H := fun _ => False) s m₁).ring m
      unfold Handles.closeMultiHandle
      dsimp only
      rw [Handles.multis_setMulti]
      split_ifs with heq
      · subst heq
        exact hclosed
      · exact hclosed
    · exact List.Subset.refl _
  | servePlatformAt d =>
    obtain ⟨rfl, -⟩ := Prod.mk.inj (Option.some.inj hstep)
    exact List.Subset.refl _
  | multiAddHandle m h accepts => cases hplain
  | multiPerform m work alive => cases hplain
  | multiInfoRead m => cases hplain

end IW4x.XCurl
