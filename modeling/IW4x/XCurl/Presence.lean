import IW4x.XCurl.Multi

/-!
# Where a transfer is

A transfer that was added to a multi handle is in its array, in its ring, in libcurl's hands or in
libcurl's list of messages. How often it is in each of the four places is a count, and every
operation is described by what it does to the counts.
-/

namespace IW4x.XCurl

open Sweep

namespace Handles

variable {s s' : Handles} {m : MultiSlot} {h : Slot}

/-! ## Reading a state after a write -/

@[simp] theorem transfers_setTransfer (s : Handles) (h h' : Slot) (t : Transfer) :
    (s.setTransfer h t).transfers h' = if h' = h then t else s.transfers h' :=
  Function.update_apply ..

@[simp] theorem multis_setTransfer (s : Handles) (h : Slot) (t : Transfer) :
    (s.setTransfer h t).multis = s.multis := rfl

@[simp] theorem multis_setMulti (s : Handles) (m m' : MultiSlot) (n : Multi) :
    (s.setMulti m n).multis m' = if m' = m then n else s.multis m' :=
  Function.update_apply ..

@[simp] theorem transfers_setMulti (s : Handles) (m : MultiSlot) (n : Multi) :
    (s.setMulti m n).transfers = s.transfers := rfl

@[simp] theorem transfers_setEasy (s : Handles) (h h' : Slot) (e : Option Easy) :
    (s.setEasy h e).transfers h' =
      if h' = h then { s.transfers h with easy := e } else s.transfers h' :=
  transfers_setTransfer ..

@[simp] theorem multis_setEasy (s : Handles) (h : Slot) (e : Option Easy) :
    (s.setEasy h e).multis = s.multis := rfl

@[simp] theorem multis_setMsglist (s : Handles) (m m' : MultiSlot) (l : List (Slot × CurlCode)) :
    (s.setMsglist m l).multis m' =
      if m' = m then { s.multis m with handle := some l } else s.multis m' :=
  multis_setMulti ..

@[simp] theorem transfers_setMsglist (s : Handles) (m : MultiSlot) (l : List (Slot × CurlCode)) :
    (s.setMsglist m l).transfers = s.transfers := rfl

/-! ## The four places -/

/-- In the array `local_` of the multi handle. -/
def inLocals (s : Handles) (m : MultiSlot) (h : Slot) : ℕ := (s.multis m).locals.count h

def inRing (s : Handles) (m : MultiSlot) (h : Slot) : ℕ :=
  (s.multis m).messages.contents.countP fun msg => msg.easyHandle.slot = h

def inHand (s : Handles) (m : MultiSlot) (h : Slot) : ℕ :=
  if (s.transfers h).easy = some { multi := some m, alive := true } then 1 else 0

/-- In libcurl's list of its messages. -/
def inMsglist (s : Handles) (m : MultiSlot) (h : Slot) : ℕ :=
  ((s.multis m).handle.getD []).countP fun msg => msg.1 = h

def Attached (s : Handles) (m : MultiSlot) (h : Slot) : Prop :=
  (s.transfers h).easy.bind Easy.multi = some m

instance (s : Handles) (m : MultiSlot) (h : Slot) : Decidable (s.Attached m h) := by
  unfold Attached
  infer_instance

/-- It is in none of the four places. -/
structure Absent (s : Handles) (m : MultiSlot) (h : Slot) : Prop where
  locals : s.inLocals m h = 0
  ring : s.inRing m h = 0
  hand : s.inHand m h = 0
  msglist : s.inMsglist m h = 0

instance (s : Handles) (m : MultiSlot) (h : Slot) : Decidable (s.Absent m h) :=
  decidable_of_iff (s.inLocals m h = 0 ∧ s.inRing m h = 0 ∧ s.inHand m h = 0 ∧
    s.inMsglist m h = 0) ⟨fun ⟨a, b, c, d⟩ => ⟨a, b, c, d⟩, fun ⟨a, b, c, d⟩ => ⟨a, b, c, d⟩⟩

/-- No transfer is anywhere it was not before, and where nothing is touched none has left. -/
structure Fewer (touched : MultiSlot → Slot → Prop) (s s' : Handles) : Prop where
  locals : ∀ m h, s'.inLocals m h ≤ s.inLocals m h
  ring : ∀ m h, s'.inRing m h ≤ s.inRing m h
  hand : ∀ m h, s'.inHand m h ≤ s.inHand m h
  msglist : ∀ m h, s'.inMsglist m h ≤ s.inMsglist m h
  attached : ∀ m h, s'.Attached m h → s.Attached m h
  same : ∀ m h, ¬ touched m h → s'.inLocals m h = s.inLocals m h ∧ s'.inRing m h = s.inRing m h ∧
    s'.inHand m h = s.inHand m h ∧ s'.inMsglist m h = s.inMsglist m h

variable {touched : MultiSlot → Slot → Prop}

theorem Fewer.refl (s : Handles) : Fewer touched s s :=
  ⟨fun _ _ => le_rfl, fun _ _ => le_rfl, fun _ _ => le_rfl, fun _ _ => le_rfl, fun _ _ h => h,
    fun _ _ _ => ⟨rfl, rfl, rfl, rfl⟩⟩

theorem Fewer.trans {s'' : Handles} (first : Fewer touched s s') (last : Fewer touched s' s'') :
    Fewer touched s s'' where
  locals m h := (last.locals m h).trans (first.locals m h)
  ring m h := (last.ring m h).trans (first.ring m h)
  hand m h := (last.hand m h).trans (first.hand m h)
  msglist m h := (last.msglist m h).trans (first.msglist m h)
  attached m h hatt := first.attached m h (last.attached m h hatt)
  same m h hnot := by
    obtain ⟨hl, hr, hh, hm⟩ := last.same m h hnot
    obtain ⟨hl', hr', hh', hm'⟩ := first.same m h hnot
    exact ⟨hl.trans hl', hr.trans hr', hh.trans hh', hm.trans hm'⟩

theorem Fewer.mono {touched' : MultiSlot → Slot → Prop} (fewer : Fewer touched s s')
    (more : ∀ m h, touched m h → touched' m h) : Fewer touched' s s' where
  locals := fewer.locals
  ring := fewer.ring
  hand := fewer.hand
  msglist := fewer.msglist
  attached := fewer.attached
  same m h hnot := fewer.same m h fun htouched => hnot (more m h htouched)

theorem Fewer.absent (fewer : Fewer touched s s') (absent : s.Absent m h) : s'.Absent m h where
  locals := Nat.le_zero.mp (absent.locals ▸ fewer.locals m h)
  ring := Nat.le_zero.mp (absent.ring ▸ fewer.ring m h)
  hand := Nat.le_zero.mp (absent.hand ▸ fewer.hand m h)
  msglist := Nat.le_zero.mp (absent.msglist ▸ fewer.msglist m h)

theorem fewer_of_same (hmultis : ∀ m, (s'.multis m).locals = (s.multis m).locals ∧
      (s'.multis m).messages = (s.multis m).messages ∧ (s'.multis m).handle = (s.multis m).handle)
    (heasy : ∀ h, (s'.transfers h).easy = (s.transfers h).easy) : Fewer touched s s' := by
  have hsame : ∀ m h, s'.inLocals m h = s.inLocals m h ∧ s'.inRing m h = s.inRing m h ∧
      s'.inHand m h = s.inHand m h ∧ s'.inMsglist m h = s.inMsglist m h := by
    intro m h
    obtain ⟨hlocals, hmessages, hhandle⟩ := hmultis m
    unfold inLocals inRing inHand inMsglist
    rw [hlocals, hmessages, hhandle, heasy h]
    exact ⟨rfl, rfl, rfl, rfl⟩
  refine ⟨fun m h => (hsame m h).1.le, fun m h => (hsame m h).2.1.le,
    fun m h => (hsame m h).2.2.1.le, fun m h => (hsame m h).2.2.2.le, ?_, fun m h _ => hsame m h⟩
  intro m h hatt
  unfold Attached at hatt ⊢
  rwa [heasy h] at hatt

theorem setTransfer_fewer (s : Handles) {t : Transfer} (heasy : t.easy = (s.transfers h).easy) :
    Fewer touched s (s.setTransfer h t) := by
  apply fewer_of_same
  · intro m
    exact ⟨rfl, rfl, rfl⟩
  · intro h'
    rw [transfers_setTransfer]
    split_ifs with heq
    · rw [heasy, heq]
    · rfl

/-! ## libcurl -/

/-- An easy handle that belongs to no multi handle. -/
def unattached (e : Option Easy) : Prop := e.bind Easy.multi = none

theorem setEasy_fewer {e : Option Easy} (he : unattached e)
    (hheld : ∀ m, ¬ touched m h → s.inHand m h = 0) : Fewer touched s (s.setEasy h e) := by
  have hhand : ∀ m, (s.setEasy h e).inHand m h = 0 := by
    intro m
    unfold inHand
    rw [transfers_setEasy, if_pos rfl, if_neg]
    rintro rfl
    cases he
  have hother : ∀ m h', h' ≠ h → (s.setEasy h e).inHand m h' = s.inHand m h' := by
    intro m h' hne
    unfold inHand
    rw [transfers_setEasy, if_neg hne]
  refine ⟨fun _ _ => le_rfl, fun _ _ => le_rfl, ?_, fun _ _ => le_rfl, ?_, ?_⟩
  · intro m h'
    by_cases heq : h' = h
    · subst heq
      rw [hhand m]
      exact Nat.zero_le _
    · exact (hother m h' heq).le
  · intro m h' hatt
    unfold Attached at hatt ⊢
    rw [transfers_setEasy] at hatt
    split_ifs at hatt with heq
    · unfold unattached at he
      rw [he] at hatt
      cases hatt
    · exact hatt
  · intro m h' hnot
    refine ⟨rfl, rfl, ?_, rfl⟩
    by_cases heq : h' = h
    · subst heq
      rw [hhand m, hheld m hnot]
    · exact hother m h' heq

theorem inLocals_setMulti (s : Handles) (m m' : MultiSlot) (n : Multi) (h : Slot) :
    (s.setMulti m n).inLocals m' h = if m' = m then n.locals.count h else s.inLocals m' h := by
  unfold inLocals
  rw [multis_setMulti]
  split_ifs <;> rfl

theorem inRing_setMulti (s : Handles) (m m' : MultiSlot) (n : Multi) (h : Slot) :
    (s.setMulti m n).inRing m' h =
      if m' = m then n.messages.contents.countP (fun msg => msg.easyHandle.slot = h)
      else s.inRing m' h := by
  unfold inRing
  rw [multis_setMulti]
  split_ifs <;> rfl

theorem inMsglist_setMulti (s : Handles) (m m' : MultiSlot) (n : Multi) (h : Slot) :
    (s.setMulti m n).inMsglist m' h =
      if m' = m then (n.handle.getD []).countP (fun msg => msg.1 = h) else s.inMsglist m' h := by
  unfold inMsglist
  rw [multis_setMulti]
  split_ifs <;> rfl

/-- Writing one multi handle with less in it. -/
theorem setMulti_fewer (s : Handles) (m : MultiSlot) {n : Multi}
    (hlocals : ∀ h, n.locals.count h ≤ s.inLocals m h)
    (hring : ∀ h, n.messages.contents.countP (fun msg => msg.easyHandle.slot = h) ≤ s.inRing m h)
    (hlist : ∀ h, (n.handle.getD []).countP (fun msg => msg.1 = h) ≤ s.inMsglist m h) :
    Fewer (fun m' _ => m' = m) s (s.setMulti m n) := by
  refine ⟨?_, ?_, fun _ _ => le_rfl, ?_, fun _ _ hatt => hatt, ?_⟩
  · intro m' h
    rw [inLocals_setMulti]
    split_ifs with heq
    · exact heq ▸ hlocals h
    · exact le_rfl
  · intro m' h
    rw [inRing_setMulti]
    split_ifs with heq
    · exact heq ▸ hring h
    · exact le_rfl
  · intro m' h
    rw [inMsglist_setMulti]
    split_ifs with heq
    · exact heq ▸ hlist h
    · exact le_rfl
  · intro m' h hne
    rw [inLocals_setMulti, inRing_setMulti, inMsglist_setMulti, if_neg hne, if_neg hne, if_neg hne]
    exact ⟨rfl, rfl, rfl, rfl⟩

theorem setMsglist_fewer (s : Handles) {l : List (Slot × CurlCode)}
    (hless : ∀ h, l.countP (fun msg => msg.1 = h) ≤ s.inMsglist m h)
    (hsame : ∀ h, ¬ touched m h → l.countP (fun msg => msg.1 = h) = s.inMsglist m h) :
    Fewer touched s (s.setMsglist m l) := by
  have hfewer : Fewer (fun m' _ => m' = m) s (s.setMsglist m l) :=
    setMulti_fewer s m (fun _ => le_rfl) (fun _ => le_rfl) hless
  refine ⟨hfewer.locals, hfewer.ring, hfewer.hand, hfewer.msglist, hfewer.attached, ?_⟩
  intro m' h hnot
  by_cases heq : m' = m
  · subst heq
    unfold setMsglist
    rw [inLocals_setMulti, inRing_setMulti, inMsglist_setMulti, if_pos rfl, if_pos rfl, if_pos rfl]
    exact ⟨rfl, rfl, rfl, hsame h hnot⟩
  · exact hfewer.same m' h heq

theorem countP_eraseP_ne (l : List (Slot × CurlCode)) {h h' : Slot} (hne : h' ≠ h) :
    (l.eraseP fun msg => msg.1 = h).countP (fun msg => msg.1 = h') =
      l.countP fun msg => msg.1 = h' := by
  rcases List.exists_or_eq_self_of_eraseP (fun msg => decide (msg.1 = h)) l with heq |
    ⟨a, l₁, l₂, -, ha, rfl, heq⟩
  · rw [heq]
  · have hother : a.1 ≠ h' := by
      rw [of_decide_eq_true ha]
      exact hne.symm
    rw [heq]
    simp [hother]

theorem curlRemove_fewer (s : Handles) (m : MultiSlot) (h : Slot) :
    Fewer (fun m' h' => m' = m ∧ h' = h) s (s.curlRemove m h).2 := by
  unfold curlRemove
  cases hhandle : (s.multis m).handle with
  | none => exact Fewer.refl s
  | some msglist =>
    cases heasy : (s.transfers h).easy with
    | none => exact Fewer.refl s
    | some e =>
      dsimp only
      split_ifs with hnone hother
      · exact Fewer.refl s
      · exact Fewer.refl s
      · have hheld : ∀ m', ¬ (m' = m ∧ h = h) → s.inHand m' h = 0 := by
          intro m' hne
          unfold inHand
          rw [heasy, if_neg]
          rintro ⟨⟩
          exact hne ⟨Option.some.inj (not_not.mp hother), rfl⟩
        apply (setEasy_fewer (e := some {}) rfl hheld).trans
        have hlist : ∀ h', (s.setEasy h (some {})).inMsglist m h' =
            msglist.countP fun msg => msg.1 = h' := by
          intro h'
          unfold inMsglist
          rw [multis_setEasy, hhandle]
          rfl
        apply setMsglist_fewer
        · intro h'
          rw [hlist]
          exact List.eraseP_sublist.countP_le
        · intro h' hne
          rw [hlist]
          exact countP_eraseP_ne msglist fun heq => hne ⟨rfl, heq⟩

theorem curlEasyCleanup_fewer (s : Handles) (h : Slot) :
    Fewer (fun _ h' => h' = h) s (s.curlEasyCleanup h) := by
  unfold curlEasyCleanup
  cases (s.transfers h).easy with
  | none => exact Fewer.refl s
  | some e =>
    dsimp only
    have hclose : ∀ s : Handles, Fewer (fun _ h' => h' = h) s (s.setEasy h none) :=
      fun s => setEasy_fewer rfl fun _ hnot => absurd rfl hnot
    cases e.multi with
    | none => exact hclose s
    | some m => exact ((curlRemove_fewer s m h).mono fun _ _ htouched => htouched.2).trans (hclose _)

theorem curlMultiCleanup_easy (s : Handles) (m : MultiSlot) (h : Slot) :
    ((s.curlMultiCleanup m).transfers h).easy =
      if s.Attached m h then some {} else (s.transfers h).easy := by
  by_cases hatt : s.Attached m h
  · rw [if_pos hatt]
    unfold Attached at hatt
    simp [curlMultiCleanup, hatt]
  · rw [if_neg hatt]
    unfold Attached at hatt
    simp [curlMultiCleanup, hatt]

/-- Nothing is left of the multi handle with libcurl. -/
theorem curlMultiCleanup_counts (s : Handles) (m m' : MultiSlot) (h : Slot) :
    (s.curlMultiCleanup m).inLocals m' h = s.inLocals m' h ∧
      (s.curlMultiCleanup m).inRing m' h = s.inRing m' h ∧
      (s.curlMultiCleanup m).inHand m' h = (if m' = m then 0 else s.inHand m' h) ∧
      (s.curlMultiCleanup m).inMsglist m' h = (if m' = m then 0 else s.inMsglist m' h) ∧
      ((s.curlMultiCleanup m).Attached m' h ↔ m' ≠ m ∧ s.Attached m' h) := by
  have hmultis : ((s.curlMultiCleanup m).multis m').locals = (s.multis m').locals ∧
      ((s.curlMultiCleanup m).multis m').messages = (s.multis m').messages ∧
      ((s.curlMultiCleanup m).multis m').handle = if m' = m then none else (s.multis m').handle := by
    unfold curlMultiCleanup
    rw [multis_setMulti]
    split_ifs with heq
    · subst heq
      exact ⟨rfl, rfl, rfl⟩
    · exact ⟨rfl, rfl, rfl⟩
  have hheld : ∀ m', s.Attached m h → (s.transfers h).easy = some { multi := some m', alive := true } →
      m' = m := by
    intro m' hatt heasy
    unfold Attached at hatt
    rw [heasy] at hatt
    exact Option.some.inj hatt
  refine ⟨?_, ?_, ?_, ?_, ?_⟩
  · unfold inLocals
    rw [hmultis.1]
  · unfold inRing
    rw [hmultis.2.1]
  · unfold inHand
    rw [curlMultiCleanup_easy]
    by_cases heq : m' = m
    · subst heq
      rw [if_pos rfl, if_neg]
      split_ifs with hatt
      · simp
      · intro heasy
        apply hatt
        unfold Attached
        rw [heasy]
        rfl
    · rw [if_neg heq]
      split_ifs with hatt hempty heasy heasy
      · cases hempty
      · cases hempty
      · exact absurd (hheld m' hatt heasy) heq
      · rfl
      · rfl
      · rfl
  · unfold inMsglist
    rw [hmultis.2.2]
    split_ifs <;> rfl
  · unfold Attached
    rw [curlMultiCleanup_easy]
    split_ifs with hatt
    · unfold Attached at hatt
      simp [hatt, eq_comm]
    · constructor
      · intro hatt'
        refine ⟨?_, hatt'⟩
        rintro rfl
        exact hatt hatt'
      · exact And.right

theorem curlMultiCleanup_fewer (s : Handles) (m : MultiSlot) :
    Fewer (fun m' _ => m' = m) s (s.curlMultiCleanup m) := by
  have hcounts := curlMultiCleanup_counts s m
  refine ⟨fun m' h => (hcounts m' h).1.le, fun m' h => (hcounts m' h).2.1.le, ?_, ?_, ?_, ?_⟩
  · intro m' h
    rw [(hcounts m' h).2.2.1]
    split_ifs <;> simp
  · intro m' h
    rw [(hcounts m' h).2.2.2.1]
    split_ifs <;> simp
  · intro m' h hatt
    exact ((hcounts m' h).2.2.2.2.mp hatt).2
  · intro m' h hne
    obtain ⟨hlocals, hring, hhand, hlist, -⟩ := hcounts m' h
    rw [if_neg hne] at hhand hlist
    exact ⟨hlocals, hring, hhand, hlist⟩

theorem foldl_curlRemove_fewer (m : MultiSlot) (ls : List Slot) (s : Handles) :
    Fewer (fun m' _ => m' = m) s (ls.foldl (fun s h => (s.curlRemove m h).2) s) := by
  induction ls generalizing s with
  | nil => exact Fewer.refl s
  | cons h ls ih =>
    have hfirst : Fewer (fun m' _ => m' = m) s (s.curlRemove m h).2 :=
      (curlRemove_fewer s m h).mono fun _ _ htouched => htouched.1
    exact hfirst.trans (ih _)

/-! ## Opening and closing -/

theorem closeMulti_fewer (s : Handles) (m : MultiSlot) :
    Fewer (fun m' _ => m' = m) s (s.closeMulti m) := by
  unfold closeMulti
  dsimp only
  have hclear : Fewer (fun m' _ => m' = m) s (s.setMulti m { s.multis m with
      locals := []
      answered := 0
      messages := { (s.multis m).messages with
        head := ⟨0, by decide⟩
        count := 0
        bounded := Nat.zero_le _ }
      fits := by simp }) := by
    apply setMulti_fewer
    · simp
    · simp [RingBuffer.contents]
    · exact fun _ => le_rfl
  split_ifs with hhandle
  · exact (hclear.trans (foldl_curlRemove_fewer m _ _)).trans (curlMultiCleanup_fewer _ m)
  · exact hclear.trans (foldl_curlRemove_fewer m _ _)

theorem openMulti_fewer (s : Handles) (m : MultiSlot) (accepts : Bool) :
    Fewer (fun m' _ => m' = m) s (s.openMulti m accepts).2 := by
  unfold openMulti
  dsimp only
  split_ifs
  · apply (closeMulti_fewer s m).trans
    apply setMulti_fewer
    · exact fun _ => le_rfl
    · exact fun _ => le_rfl
    · simp
  · exact closeMulti_fewer s m

theorem openTransfer_cases (s : Handles) (accepts : Bool) :
    s.openTransfer accepts = (none, s) ∨ ∃ h, s.transferUsed h = false ∧
      (s.openTransfer accepts = (none, s.curlEasyCleanup h) ∨
        s.openTransfer accepts = (some h,
          { (s.curlEasyCleanup h).setTransfer h Transfer.opened with
            transferUsed := Function.update (s.curlEasyCleanup h).transferUsed h true })) := by
  unfold openTransfer
  cases hfind : (List.finRange 64).find? fun h => !s.transferUsed h with
  | none => exact .inl rfl
  | some h =>
    refine .inr ⟨h, by simpa using List.find?_some hfind, ?_⟩
    cases accepts with
    | true => exact .inr rfl
    | false => exact .inl rfl

theorem openTransfer_fewer (s : Handles) (accepts : Bool) :
    Fewer (fun _ h => s.transferUsed h = false) s (s.openTransfer accepts).2 := by
  rcases openTransfer_cases s accepts with heq | ⟨h, hunused, heq | heq⟩
  · rw [heq]
    exact Fewer.refl s
  · have hclosed : Fewer (fun _ h => s.transferUsed h = false) s (s.curlEasyCleanup h) :=
      (curlEasyCleanup_fewer s h).mono fun _ _ htouched => htouched ▸ hunused
    rw [heq]
    exact hclosed
  · have hclosed : Fewer (fun _ h => s.transferUsed h = false) s (s.curlEasyCleanup h) :=
      (curlEasyCleanup_fewer s h).mono fun _ _ htouched => htouched ▸ hunused
    rw [heq]
    apply hclosed.trans
    have hopened : Fewer (fun _ h => s.transferUsed h = false) (s.curlEasyCleanup h)
        ((s.curlEasyCleanup h).setEasy h (some {})) :=
      setEasy_fewer rfl fun _ hnot => absurd hunused hnot
    apply hopened.trans
    apply fewer_of_same
    · exact fun _ => ⟨rfl, rfl, rfl⟩
    · intro h'
      simp only [transfers_setTransfer, transfers_setEasy]
      split_ifs <;> rfl

theorem closeTransfer_fewer (s : Handles) (h : Slot) : Fewer touched s (s.closeTransfer h) := by
  apply fewer_of_same
  · exact fun _ => ⟨rfl, rfl, rfl⟩
  · intro h'
    unfold closeTransfer
    rw [transfers_setTransfer]
    split_ifs with heq
    · rw [heq]
    · rfl

theorem openMultiHandle_fewer (s : Handles) (accepts : Bool) :
    Fewer (fun m _ => s.multiUsed m = false) s (s.openMultiHandle accepts).2 := by
  unfold openMultiHandle
  cases hfind : (List.finRange 8).find? fun m => !s.multiUsed m with
  | none => exact Fewer.refl s
  | some m =>
    have hunused : s.multiUsed m = false := by
      simpa using List.find?_some hfind
    have hopened : Fewer (fun m _ => s.multiUsed m = false) s (s.openMulti m accepts).2 :=
      (openMulti_fewer s m accepts).mono fun _ _ htouched => htouched ▸ hunused
    dsimp only
    generalize s.openMulti m accepts = opened at hopened
    obtain ⟨success, s'⟩ := opened
    cases success with
    | false => exact hopened
    | true => exact hopened.trans (fewer_of_same (fun _ => ⟨rfl, rfl, rfl⟩) fun _ => rfl)

theorem closeMultiHandle_fewer (s : Handles) (m : MultiSlot) :
    Fewer touched s (s.closeMultiHandle m) := by
  apply fewer_of_same
  · intro m'
    unfold closeMultiHandle
    dsimp only
    rw [multis_setMulti]
    split_ifs with heq
    · subst heq
      exact ⟨rfl, rfl, rfl⟩
    · exact ⟨rfl, rfl, rfl⟩
  · exact fun _ => rfl

theorem count_swapRemove {l : List Slot} (hfound : l.idxOf h < l.length) (h' : Slot) :
    (swapRemove l (l.idxOf h)).count h' + (if h' = h then 1 else 0) = l.count h' := by
  have hperm := (swapRemove_perm hfound).count_eq h'
  rw [List.getElem_idxOf hfound, List.count_cons] at hperm
  rw [hperm]
  by_cases heq : h' = h
  · simp [heq]
  · simp [heq, Ne.symm heq]

/-- `multi::remove` takes one entry out of the array, or leaves it to libcurl. -/
theorem remove_fewer (s : Handles) (m : MultiSlot) (h : Slot) :
    Fewer (fun m' h' => m' = m ∧ h' = h) s (s.remove m h).2 := by
  unfold remove
  dsimp only
  split_ifs with hhere hfound
  · exact curlRemove_fewer s m h
  · have hcount := count_swapRemove hfound
    have hfewer : Fewer (fun m' _ => m' = m) s (s.setMulti m { s.multis m with
        locals := swapRemove (s.multis m).locals ((s.multis m).locals.idxOf h)
        answered := (swapRemove (s.multis m).locals ((s.multis m).locals.idxOf h)).length
        fits := by have := swapRemove_length hfound; have := (s.multis m).fits; omega }) := by
      apply setMulti_fewer
      · intro h'
        exact Nat.le_of_add_right_le (hcount h').le
      · exact fun _ => le_rfl
      · exact fun _ => le_rfl
    refine ⟨hfewer.locals, hfewer.ring, hfewer.hand, hfewer.msglist, hfewer.attached, ?_⟩
    intro m' h' hnot
    by_cases heq : m' = m
    · subst heq
      have hne : h' ≠ h := fun heq => hnot ⟨rfl, heq⟩
      have hsame := hcount h'
      rw [if_neg hne, Nat.add_zero] at hsame
      rw [inLocals_setMulti, inRing_setMulti, inMsglist_setMulti, if_pos rfl, if_pos rfl, if_pos rfl]
      exact ⟨hsame, rfl, rfl, rfl⟩
    · exact hfewer.same m' h' heq
  · exact Fewer.refl s

/-! ## Adding -/

/-- What `multi::add` can do: refuse, hand the easy handle to libcurl, or take the transfer into its
array. -/
theorem add_cases (s : Handles) (m : MultiSlot) (h : Slot) (accepts : Bool) {code : MultiCode}
    {s' : Handles} (hadd : s.add m h accepts = (code, s')) :
    ∃ t, t = ((s.transfers h).begin s.installed accepts).2 ∧
      (code ≠ .ok ∧ s' = s.setTransfer h t ∨
        code = .ok ∧ t.here = false ∧ (s.multis m).handle.isSome = true ∧
          (∃ e, (s.transfers h).easy = some e ∧ e.multi = none) ∧
          s' = (s.setTransfer h t).setEasy h (some { multi := some m, alive := true }) ∨
        code = .ok ∧ t.here = true ∧ (s.multis m).locals.length < capacity ∧
          ∃ n, s' = (s.setTransfer h t).setMulti m n ∧ n.locals = (s.multis m).locals ++ [h] ∧
            n.messages = (s.multis m).messages ∧ n.handle = (s.multis m).handle ∧
            n.answered = n.locals.length ∧ n.ours = (s.multis m).ours) := by
  obtain ⟨-, heasy, -, -⟩ := Transfer.begin_same s.installed accepts (s.transfers h)
  unfold add at hadd
  generalize (s.transfers h).begin s.installed accepts = begun at hadd heasy
  obtain ⟨success, t⟩ := begun
  refine ⟨t, rfl, ?_⟩
  dsimp only at hadd heasy
  split_ifs at hadd with hbegun hhere hfull
  · obtain ⟨rfl, rfl⟩ := Prod.mk.inj hadd
    exact .inl ⟨by decide, rfl⟩
  · unfold curlAdd at hadd
    rw [multis_setTransfer, transfers_setTransfer, if_pos rfl, heasy] at hadd
    cases hhandle : (s.multis m).handle with
    | none =>
      rw [hhandle] at hadd
      obtain ⟨rfl, rfl⟩ := Prod.mk.inj hadd
      exact .inl ⟨by decide, rfl⟩
    | some msglist =>
      rw [hhandle] at hadd
      cases hexists : (s.transfers h).easy with
      | none =>
        rw [hexists] at hadd
        obtain ⟨rfl, rfl⟩ := Prod.mk.inj hadd
        exact .inl ⟨by decide, rfl⟩
      | some e =>
        rw [hexists] at hadd
        dsimp only at hadd
        split_ifs at hadd with hmulti
        · obtain ⟨rfl, rfl⟩ := Prod.mk.inj hadd
          exact .inl ⟨by decide, rfl⟩
        · obtain ⟨rfl, rfl⟩ := Prod.mk.inj hadd
          exact .inr (.inl ⟨rfl, hhere, rfl, ⟨e, rfl, not_not.mp hmulti⟩, rfl⟩)
  · obtain ⟨rfl, rfl⟩ := Prod.mk.inj hadd
    exact .inl ⟨by decide, rfl⟩
  · obtain ⟨rfl, rfl⟩ := Prod.mk.inj hadd
    have hfits := (s.multis m).fits
    rw [multis_setTransfer] at hfull
    refine .inr (.inr ⟨rfl, by simpa using hhere, by omega, _, rfl, rfl, rfl, rfl, ?_, rfl⟩)
    simp

theorem add_answered (s : Handles) (m : MultiSlot) (h : Slot) (accepts : Bool)
    (hanswer : (XCurl.answer (s.transfers h).method (s.transfers h).url).isSome = true) :
    (s.add m h accepts).1 =
      if (s.multis m).locals.length = capacity then .outOfMemory else .ok := by
  obtain ⟨-, -, -, hhere⟩ := Transfer.begin_same s.installed accepts (s.transfers h)
  have hbegun := Transfer.begin_here s.installed accepts hanswer
  rw [hanswer] at hhere
  unfold add
  generalize (s.transfers h).begin s.installed accepts = begun at hhere hbegun
  obtain ⟨success, t⟩ := begun
  dsimp only at hhere hbegun ⊢
  by_cases hfull : (s.multis m).locals.length = capacity
  · simp [hhere, hbegun, hfull]
  · simp [hhere, hbegun, hfull]

theorem attach_counts (s : Handles) (m : MultiSlot) (h : Slot) (t : Transfer) {s' : Handles}
    (hs' : s' = (s.setTransfer h t).setEasy h (some { multi := some m, alive := true }))
    (m' : MultiSlot) (h' : Slot) :
    s'.inLocals m' h' = s.inLocals m' h' ∧ s'.inRing m' h' = s.inRing m' h' ∧
      s'.inHand m' h' = (if h' = h then (if m' = m then 1 else 0) else s.inHand m' h') ∧
      s'.inMsglist m' h' = s.inMsglist m' h' ∧
      (s'.Attached m' h' ↔ if h' = h then m' = m else s.Attached m' h') := by
  subst hs'
  refine ⟨rfl, rfl, ?_, rfl, ?_⟩
  · unfold inHand
    rw [transfers_setEasy, transfers_setTransfer]
    by_cases hh : h' = h
    · simp [hh, eq_comm]
    · simp [hh]
  · unfold Attached
    rw [transfers_setEasy, transfers_setTransfer]
    by_cases hh : h' = h
    · simp [hh, eq_comm]
    · simp [hh]

/-- A transfer that the multi handle takes is in its array once more. -/
theorem push_counts (s : Handles) {m : MultiSlot} {h : Slot} {t : Transfer} {n : Multi}
    {s' : Handles} (hs' : s' = (s.setTransfer h t).setMulti m n)
    (heasy : t.easy = (s.transfers h).easy) (hlocals : n.locals = (s.multis m).locals ++ [h])
    (hmessages : n.messages = (s.multis m).messages) (hhandle : n.handle = (s.multis m).handle)
    (m' : MultiSlot) (h' : Slot) :
    s'.inLocals m' h' = s.inLocals m' h' + (if m' = m ∧ h' = h then 1 else 0) ∧
      s'.inRing m' h' = s.inRing m' h' ∧ s'.inHand m' h' = s.inHand m' h' ∧
      s'.inMsglist m' h' = s.inMsglist m' h' ∧ (s'.Attached m' h' ↔ s.Attached m' h') := by
  subst hs'
  have heasies : ∀ h', ((s.setTransfer h t).transfers h').easy = (s.transfers h').easy := by
    intro h'
    rw [transfers_setTransfer]
    split_ifs with hh
    · rw [heasy, hh]
    · rfl
  refine ⟨?_, ?_, ?_, ?_, ?_⟩
  · rw [inLocals_setMulti]
    by_cases hm : m' = m
    · subst hm
      rw [if_pos rfl, hlocals, List.count_append]
      unfold inLocals
      by_cases hh : h' = h
      · simp [hh]
      · simp [hh, Ne.symm hh]
    · simp [hm, inLocals]
  · rw [inRing_setMulti, hmessages]
    split_ifs with hm
    · rw [hm]
      rfl
    · rfl
  · unfold inHand
    rw [transfers_setMulti, heasies]
  · rw [inMsglist_setMulti, hhandle]
    split_ifs with hm
    · rw [hm]
      rfl
    · rfl
  · unfold Attached
    rw [transfers_setMulti, heasies]

/-! ## Performing -/

theorem inHand_of_alive (halive : s.Alive m h) : s.inHand m h = 1 := if_pos halive.2

/-- Nothing moves but the transfer that libcurl completes. -/
theorem finish_counts (halive : s.Alive m h) (result : CurlCode) {s' : Handles}
    (hs' : s' = (s.setEasy h (some { multi := some m, alive := false })).setMsglist m
      ((s.multis m).handle.getD [] ++ [(h, result)])) (m' : MultiSlot) (h' : Slot) :
    s'.inLocals m' h' = s.inLocals m' h' ∧ s'.inRing m' h' = s.inRing m' h' ∧
      s'.inHand m' h' = (if h' = h then 0 else s.inHand m' h') ∧
      s'.inMsglist m' h' = s.inMsglist m' h' + (if m' = m ∧ h' = h then 1 else 0) ∧
      (s'.Attached m' h' ↔ s.Attached m' h') := by
  subst hs'
  unfold setMsglist
  refine ⟨?_, ?_, ?_, ?_, ?_⟩
  · rw [inLocals_setMulti]
    split_ifs with heq
    · rw [heq]
      rfl
    · rfl
  · rw [inRing_setMulti]
    split_ifs with heq
    · rw [heq]
      rfl
    · rfl
  · unfold inHand
    rw [transfers_setMulti, transfers_setEasy]
    split_ifs <;> simp_all
  · rw [inMsglist_setMulti]
    by_cases heq : m' = m
    · subst heq
      rw [if_pos rfl]
      unfold inMsglist
      by_cases hh : h' = h
      · simp [hh]
      · simp [hh, Ne.symm hh]
    · simp [heq, inMsglist]
  · unfold Attached
    rw [transfers_setMulti, transfers_setEasy]
    split_ifs with heq
    · rw [heq, halive.2]
      rfl
    · exact Iff.rfl

theorem curlWork_cases {w : Work} {ev : List Event} (hwork : s.curlWork m w = some (s', ev)) :
    ∃ h, s.Alive m h ∧
      (s' = s ∧ ev = [.calledBack m h] ∨
        ev = [] ∧ ∃ result, s' = (s.setEasy h (some { multi := some m, alive := false })).setMsglist m
          ((s.multis m).handle.getD [] ++ [(h, result)])) := by
  cases w with
  | callBack h =>
    simp only [curlWork] at hwork
    split_ifs at hwork with halive
    obtain ⟨rfl, rfl⟩ : s = s' ∧ [Event.calledBack m h] = ev := by simpa using hwork
    exact ⟨h, halive, .inl ⟨rfl, rfl⟩⟩
  | finish h result =>
    simp only [curlWork] at hwork
    split_ifs at hwork with halive
    obtain ⟨hs', rfl⟩ := Prod.mk.inj (Option.some.inj hwork)
    exact ⟨h, halive, .inr ⟨rfl, result, hs'.symm⟩⟩

/-- What libcurl's work keeps, it keeps throughout. -/
theorem curlPerform_induct {P : Handles → List Event → Handles → Prop}
    (nil : ∀ s, P s [] s)
    (cons : ∀ s w s' ev ev' s'', s.curlWork m w = some (s', ev) → P s' ev' s'' →
      P s (ev ++ ev') s'')
    {work : List Work} {ev : List Event} (hperform : s.curlPerform m work = some (s', ev)) :
    P s ev s' := by
  induction work generalizing s ev with
  | nil =>
    obtain ⟨rfl, rfl⟩ : s = s' ∧ [] = ev := by simpa [curlPerform] using hperform
    exact nil s
  | cons w work ih =>
    rw [curlPerform] at hperform
    cases hwork : s.curlWork m w with
    | none => simp [hwork] at hperform
    | some first =>
      obtain ⟨s₁, ev₁⟩ := first
      rw [hwork] at hperform
      obtain ⟨⟨s₂, ev₂⟩, hrest, heq⟩ := Option.map_eq_some_iff.mp hperform
      obtain ⟨rfl, rfl⟩ := Prod.mk.inj heq
      exact cons _ _ _ _ _ _ hwork (ih hrest)

theorem deliver_cases (s : Handles) (m : MultiSlot) (h : Slot) :
    (s.transfers h).delivered = true ∧ s.deliver m h = (s, []) ∨
      (s.transfers h).delivered = false ∧
        s.deliver m h = (s.setTransfer h { s.transfers h with delivered := true },
          [.delivered m h (s.transfers h).deliveries]) := by
  unfold deliver
  cases hdelivered : (s.transfers h).delivered with
  | true => exact .inl ⟨rfl, by simp [hdelivered]⟩
  | false => exact .inr ⟨rfl, by simp [hdelivered]⟩

theorem deliver_transfers (s : Handles) (m : MultiSlot) (h h' : Slot) :
    (s.deliver m h).1.transfers h' =
      if h' = h then { s.transfers h with delivered := true } else s.transfers h' := by
  rcases deliver_cases s m h with ⟨hdelivered, heq⟩ | ⟨-, heq⟩
  · rw [heq]
    split_ifs with hh
    · rw [hh, ← hdelivered]
    · rfl
  · rw [heq]
    exact transfers_setTransfer ..

theorem deliver_rest (s : Handles) (m : MultiSlot) (h : Slot) :
    (s.deliver m h).1.multis = s.multis ∧ (s.deliver m h).1.transferUsed = s.transferUsed ∧
      (s.deliver m h).1.multiUsed = s.multiUsed := by
  rcases deliver_cases s m h with ⟨-, heq⟩ | ⟨-, heq⟩ <;> rw [heq] <;> exact ⟨rfl, rfl, rfl⟩

/-- Delivering writes nothing but the flags, and makes known the answers it delivers. -/
theorem deliverAll_spec (m : MultiSlot) (ls : List Slot) (s : Handles) :
    (∀ h, (s.deliverAll m ls).1.transfers h =
        if h ∈ ls then { s.transfers h with delivered := true } else s.transfers h) ∧
      (s.deliverAll m ls).1.multis = s.multis ∧
      (s.deliverAll m ls).1.transferUsed = s.transferUsed ∧
      (s.deliverAll m ls).1.multiUsed = s.multiUsed ∧
      ∀ e ∈ (s.deliverAll m ls).2, ∃ h ∈ ls, ∃ calls, e = .delivered m h calls := by
  induction ls generalizing s with
  | nil => simp [deliverAll]
  | cons h ls ih =>
    obtain ⟨htransfers, hmultis, hused, hmultiUsed, hevents⟩ := ih (s.deliver m h).1
    obtain ⟨hmultis', hused', hmultiUsed'⟩ := deliver_rest s m h
    refine ⟨?_, hmultis.trans hmultis', hused.trans hused', hmultiUsed.trans hmultiUsed', ?_⟩
    · intro h'
      have hfirst := deliver_transfers s m h h'
      rw [deliverAll, htransfers h', hfirst]
      by_cases heq : h' = h
      · subst heq
        simp
      · simp [heq]
    · intro e he
      rcases List.mem_append.mp he with he | he
      · rcases deliver_cases s m h with ⟨-, heq⟩ | ⟨-, heq⟩
        · rw [heq] at he
          cases he
        · rw [heq] at he
          exact ⟨h, List.mem_cons_self, _, List.mem_singleton.mp he⟩
      · obtain ⟨h', hmem, calls, rfl⟩ := hevents e he
        exact ⟨h', List.mem_cons_of_mem _ hmem, calls, rfl⟩

/-- Queueing a list of delivered transfers appends their completions. -/
theorem foldlM_queue {taken : List Slot} {ring ring' : RingBuffer Message capacity}
    {ev ev' : List Event} (hfold : taken.foldlM (s.queue m) (ring, ev) = some (ring', ev')) :
    ring'.contents = ring.contents ++
        taken.map (fun h => ⟨.transfer h, (s.transfers h).outcome⟩) ∧
      ev' = ev ++ taken.map (fun h => Event.queued m h) ∧
      ∀ h ∈ taken, (s.transfers h).delivered = true := by
  induction taken generalizing ring ev with
  | nil =>
    obtain ⟨rfl, rfl⟩ : ring = ring' ∧ ev = ev' := by simpa using hfold
    simp
  | cons h taken ih =>
    simp only [List.foldlM_cons, Option.bind_eq_bind, Option.bind_eq_some_iff] at hfold
    obtain ⟨⟨ring₁, ev₁⟩, hqueue, hrest⟩ := hfold
    simp only [queue] at hqueue
    split_ifs at hqueue with hdelivered hroom
    obtain ⟨rfl, rfl⟩ := Prod.mk.inj (Option.some.inj hqueue)
    obtain ⟨hcontents, hevents, hall⟩ := ih hrest
    refine ⟨?_, ?_, ?_⟩
    · rw [hcontents, RingBuffer.contents_push]
      simp
    · rw [hevents]
      simp
    · rw [List.forall_mem_cons]
      exact ⟨by simpa using hdelivered, hall⟩

/-- The second loop moves some delivered transfers from the array to the ring, and every one that
stays is held back by a ring that is full. -/
theorem queueAll_spec (s : Handles) (m : MultiSlot) :
    ∃ taken, (s.multis m).locals.Perm ((s.queueAll m).1 ++ taken) ∧
      (s.queueAll m).2.1.contents = (s.multis m).messages.contents ++
        taken.map (fun h => ⟨.transfer h, (s.transfers h).outcome⟩) ∧
      (s.queueAll m).2.2 = taken.map (fun h => Event.queued m h) ∧
      (∀ h ∈ taken, (s.transfers h).delivered = true) ∧
      ∀ h ∈ (s.queueAll m).1, (s.transfers h).delivered = true →
        (s.queueAll m).2.1.count = capacity := by
  obtain ⟨taken, hperm, hfold, -, hrefused⟩ := sweep_spec (s.queue_firm m)
    (n := (s.multis m).locals.length) (i := 0) (l := (s.multis m).locals)
    (s := ((s.multis m).messages, [])) (by omega)
  change (s.multis m).locals.Perm ((s.queueAll m).1 ++ taken) at hperm
  change ∀ h ∈ (s.queueAll m).1, s.queue m (s.queueAll m).2 h = none at hrefused
  obtain ⟨hcontents, hevents, hall⟩ := foldlM_queue hfold
  refine ⟨taken, hperm, hcontents, ?_, hall, ?_⟩
  · exact hevents.trans (List.nil_append _)
  · intro h hmem hdelivered
    have hnone := hrefused h hmem
    have hbounded := (s.queueAll m).2.1.bounded
    by_contra hne
    have hroom : (s.queueAll m).2.1.count < capacity := by omega
    simp [queue, hdelivered, hroom] at hnone

/-- All of `answered`: every transfer of the array is delivered, and those taken from it are in the
ring, which is full where any is left. -/
structure Answering (s : Handles) (m : MultiSlot) (s' : Handles) (ev : List Event)
    (taken : List Slot) : Prop where
  transfers : ∀ h, s'.transfers h =
    if h ∈ (s.multis m).locals then { s.transfers h with delivered := true } else s.transfers h
  others : ∀ m', m' ≠ m → s'.multis m' = s.multis m'
  handle : (s'.multis m).handle = (s.multis m).handle
  ours : (s'.multis m).ours = (s.multis m).ours
  transferUsed : s'.transferUsed = s.transferUsed
  multiUsed : s'.multiUsed = s.multiUsed
  locals : (s.multis m).locals.Perm ((s'.multis m).locals ++ taken)
  answered : (s'.multis m).answered = (s'.multis m).locals.length
  ring : (s'.multis m).messages.contents = (s.multis m).messages.contents ++
    taken.map (fun h => ⟨.transfer h, (s.transfers h).outcome⟩)
  full : (s'.multis m).locals ≠ [] → (s'.multis m).messages.count = capacity
  events : ev = (s.deliverAll m (s.multis m).locals).2 ++ taken.map (fun h => Event.queued m h)

theorem answered_spec (s : Handles) (m : MultiSlot) :
    ∃ taken, Answering s m (s.answered m).1 (s.answered m).2 taken := by
  obtain ⟨htransfers, hmultis, hused, hmultiUsed, -⟩ := deliverAll_spec m (s.multis m).locals s
  generalize hs₁ : (s.deliverAll m (s.multis m).locals).1 = s₁ at htransfers hmultis hused hmultiUsed
  obtain ⟨taken, hperm, hcontents, hevents, hall, hheld⟩ := queueAll_spec s₁ m
  rw [hmultis] at hperm hcontents
  have houtcome : ∀ h, (s₁.transfers h).outcome = (s.transfers h).outcome := by
    intro h
    rw [htransfers]
    split_ifs <;> rfl
  simp only [houtcome] at hcontents
  have hstate : s.answered m = (s₁.setMulti m { s₁.multis m with
      locals := (s₁.queueAll m).1
      answered := (s₁.queueAll m).1.length
      messages := (s₁.queueAll m).2.1
      fits := s₁.queueAll_length m }, (s.deliverAll m (s.multis m).locals).2 ++
        (s₁.queueAll m).2.2) := by
    unfold answered
    dsimp only
    rw [hs₁]
  have hlast : ((s.answered m).1.multis m) = { s₁.multis m with
      locals := (s₁.queueAll m).1
      answered := (s₁.queueAll m).1.length
      messages := (s₁.queueAll m).2.1
      fits := s₁.queueAll_length m } := by
    rw [hstate, multis_setMulti, if_pos rfl]
  refine ⟨taken, ?_, ?_, ?_, ?_, ?_, ?_, ?_, ?_, ?_, ?_, ?_⟩
  · intro h
    rw [hstate]
    exact htransfers h
  · intro m' hne
    rw [hstate, multis_setMulti, if_neg hne, hmultis]
  · rw [hlast, hmultis]
  · rw [hlast, hmultis]
  · rw [hstate]
    exact hused
  · rw [hstate]
    exact hmultiUsed
  · rw [hlast]
    exact hperm
  · rw [hlast]
  · rw [hlast]
    exact hcontents
  · intro hne
    rw [hlast] at hne ⊢
    obtain ⟨h, hmem⟩ := List.exists_mem_of_ne_nil _ hne
    apply hheld h hmem
    rw [htransfers, if_pos]
    exact hperm.mem_iff.mpr (List.mem_append_left _ hmem)
  · rw [hstate, hevents]

/-! ## Reading -/

/-- The three kinds of read. -/
theorem read_cases (s : Handles) (m : MultiSlot) {msg : Option Message} {left : ℕ} {s' : Handles}
    (hread : s.read m = (msg, left, s')) :
    (∃ head rest, (s.multis m).messages.contents = head :: rest ∧ msg = some head ∧
        ∃ n, s' = s.setMulti m n ∧ n.locals = (s.multis m).locals ∧ n.messages.contents = rest ∧
          n.handle = (s.multis m).handle ∧ n.answered = (s.multis m).answered ∧
          n.ours = (s.multis m).ours) ∨
      (s.multis m).messages.contents = [] ∧
        ((∃ h result rest, (s.multis m).handle = some ((h, result) :: rest) ∧
            s' = s.setMsglist m rest ∧
            msg = some ⟨if s.transferUsed h = true ∧ (s.transfers h).easy.isSome = true
              then .transfer h else .easy h, result⟩) ∨
          (s.multis m).handle.getD [] = [] ∧ msg = none ∧ s' = s) := by
  unfold read at hread
  dsimp only at hread
  split_ifs at hread with hcount
  · obtain ⟨rfl, hrest⟩ := Prod.mk.inj hread
    obtain ⟨-, rfl⟩ := Prod.mk.inj hrest
    have hhead := (s.multis m).messages.head_contents (Nat.pos_of_ne_zero hcount)
    refine .inl ⟨_, _, hhead, rfl, _, rfl, rfl, ?_, rfl, rfl, rfl⟩
    exact (s.multis m).messages.contents_pop
  · have hempty : (s.multis m).messages.contents = [] := by
      rw [RingBuffer.contents_eq_nil]
      omega
    refine .inr ⟨hempty, ?_⟩
    unfold curlInfoRead at hread
    cases hhandle : (s.multis m).handle with
    | none =>
      rw [hhandle] at hread
      obtain ⟨rfl, hrest⟩ := Prod.mk.inj hread
      obtain ⟨-, rfl⟩ := Prod.mk.inj hrest
      exact .inr ⟨rfl, rfl, rfl⟩
    | some msglist =>
      rw [hhandle] at hread
      cases msglist with
      | nil =>
        obtain ⟨rfl, hrest⟩ := Prod.mk.inj hread
        obtain ⟨-, rfl⟩ := Prod.mk.inj hrest
        exact .inr ⟨rfl, rfl, rfl⟩
      | cons first rest =>
        obtain ⟨h, result⟩ := first
        dsimp only at hread
        obtain ⟨rfl, hrest⟩ := Prod.mk.inj hread
        obtain ⟨-, rfl⟩ := Prod.mk.inj hrest
        refine .inl ⟨h, result, rest, rfl, rfl, ?_⟩
        have hsame : (s.setMsglist m rest).transferOf h = s.transferOf h := rfl
        rw [hsame]
        unfold transferOf
        by_cases hin : s.transferUsed h = true ∧ (s.transfers h).easy.isSome = true
        · rw [if_pos hin, if_pos hin]
        · rw [if_neg hin, if_neg hin]

end Handles

end IW4x.XCurl
