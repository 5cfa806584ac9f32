import IW4x.XCurl.Heard

/-!
# Removing a transfer

What libcurl has of a transfer goes when its easy handle is removed, so a network transfer that was
removed is nowhere. A transfer that the client answers itself is looked for in the array alone: its
completion, once it is in the ring, stays there and is read after the transfer was removed.
-/

namespace IW4x.XCurl

open Runs

namespace Handles

variable {s s' : Handles} {m : MultiSlot} {h : Slot}

/-! ## What libcurl has of a transfer -/

/-- How often libcurl has a transfer for the multi handle. -/
def withCurl (s : Handles) (m : MultiSlot) (h : Slot) : ℕ := s.inHand m h + s.inMsglist m h

/-- An easy handle that belongs to a multi handle is in its hands, or has left one message there, or
that message was read. Of any other easy handle libcurl has nothing. -/
def Accounted (s : Handles) : Prop :=
  ∀ m h, s.withCurl m h ≤ 1 ∧ (0 < s.withCurl m h → s.Attached m h)

theorem Accounted.nothing (acc : s.Accounted) (hatt : ¬ s.Attached m h) : s.withCurl m h = 0 := by
  by_contra hne
  exact hatt ((acc m h).2 (Nat.pos_of_ne_zero hne))

theorem Accounted.mono (acc : s.Accounted) (hkept : ∀ m h, s'.withCurl m h = 0 ∨
    s'.withCurl m h ≤ s.withCurl m h ∧ (s.Attached m h → s'.Attached m h)) : s'.Accounted := by
  intro m h
  obtain ⟨hle, hatt⟩ := acc m h
  rcases hkept m h with hnone | ⟨hless, hatt'⟩
  · rw [hnone]
    exact ⟨Nat.zero_le 1, fun hpos => absurd hpos (lt_irrefl 0)⟩
  · exact ⟨hless.trans hle, fun hpos => hatt' (hatt (hpos.trans_le hless))⟩

theorem Accounted.of_same (acc : s.Accounted)
    (heasy : ∀ h, (s'.transfers h).easy = (s.transfers h).easy)
    (hhandle : ∀ m, (s'.multis m).handle = (s.multis m).handle) : s'.Accounted := by
  apply acc.mono
  intro m h
  unfold withCurl inHand inMsglist Attached
  rw [heasy, hhandle]
  exact .inr ⟨le_rfl, id⟩

theorem Accounted.setTransfer (acc : s.Accounted) {t : Transfer}
    (heasy : t.easy = (s.transfers h).easy) : (s.setTransfer h t).Accounted := by
  apply acc.of_same
  · intro h'
    rw [transfers_setTransfer]
    split_ifs with heq
    · rw [heasy, heq]
    · rfl
  · exact fun _ => rfl

theorem Accounted.setMulti (acc : s.Accounted) {n : Multi} (hhandle : n.handle = (s.multis m).handle) :
    (s.setMulti m n).Accounted := by
  apply acc.of_same
  · exact fun _ => rfl
  · intro m'
    rw [multis_setMulti]
    split_ifs with heq
    · rw [hhandle, heq]
    · rfl

theorem setEasy_counts (s : Handles) {e : Option Easy} (he : unattached e) (m : MultiSlot)
    (h h' : Slot) :
    (s.setEasy h e).inHand m h' = (if h' = h then 0 else s.inHand m h') ∧
      ((s.setEasy h e).Attached m h' ↔ h' ≠ h ∧ s.Attached m h') := by
  unfold inHand Attached
  rw [transfers_setEasy]
  by_cases heq : h' = h
  · unfold unattached at he
    have hne : e ≠ some { multi := some m, alive := true } := by
      rintro rfl
      cases he
    simp [heq, he, hne]
  · simp [heq]

theorem Accounted.setEasy (acc : s.Accounted) {e : Option Easy} (he : unattached e)
    (hlist : ∀ m, s.inMsglist m h = 0) : (s.setEasy h e).Accounted := by
  apply acc.mono
  intro m h'
  obtain ⟨hhand, hatt⟩ := setEasy_counts s he m h h'
  have hsame : (s.setEasy h e).inMsglist m h' = s.inMsglist m h' := rfl
  unfold withCurl
  rw [hhand, hsame]
  by_cases heq : h' = h
  · rw [if_pos heq, heq, hlist]
    exact .inl rfl
  · rw [if_neg heq]
    exact .inr ⟨le_rfl, fun hatt' => hatt.mpr ⟨heq, hatt'⟩⟩

theorem countP_eraseP {α : Type*} {p : α → Bool} {l : List α} (hle : l.countP p ≤ 1) :
    (l.eraseP p).countP p = 0 := by
  induction l with
  | nil => rfl
  | cons a l ih =>
    cases ha : p a with
    | true =>
      rw [List.countP_cons_of_pos ha] at hle
      rw [List.eraseP_cons_of_pos ha]
      omega
    | false =>
      have hnot : ¬ p a = true := by simp [ha]
      rw [List.countP_cons_of_neg hnot] at hle
      rw [List.eraseP_cons_of_neg hnot, List.countP_cons_of_neg hnot]
      exact ih hle

/-- What `curl_multi_remove_handle` can do: refuse, find nothing to do, or take the easy handle and
its message away. -/
theorem curlRemove_cases (s : Handles) (m : MultiSlot) (h : Slot) :
    (s.curlRemove m h).2 = s ∧ ((s.curlRemove m h).1 = .ok → ¬ s.Attached m h) ∧
        (s.Attached m h → (s.multis m).handle = none) ∨
      s.Attached m h ∧ ∃ msglist, (s.multis m).handle = some msglist ∧
        (s.curlRemove m h).2 =
          (s.setEasy h (some {})).setMsglist m (msglist.eraseP fun msg => msg.1 = h) := by
  unfold curlRemove Attached
  cases hhandle : (s.multis m).handle with
  | none => exact .inl ⟨rfl, by simp, fun _ => rfl⟩
  | some msglist =>
    cases heasy : (s.transfers h).easy with
    | none => exact .inl ⟨rfl, by simp, by simp⟩
    | some e =>
      dsimp only
      split_ifs with hnone hother
      · exact .inl ⟨rfl, by simp [hnone], by simp [hnone]⟩
      · exact .inl ⟨rfl, by simp, fun hatt => absurd hatt hother⟩
      · exact .inr ⟨not_not.mp hother, msglist, rfl, rfl⟩

theorem Accounted.curlRemove (acc : s.Accounted) (m : MultiSlot) (h : Slot) :
    (s.curlRemove m h).2.Accounted := by
  rcases curlRemove_cases s m h with ⟨heq, -, -⟩ | ⟨hatt, msglist, hhandle, heq⟩
  · rw [heq]
    exact acc
  · rw [heq]
    apply acc.mono
    intro m' h'
    obtain ⟨hhand, hatt'⟩ := setEasy_counts s (e := some {}) rfl m' h h'
    have hlist : ∀ h, s.inMsglist m h = msglist.countP fun msg => msg.1 = h := by
      intro h
      unfold inMsglist
      rw [hhandle]
      rfl
    have hleft : ((s.setEasy h (some {})).setMsglist m
        (msglist.eraseP fun msg => msg.1 = h)).inMsglist m' h' = if m' = m then
          (msglist.eraseP fun msg => msg.1 = h).countP fun msg => msg.1 = h'
        else s.inMsglist m' h' :=
      inMsglist_setMulti ..
    unfold withCurl
    rw [hleft]
    change (s.setEasy h (some {})).inHand m' h' + _ = 0 ∨
      (s.setEasy h (some {})).inHand m' h' + _ ≤ _ ∧
        (_ → (s.setEasy h (some {})).Attached m' h')
    rw [hhand, hatt']
    by_cases hh : h' = h
    · subst hh
      rw [if_pos rfl]
      left
      by_cases hm : m' = m
      · subst hm
        have hle := (acc m' h').1
        unfold withCurl at hle
        rw [hlist] at hle
        rw [if_pos rfl, countP_eraseP (by omega)]
      · have hnothing : s.withCurl m' h' = 0 := by
          apply acc.nothing
          intro hother
          unfold Attached at hatt hother
          rw [hatt] at hother
          exact hm (Option.some.inj hother.symm)
        unfold withCurl at hnothing
        rw [if_neg hm]
        omega
    · rw [if_neg hh]
      right
      refine ⟨?_, fun hother => ⟨hh, hother⟩⟩
      by_cases hm : m' = m
      · subst hm
        rw [if_pos rfl, countP_eraseP_ne msglist hh, hlist]
      · rw [if_neg hm]

theorem curlRemove_detached (hcode : (s.curlRemove m h).1 = .ok) :
    ¬ (s.curlRemove m h).2.Attached m h := by
  rcases curlRemove_cases s m h with ⟨heq, hnot, -⟩ | ⟨-, msglist, -, heq⟩
  · rw [heq]
    exact hnot hcode
  · rw [heq]
    intro hatt
    exact ((setEasy_counts s (e := some {}) rfl m h h).2.mp hatt).1 rfl

theorem Accounted.curlEasyCleanup (acc : s.Accounted) (h : Slot) :
    (s.curlEasyCleanup h).Accounted := by
  have hnone : ∀ {s : Handles} {m : MultiSlot}, s.Accounted → ¬ s.Attached m h →
      s.inMsglist m h = 0 :=
    fun acc hatt => (Nat.add_eq_zero_iff.mp (acc.nothing hatt)).2
  unfold Handles.curlEasyCleanup
  cases heasy : (s.transfers h).easy with
  | none => exact acc
  | some e =>
    dsimp only
    cases hmulti : e.multi with
    | none =>
      apply acc.setEasy (e := none) rfl
      intro m
      apply hnone acc
      unfold Attached
      simp [heasy, hmulti]
    | some m =>
      have hatt : s.Attached m h := by
        unfold Attached
        simp [heasy, hmulti]
      apply (acc.curlRemove m h).setEasy (e := none) rfl
      intro m'
      rcases curlRemove_cases s m h with ⟨heq, -, hclosed⟩ | ⟨-, msglist, -, heq⟩
      · rw [heq]
        by_cases hm : m' = m
        · unfold inMsglist
          rw [hm, hclosed hatt]
          rfl
        · apply hnone acc
          intro hother
          unfold Attached at hatt hother
          rw [hatt] at hother
          exact hm (Option.some.inj hother.symm)
      · apply hnone (acc.curlRemove m h)
        rw [heq]
        intro hother
        exact ((setEasy_counts s (e := some {}) rfl m' h h).2.mp hother).1 rfl

theorem Accounted.curlMultiCleanup (acc : s.Accounted) (m : MultiSlot) :
    (s.curlMultiCleanup m).Accounted := by
  apply acc.mono
  intro m' h
  obtain ⟨-, -, hhand, hlist, hatt⟩ := curlMultiCleanup_counts s m m' h
  unfold withCurl
  rw [hhand, hlist]
  by_cases hm : m' = m
  · rw [if_pos hm, if_pos hm]
    exact .inl rfl
  · rw [if_neg hm, if_neg hm]
    exact .inr ⟨le_rfl, fun hatt' => hatt.mpr ⟨hm, hatt'⟩⟩

theorem Accounted.closeMulti (acc : s.Accounted) (m : MultiSlot) : (s.closeMulti m).Accounted := by
  have hfold : ∀ (ls : List Slot) (s : Handles), s.Accounted →
      (ls.foldl (fun s h => (s.curlRemove m h).2) s).Accounted := by
    intro ls
    induction ls with
    | nil => exact fun s acc => acc
    | cons h ls ih => exact fun s acc => ih _ (acc.curlRemove m h)
  unfold Handles.closeMulti
  dsimp only
  split_ifs
  · apply Accounted.curlMultiCleanup
    apply hfold
    exact acc.setMulti rfl
  · apply hfold
    exact acc.setMulti rfl

theorem Accounted.openMulti (acc : s.Accounted) (m : MultiSlot) (accepts : Bool) :
    (s.openMulti m accepts).2.Accounted := by
  unfold Handles.openMulti
  dsimp only
  split_ifs
  · apply (acc.closeMulti m).mono
    intro m' h
    unfold withCurl
    rw [inMsglist_setMulti]
    refine .inr ⟨Nat.add_le_add_left ?_ _, id⟩
    split_ifs with hm
    · exact Nat.zero_le _
    · exact le_rfl
  · exact acc.closeMulti m

theorem Accounted.openTransfer (acc : s.Accounted) (accepts : Bool) :
    (s.openTransfer accepts).2.Accounted := by
  rcases openTransfer_cases s accepts with heq | ⟨h, -, heq | heq⟩
  · rw [heq]
    exact acc
  · rw [heq]
    exact acc.curlEasyCleanup h
  · rw [heq]
    have hclosed : ∀ m, ¬ (s.curlEasyCleanup h).Attached m h := by
      intro m hatt
      unfold Attached Handles.curlEasyCleanup at hatt
      cases heasy : (s.transfers h).easy with
      | none => simp [heasy] at hatt
      | some e => simp [heasy] at hatt
    have hopened : ((s.curlEasyCleanup h).setEasy h (some {})).Accounted := by
      apply (acc.curlEasyCleanup h).setEasy (e := some {}) rfl
      intro m
      exact (Nat.add_eq_zero_iff.mp ((acc.curlEasyCleanup h).nothing (hclosed m))).2
    apply hopened.of_same
    · intro h'
      simp only [transfers_setTransfer, transfers_setEasy]
      split_ifs <;> rfl
    · exact fun _ => rfl

theorem Accounted.openMultiHandle (acc : s.Accounted) (accepts : Bool) :
    (s.openMultiHandle accepts).2.Accounted := by
  unfold Handles.openMultiHandle
  cases (List.finRange 8).find? fun m => !s.multiUsed m with
  | none => exact acc
  | some m =>
    have hopened := acc.openMulti m accepts
    dsimp only
    generalize s.openMulti m accepts = opened at hopened
    obtain ⟨success, s'⟩ := opened
    cases success with
    | false => exact hopened
    | true => exact hopened.of_same (fun _ => rfl) fun _ => rfl

theorem Accounted.remove (acc : s.Accounted) (m : MultiSlot) (h : Slot) :
    (s.remove m h).2.Accounted := by
  unfold Handles.remove
  dsimp only
  split_ifs
  · exact acc.curlRemove m h
  · exact acc.setMulti rfl
  · exact acc

theorem Accounted.add (acc : s.Accounted) {accepts : Bool} {code : MultiCode}
    (hadd : s.add m h accepts = (code, s')) : s'.Accounted := by
  obtain ⟨t, ht, hcase⟩ := add_cases s m h accepts hadd
  have heasy : t.easy = (s.transfers h).easy := ht ▸ (Transfer.begin_same _ _ _).2.1
  rcases hcase with ⟨-, hs'⟩ | ⟨-, -, -, ⟨e, he, hmulti⟩, hs'⟩ |
    ⟨-, -, -, n, hs', hlocals, hmessages, hhandle, -, -⟩
  · rw [hs']
    exact acc.setTransfer heasy
  · intro m' h'
    obtain ⟨-, -, hhand, hlist, hatt⟩ := attach_counts s m h t hs' m' h'
    unfold withCurl
    rw [hhand, hlist, hatt]
    by_cases hh : h' = h
    · have hnothing : s.withCurl m' h' = 0 := by
        apply acc.nothing
        unfold Attached
        simp [hh, he, hmulti]
      unfold withCurl at hnothing
      rw [if_pos hh, if_pos hh]
      split_ifs with hm
      · exact ⟨by omega, fun _ => hm⟩
      · exact ⟨by omega, fun hpos => by omega⟩
    · rw [if_neg hh, if_neg hh]
      exact acc m' h'
  · apply acc.mono
    intro m' h'
    obtain ⟨-, -, hhand, hlist, hatt⟩ := push_counts s hs' heasy hlocals hmessages hhandle m' h'
    unfold withCurl
    rw [hhand, hlist]
    exact .inr ⟨le_rfl, hatt.mpr⟩

theorem Accounted.curlPerform (acc : s.Accounted) {work : List Work} {ev : List Event}
    (hperform : s.curlPerform m work = some (s', ev)) : s'.Accounted := by
  revert acc
  refine curlPerform_induct (m := m) (P := fun s _ s' => s.Accounted → s'.Accounted) ?_ ?_ hperform
  · exact fun _ => id
  · intro s w s₁ ev ev' s' hwork ih acc
    apply ih
    obtain ⟨h, halive, ⟨rfl, -⟩ | ⟨-, result, hs'⟩⟩ := curlWork_cases hwork
    · exact acc
    · apply acc.mono
      intro m' h'
      obtain ⟨-, -, hhand, hlist, hatt⟩ := finish_counts halive result hs' m' h'
      have hin := inHand_of_alive halive
      unfold withCurl
      rw [hhand, hlist]
      right
      refine ⟨?_, hatt.mpr⟩
      by_cases hh : h' = h
      · subst hh
        by_cases hm : m' = m
        · subst hm
          simp
          omega
        · simp [hm]
      · simp [hh]

theorem Accounted.answered (acc : s.Accounted) (m : MultiSlot) : (s.answered m).1.Accounted := by
  obtain ⟨taken, spec⟩ := answered_spec s m
  apply acc.of_same
  · intro h
    rw [spec.transfers]
    split_ifs <;> rfl
  · intro m'
    by_cases heq : m' = m
    · rw [heq, spec.handle]
    · rw [spec.others m' heq]

theorem Accounted.perform (acc : s.Accounted) {work : List Work} {alive : ℕ} {ev : List Event}
    (hperform : s.perform m work alive = some (s', ev)) : s'.Accounted := by
  obtain ⟨s₁, ev₁, hcurl, ⟨-, rfl, -⟩ | ⟨-, rfl, -⟩⟩ := perform_cases hperform
  · exact acc.curlPerform hcurl
  · exact (acc.curlPerform hcurl).answered m

theorem Accounted.read (acc : s.Accounted) {msg : Option Message} {left : ℕ}
    (hread : s.read m = (msg, left, s')) : s'.Accounted := by
  rcases read_cases s m hread with ⟨head, rest, -, -, n, hs', -, -, hhandle, -, -⟩ |
    ⟨-, ⟨h, result, rest, hhandle, hs', -⟩ | ⟨-, -, rfl⟩⟩
  · rw [hs']
    exact acc.setMulti hhandle
  · rw [hs']
    apply acc.mono
    intro m' h'
    unfold withCurl setMsglist
    rw [inMsglist_setMulti]
    refine .inr ⟨Nat.add_le_add_left ?_ _, id⟩
    split_ifs with hm
    · unfold inMsglist
      rw [hm, hhandle]
      exact (List.sublist_cons_self _ rest).countP_le
    · exact le_rfl
  · exact acc

end Handles

/-- Every call keeps libcurl's accounts. -/
theorem Handles.Accounted.step {s s' : Handles} {i : Entry} {ev : List Event} (acc : s.Accounted)
    (hstep : XCurl.step s i = some (s', ev)) : s'.Accounted := by
  cases i with
  | easyInit accepts =>
    have hopened := acc.openTransfer accepts
    simp only [XCurl.step] at hstep
    generalize s.openTransfer accepts = opened at hstep hopened
    obtain ⟨_ | h, s₁⟩ := opened <;> obtain ⟨rfl, -⟩ := Prod.mk.inj (Option.some.inj hstep) <;>
      exact hopened
  | easySetopt h o =>
    simp only [XCurl.step] at hstep
    split at hstep <;> obtain ⟨rfl, -⟩ := Prod.mk.inj (Option.some.inj hstep)
    · exact acc
    · exact acc.setTransfer (Transfer.set_same _ o).2.1
  | easyCleanup h =>
    simp only [XCurl.step] at hstep
    split at hstep <;> obtain ⟨rfl, -⟩ := Prod.mk.inj (Option.some.inj hstep)
    · exact acc
    · next h _ =>
      have hclosed : (s.setTransfer h { s.transfers h with ours := false }).Accounted :=
        acc.setTransfer rfl
      exact hclosed.of_same (fun _ => rfl) fun _ => rfl
  | multiInit accepts =>
    obtain ⟨rfl, -⟩ := Prod.mk.inj (Option.some.inj hstep)
    exact acc.openMultiHandle accepts
  | multiAddHandle m h accepts =>
    simp only [XCurl.step] at hstep
    split at hstep <;> obtain ⟨rfl, -⟩ := Prod.mk.inj (Option.some.inj hstep)
    · exact acc.add rfl
    · exact acc
  | multiRemoveHandle m h =>
    simp only [XCurl.step] at hstep
    split at hstep <;> obtain ⟨rfl, -⟩ := Prod.mk.inj (Option.some.inj hstep)
    · exact acc.remove _ _
    · exact acc
  | multiPerform m work alive =>
    simp only [XCurl.step] at hstep
    split at hstep
    · exact acc.perform hstep
    · obtain ⟨rfl, -⟩ := Prod.mk.inj (Option.some.inj hstep)
      exact acc
  | multiInfoRead m =>
    simp only [XCurl.step] at hstep
    split at hstep
    · next m _ =>
      generalize hread : s.read m = result at hstep
      obtain ⟨msg, left, s₁⟩ := result
      obtain ⟨rfl, -⟩ := Prod.mk.inj (Option.some.inj hstep)
      exact acc.read hread
    · obtain ⟨rfl, -⟩ := Prod.mk.inj (Option.some.inj hstep)
      exact acc
  | multiCleanup m =>
    simp only [XCurl.step] at hstep
    split at hstep <;> obtain ⟨rfl, -⟩ := Prod.mk.inj (Option.some.inj hstep)
    · next m _ =>
      have hclosed := (acc.closeMulti m).setMulti (m := m)
        (n := { (s.closeMulti m).multis m with ours := false }) rfl
      exact hclosed.of_same (fun _ => rfl) fun _ => rfl
    · exact acc
  | servePlatformAt d =>
    obtain ⟨rfl, -⟩ := Prod.mk.inj (Option.some.inj hstep)
    exact acc.of_same (fun _ => rfl) fun _ => rfl

theorem start_accounted : start.Accounted := by
  intro m h
  refine ⟨Nat.zero_le 1, ?_⟩
  intro hpos
  exact absurd hpos (lt_irrefl 0)

/-! ## After a transfer was removed -/

/-- `multi::remove` finds all of the transfer in the one place where it looks: a transfer that the
client answers itself is in the array once at most and has nothing in the ring or with libcurl, and
any other has nothing in the array or the ring. -/
def Handles.Removable (s : Handles) (m : MultiSlot) (h : Slot) : Prop :=
  s.inRing m h = 0 ∧
    if (s.transfers h).here = true then s.inLocals m h ≤ 1 ∧ s.withCurl m h = 0
    else s.inLocals m h = 0

instance (s : Handles) (m : MultiSlot) (h : Slot) : Decidable (s.Removable m h) := by
  unfold Handles.Removable
  infer_instance

/-- A transfer is removed while `multi::remove` finds all of it. -/
def removesAll (s : Handles) : Entry → Prop
  | .multiRemoveHandle (some m) (some h) => s.Removable m h
  | _ => True

instance (s : Handles) (i : Entry) : Decidable (removesAll s i) := by
  unfold removesAll
  split <;> infer_instance

theorem Handles.Removable.absent {s s' : Handles} {m : MultiSlot} {h : Slot}
    (all : s.Removable m h) (acc : s.Accounted) (hremove : s.remove m h = (.ok, s')) :
    s'.Absent m h := by
  obtain ⟨hring, hplace⟩ := all
  have hfewer := remove_fewer s m h
  rw [hremove] at hfewer
  have hring' : s'.inRing m h = 0 := Nat.le_zero.mp (hring ▸ hfewer.ring m h)
  cases hhere : (s.transfers h).here with
  | false =>
    rw [if_neg (by simp [hhere])] at hplace
    have hlocals' : s'.inLocals m h = 0 := Nat.le_zero.mp (hplace ▸ hfewer.locals m h)
    have hcurl : s.curlRemove m h = (.ok, s') := by
      rw [← hremove]
      unfold remove
      rw [if_pos hhere]
    have hdetached : ¬ (s.curlRemove m h).2.Attached m h := by
      apply curlRemove_detached
      rw [hcurl]
    have hnothing := (acc.curlRemove m h).nothing hdetached
    rw [hcurl] at hnothing
    obtain ⟨hhand, hlist⟩ := Nat.add_eq_zero_iff.mp hnothing
    exact ⟨hlocals', hring', hhand, hlist⟩
  | true =>
    rw [if_pos hhere] at hplace
    obtain ⟨hhand, hlist⟩ := Nat.add_eq_zero_iff.mp hplace.2
    have hhand' : s'.inHand m h = 0 := Nat.le_zero.mp (hhand ▸ hfewer.hand m h)
    have hlist' : s'.inMsglist m h = 0 := Nat.le_zero.mp (hlist ▸ hfewer.msglist m h)
    refine ⟨?_, hring', hhand', hlist'⟩
    have hone := hplace.1
    unfold remove at hremove
    dsimp only at hremove
    split_ifs at hremove with hnot hfound
    · simp [hhere] at hnot
    · obtain ⟨-, rfl⟩ := Prod.mk.inj hremove
      have hcount := count_swapRemove hfound h
      rw [if_pos rfl] at hcount
      unfold inLocals at hone
      rw [inLocals_setMulti, if_pos rfl]
      dsimp only
      omega
    · obtain ⟨-, rfl⟩ := Prod.mk.inj hremove
      apply List.count_eq_zero.mpr
      rwa [List.idxOf_lt_length_iff] at hfound

/-- What `multi::remove` does not find stays. -/
theorem Handles.present_of_not_removable {s s' : Handles} {m : MultiSlot} {h : Slot}
    (hnot : ¬ s.Removable m h) (hremove : s.remove m h = (.ok, s')) : ¬ s'.Absent m h := by
  intro absent
  apply hnot
  unfold remove at hremove
  dsimp only at hremove
  split_ifs at hremove with hhere hfound
  · -- A network transfer: libcurl leaves the array and the ring alone.
    have hs' : (s.curlRemove m h).2 = s' := by rw [hremove]
    have hsame : s.inLocals m h = s'.inLocals m h ∧ s.inRing m h = s'.inRing m h := by
      rw [← hs']
      rcases curlRemove_cases s m h with ⟨heq, -, -⟩ | ⟨-, msglist, -, heq⟩
      · rw [heq]
        exact ⟨rfl, rfl⟩
      · rw [heq]
        unfold setMsglist
        rw [inLocals_setMulti, inRing_setMulti, if_pos rfl, if_pos rfl]
        exact ⟨rfl, rfl⟩
    refine ⟨hsame.2.trans absent.ring, ?_⟩
    rw [if_neg (by simp [hhere])]
    exact hsame.1.trans absent.locals
  · obtain ⟨-, rfl⟩ := Prod.mk.inj hremove
    have hcount := count_swapRemove hfound h
    have hlocals := absent.locals
    have hring := absent.ring
    have hlist := absent.msglist
    rw [inLocals_setMulti, if_pos rfl] at hlocals
    rw [inRing_setMulti, if_pos rfl] at hring
    rw [inMsglist_setMulti, if_pos rfl] at hlist
    dsimp only at hlocals
    rw [hlocals, if_pos rfl] at hcount
    refine ⟨hring, ?_⟩
    rw [if_pos (by simpa using hhere)]
    refine ⟨?_, Nat.add_eq_zero_iff.mpr ⟨absent.hand, hlist⟩⟩
    unfold inLocals
    omega
  · obtain ⟨-, rfl⟩ := Prod.mk.inj hremove
    refine ⟨absent.ring, ?_⟩
    rw [if_pos (by simpa using hhere)]
    exact ⟨absent.locals.trans_le (Nat.zero_le 1),
      Nat.add_eq_zero_iff.mpr ⟨absent.hand, absent.msglist⟩⟩

/-- Once `multi::remove` has returned, no callback of the transfer is called for the multi handle and
no message of it is read there until it is added again, provided that `multi::remove` found all of
it. What it did not find can be heard of by performing and reading alone. The calls come one after
another: none is made from a callback that `perform` is in. -/
theorem quiet_after_remove (tr : List Event) (s : Handles) :
    (Reaches step removesAll start tr s →
      ∀ a b m h, tr = a ++ .removed m h .ok :: b → (∀ here, .added m h .ok here ∉ b) →
        ∀ e ∈ b, ¬ e.Reports m h) ∧
    (Reaches step always start tr s →
      ∀ m h s', step s (.multiRemoveHandle (some m) (some h)) = some (s', [.removed m h .ok]) →
        ¬ s.Removable m h →
          ∃ s'' tr', Reaches step (listens m) s' tr' s'' ∧ ∃ e ∈ tr', e.Reports m h) := by
  constructor
  · intro hrun a b m h htrace hadded
    obtain ⟨tr₁, s₁, i, ev₁, ev₂, s₂, tr₂, hrun₁, hall, hstep, hrun₂, -, rfl⟩ := hrun.split htrace
    have hacc : s₁.Accounted :=
      hrun₁.state_invariant start_accounted fun _ _ _ _ acc _ hstep => acc.step hstep
    obtain ⟨⟨rfl, -, -, hremove⟩, honly⟩ :=
      step_causes hstep (List.mem_append_right ev₁ List.mem_cons_self)
    obtain ⟨-, hevents⟩ := List.append_eq_singleton_iff.mp (honly rfl) |>.resolve_right (by simp)
    obtain rfl : ev₂ = [] := by simpa using hevents
    have habsent : s₂.Absent m h := hall.absent hacc hremove
    exact (habsent.reaches hrun₂ hadded).2
  · intro hrun m h s' hstep hnot
    have hpooled : s.Pooled :=
      hrun.state_invariant start_pooled fun _ _ _ _ pooled _ hstep => pooled.step hstep
    obtain ⟨⟨-, hours, -, hremove⟩, -⟩ := step_causes hstep (List.mem_singleton_self _)
    have hpooled' : s'.Pooled := hpooled.step hstep
    have hours' : (s'.multis m).ours = true :=
      (ours_step hstep hours).resolve_right (by simp)
    exact heard_of_present hours' (hpooled'.multi m hours').2 (hpooled'.answered m)
      (Handles.present_of_not_removable hnot hremove)

section Run

/-- It is removed before it is performed, and read for afterwards. -/
def removeWaiting : List Entry :=
  addAnswered ++ [.multiRemoveHandle (some 0) (some 0), .multiPerform (some 0) [] 0,
    .multiInfoRead (some 0)]

def performAnswered : List Entry := addAnswered ++ [.multiPerform (some 0) [] 0]

theorem removeWaiting_trace :
    (execute step start removeWaiting).map (fun last => last.2) =
      some ([.opened 0, .added 0 0 .ok true] ++ .removed 0 0 .ok ::
        [.performed 0 0 0, .read 0 none 0]) := by
  decide +kernel

theorem performAnswered_removed :
    (execute step start performAnswered).map (fun last =>
        (decide (last.1.Removable 0 0),
          (step last.1 (.multiRemoveHandle (some 0) (some 0))).map fun next => next.2)) =
      some (false, some [.removed 0 0 .ok]) := by
  decide +kernel

theorem quiet_after_remove_waiting :
    (∃ (s : Handles) (tr b : List Event), Reaches step removesAll start tr s ∧
      tr = [.opened 0, .added 0 0 .ok true] ++ .removed 0 0 .ok :: b ∧
        .performed 0 0 0 ∈ b ∧ ∀ e ∈ b, ¬ e.Reports 0 0) ∧
    ∃ (s s' : Handles), step s (.multiRemoveHandle (some 0) (some 0)) =
        some (s', [.removed 0 0 .ok]) ∧
      ∃ s'' tr', Reaches step (listens 0) s' tr' s'' ∧ ∃ e ∈ tr', e.Reports 0 0 := by
  constructor
  · obtain ⟨⟨s, tr⟩, hrun, rfl⟩ := Option.map_eq_some_iff.mp removeWaiting_trace
    have h : Reaches step removesAll start _ s := reaches_of_execute _ hrun (by decide +kernel)
    exact ⟨s, _, _, h, rfl, by simp, (quiet_after_remove _ s).1 h _ _ 0 0 rfl (by simp)⟩
  · obtain ⟨⟨s, tr⟩, hrun, hlast⟩ := Option.map_eq_some_iff.mp performAnswered_removed
    simp only [Prod.mk.injEq, decide_eq_false_iff_not, Option.map_eq_some_iff, Prod.exists] at hlast
    obtain ⟨hnot, s', ev, hstep, rfl⟩ := hlast
    exact ⟨s, s', hstep, (quiet_after_remove tr s).2 (reaches_of_run hrun) 0 0 s' hstep hnot⟩

theorem removeQueued_trace :
    (execute step start (performAnswered ++
        [.multiRemoveHandle (some 0) (some 0), .multiInfoRead (some 0)])).map (fun last => last.2) =
      some ([.opened 0, .added 0 0 .ok true, .delivered 0 0 [], .queued 0 0, .performed 0 0 0] ++
        .removed 0 0 .ok :: [.read 0 (some ⟨.transfer 0, 0⟩) 0]) := by
  decide +kernel

/-- A transfer that was removed after its completion was queued is named by the next message. -/
theorem removed_transfer_is_read :
    ¬ ∀ (tr : List Event) (s : Handles), Reaches step always start tr s →
      ∀ a b m h, tr = a ++ .removed m h .ok :: b → (∀ here, .added m h .ok here ∉ b) →
        ∀ e ∈ b, ¬ e.Reports m h := by
  intro hclaim
  obtain ⟨⟨s, tr⟩, hrun, rfl⟩ := Option.map_eq_some_iff.mp removeQueued_trace
  have hquiet := hclaim _ s (reaches_of_run hrun) _ _ 0 0 rfl (by simp)
  exact hquiet _ (List.mem_singleton_self _) ⟨rfl, rfl⟩

end Run

end IW4x.XCurl
