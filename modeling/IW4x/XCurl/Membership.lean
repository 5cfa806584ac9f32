import IW4x.XCurl.Cleanup

/-!
# Which multi handle a transfer was added to

A transfer is added to a multi handle while it is in the array or its easy handle belongs to it. The
flag that `multi::add` and `multi::remove` go by is computed anew at every add, from the method and the
URL of that time, and nothing asks whether the transfer was added before. Where a transfer that was
added is not added in a way that moves it or writes its flags, the flag tells where it is.
-/

namespace IW4x.XCurl

open Runs

namespace Handles

variable {s s' : Handles} {m : MultiSlot} {h : Slot}

/-- In the array of the multi handle, or passed to libcurl for it and not removed. -/
def Added (s : Handles) (m : MultiSlot) (h : Slot) : Prop :=
  h ∈ (s.multis m).locals ∨ s.Attached m h

instance (s : Handles) (m : MultiSlot) (h : Slot) : Decidable (s.Added m h) := by
  unfold Added
  infer_instance

/-- How often the transfer is in the array and the set together. -/
def places (s : Handles) (m : MultiSlot) (h : Slot) : ℕ :=
  s.inLocals m h + if s.Attached m h then 1 else 0

/-- A transfer was added to one multi handle at most, to its array or to libcurl, and the flag says
to which of the two. -/
structure Settled (s : Handles) : Prop where
  once : ∀ m h, s.inLocals m h ≤ 1
  unique : ∀ m m' h, s.Added m h → s.Added m' h → m = m'
  live : ∀ m h, s.Added m h → (s.transfers h).ours = true
  answered : ∀ m h, h ∈ (s.multis m).locals → (s.transfers h).here = true
  network : ∀ m h, s.Attached m h →
    (s.transfers h).here = false ∧ (s.transfers h).delivered = false

theorem Settled.apart (settled : s.Settled) {m' : MultiSlot} (hlocal : h ∈ (s.multis m).locals) :
    ¬ s.Attached m' h := by
  intro hatt
  have hhere := settled.answered m h hlocal
  have hnot := (settled.network m' h hatt).1
  simp [hhere] at hnot

theorem Settled.places_le (settled : s.Settled) (m : MultiSlot) (h : Slot) : s.places m h ≤ 1 := by
  unfold places
  have honce := settled.once m h
  split_ifs with hatt
  · have hnone : s.inLocals m h = 0 := by
      apply List.count_eq_zero.mpr
      exact fun hlocal => settled.apart hlocal hatt
    omega
  · omega

theorem mem_of_inLocals_le (hle : s'.inLocals m h ≤ s.inLocals m h)
    (hmem : h ∈ (s'.multis m).locals) : h ∈ (s.multis m).locals := by
  apply List.count_pos_iff.mp
  exact (List.count_pos_iff.mpr hmem).trans_le hle

/-- Where transfers only leave, those that stay keep their flags. -/
theorem Settled.mono (settled : s.Settled) (hlocals : ∀ m h, s'.inLocals m h ≤ s.inLocals m h)
    (hatt : ∀ m h, s'.Attached m h → s.Attached m h)
    (hflags : ∀ m h, s.Added m h → (s'.transfers h).ours = (s.transfers h).ours ∧
      (s'.transfers h).here = (s.transfers h).here)
    (hdelivered : ∀ m h, s.Attached m h →
      (s'.transfers h).delivered = (s.transfers h).delivered) : s'.Settled := by
  have hadded : ∀ m h, s'.Added m h → s.Added m h := fun m h =>
    Or.imp (mem_of_inLocals_le (hlocals m h)) (hatt m h)
  refine ⟨fun m h => (hlocals m h).trans (settled.once m h), ?_, ?_, ?_, ?_⟩
  · intro m m' h hm hm'
    exact settled.unique m m' h (hadded m h hm) (hadded m' h hm')
  · intro m h hin
    rw [(hflags m h (hadded m h hin)).1]
    exact settled.live m h (hadded m h hin)
  · intro m h hmem
    have hbefore := mem_of_inLocals_le (hlocals m h) hmem
    rw [(hflags m h (.inl hbefore)).2]
    exact settled.answered m h hbefore
  · intro m h hin
    have hbefore := hatt m h hin
    rw [(hflags m h (.inr hbefore)).2, hdelivered m h hbefore]
    exact settled.network m h hbefore

/-- Where one transfer comes to a multi handle, and no other moves. -/
theorem Settled.place (settled : s.Settled)
    (hlocals : ∀ m' h', h' ≠ h → s'.inLocals m' h' = s.inLocals m' h')
    (hatt : ∀ m' h', h' ≠ h → s'.Attached m' h' → s.Attached m' h')
    (hflags : ∀ h', h' ≠ h → (s'.transfers h').ours = (s.transfers h').ours ∧
      (s'.transfers h').here = (s.transfers h').here ∧
      (s'.transfers h').delivered = (s.transfers h').delivered)
    (honce : ∀ m', s'.inLocals m' h ≤ 1) (hthere : ∀ m', s'.Added m' h → m' = m)
    (hours : (s'.transfers h).ours = true)
    (hanswered : ∀ m', h ∈ (s'.multis m').locals → (s'.transfers h).here = true)
    (hnetwork : ∀ m', s'.Attached m' h →
      (s'.transfers h).here = false ∧ (s'.transfers h).delivered = false) : s'.Settled := by
  have hmem : ∀ m' h', h' ≠ h → h' ∈ (s'.multis m').locals → h' ∈ (s.multis m').locals :=
    fun m' h' hne => mem_of_inLocals_le (hlocals m' h' hne).le
  have hadded : ∀ m' h', h' ≠ h → s'.Added m' h' → s.Added m' h' := fun m' h' hne =>
    Or.imp (hmem m' h' hne) (hatt m' h' hne)
  refine ⟨?_, ?_, ?_, ?_, ?_⟩
  · intro m' h'
    by_cases hh : h' = h
    · rw [hh]
      exact honce m'
    · rw [hlocals m' h' hh]
      exact settled.once m' h'
  · intro m₁ m₂ h' hm₁ hm₂
    by_cases hh : h' = h
    · subst hh
      rw [hthere m₁ hm₁, hthere m₂ hm₂]
    · exact settled.unique m₁ m₂ h' (hadded m₁ h' hh hm₁) (hadded m₂ h' hh hm₂)
  · intro m' h' hin
    by_cases hh : h' = h
    · rw [hh]
      exact hours
    · rw [(hflags h' hh).1]
      exact settled.live m' h' (hadded m' h' hh hin)
  · intro m' h' hin
    by_cases hh : h' = h
    · subst hh
      exact hanswered m' hin
    · rw [(hflags h' hh).2.1]
      exact settled.answered m' h' (hmem m' h' hh hin)
  · intro m' h' hin
    by_cases hh : h' = h
    · subst hh
      exact hnetwork m' hin
    · rw [(hflags h' hh).2.1, (hflags h' hh).2.2]
      exact settled.network m' h' (hatt m' h' hh hin)

/-! ## Adding -/

/-- The transfer was not added to any multi handle; or libcurl has it and its method and URL are still
not answered by the client; or it is in an array, undelivered, its method and URL are still answered by
the client, and the array it is to be added to is full. -/
def Addable (s : Handles) (m : MultiSlot) (h : Slot) : Prop :=
  (∀ m', ¬ s.Added m' h) ∨
    (∃ m', s.Attached m' h) ∧
      XCurl.answer (s.transfers h).method (s.transfers h).url = none ∨
    (∃ m', h ∈ (s.multis m').locals) ∧ (s.transfers h).delivered = false ∧
      (XCurl.answer (s.transfers h).method (s.transfers h).url).isSome = true ∧
      (s.multis m).locals.length = capacity

instance (s : Handles) (m : MultiSlot) (h : Slot) : Decidable (s.Addable m h) := by
  unfold Addable
  infer_instance

/-- The array, libcurl's set and the flags of the transfer are as they were. -/
structure Unmoved (s s' : Handles) (h : Slot) : Prop where
  locals : ∀ m, (s'.multis m).locals = (s.multis m).locals
  handle : ∀ m, (s'.multis m).handle = (s.multis m).handle
  easy : ∀ h', (s'.transfers h').easy = (s.transfers h').easy
  here : (s'.transfers h).here = (s.transfers h).here
  delivered : (s'.transfers h).delivered = (s.transfers h).delivered

/-- What adding a transfer does where it may be added: it refuses, and leaves the flags of a transfer
that was added before; or the transfer was not added before. -/
theorem addable_add {accepts : Bool} {code : MultiCode} (settled : s.Settled)
    (addable : s.Addable m h) (hadd : s.add m h accepts = (code, s')) :
    code ≠ .ok ∧ ((∀ m', ¬ s.Added m' h) ∨ s.Unmoved s' h) ∨
      code = .ok ∧ ∀ m', ¬ s.Added m' h := by
  obtain ⟨t, ht, hcase⟩ := add_cases s m h accepts hadd
  obtain ⟨-, heasy, hdelivered, hhere⟩ :=
    Transfer.begin_same s.installed accepts (s.transfers h)
  rw [← ht] at heasy hdelivered hhere
  have hsame : ∀ h', ((s.setTransfer h t).transfers h').easy = (s.transfers h').easy := by
    intro h'
    rw [transfers_setTransfer]
    split_ifs with hh
    · rw [heasy, hh]
    · rfl
  have hself : (s.setTransfer h t).transfers h = t := by
    rw [transfers_setTransfer, if_pos rfl]
  rcases addable with hnew | ⟨⟨m', hatt⟩, hnone⟩ | ⟨⟨m', hlocal⟩, hundelivered, hsome, hfull⟩
  · rcases hcase with ⟨hcode, -⟩ | ⟨hcode, -⟩ | ⟨hcode, -⟩
    · exact .inl ⟨hcode, .inl hnew⟩
    · exact .inr ⟨hcode, hnew⟩
    · exact .inr ⟨hcode, hnew⟩
  · -- libcurl has it and is asked for it again.
    rw [hnone] at hhere
    obtain ⟨hnot, hwaiting⟩ := settled.network m' h hatt
    rcases hcase with ⟨hcode, rfl⟩ | ⟨-, -, -, ⟨e, he, hmulti⟩, -⟩ | ⟨-, hhere', -⟩
    · refine .inl ⟨hcode, .inr ⟨fun _ => rfl, fun _ => rfl, hsame, ?_, ?_⟩⟩
      · rw [hself, hhere, hnot]
        rfl
      · rw [hself, hdelivered, hwaiting]
    · unfold Attached at hatt
      simp [he, hmulti] at hatt
    · simp [hhere] at hhere'
  · -- It is in an array, and the array it is to be added to has no room.
    rw [hsome] at hhere
    rcases hcase with ⟨hcode, rfl⟩ | ⟨-, hhere', -⟩ | ⟨-, -, hroom, -⟩
    · refine .inl ⟨hcode, .inr ⟨fun _ => rfl, fun _ => rfl, hsame, ?_, ?_⟩⟩
      · rw [hself, hhere, settled.answered m' h hlocal]
      · rw [hself, hdelivered, hundelivered]
    · simp [hhere] at hhere'
    · omega

/-- Adding a transfer again is refused and changes nothing exactly where it may be added. -/
theorem addable_iff {accepts : Bool} {code : MultiCode} (settled : s.Settled)
    (hadd : s.add m h accepts = (code, s')) :
    s.Addable m h ↔ ((∃ m', s.Added m' h) → code ≠ .ok ∧ s.Unmoved s' h) := by
  constructor
  · rintro addable ⟨m', hadded⟩
    rcases addable_add settled addable hadd with ⟨hcode, hnew | hunmoved⟩ | ⟨-, hnew⟩
    · exact absurd hadded (hnew m')
    · exact ⟨hcode, hunmoved⟩
    · exact absurd hadded (hnew m')
  · intro hrefused
    by_cases hnew : ∀ m', ¬ s.Added m' h
    · exact .inl hnew
    right
    obtain ⟨m', hadded⟩ : ∃ m', s.Added m' h := by simpa using hnew
    obtain ⟨hcode, hunmoved⟩ := hrefused ⟨m', hadded⟩
    obtain ⟨t, ht, hcase⟩ := add_cases s m h accepts hadd
    obtain ⟨-, -, hdelivered, hhere⟩ :=
      Transfer.begin_same s.installed accepts (s.transfers h)
    rw [← ht] at hdelivered hhere
    rcases hcase with ⟨-, rfl⟩ | ⟨hok, -⟩ | ⟨hok, -⟩
    · have hself : (s.setTransfer h t).transfers h = t := by
        rw [transfers_setTransfer, if_pos rfl]
      have hsamehere := hunmoved.here
      have hsamedelivered := hunmoved.delivered
      rw [hself] at hsamehere hsamedelivered
      rcases hadded with hlocal | hatt
      · right
        have hsome : (XCurl.answer (s.transfers h).method (s.transfers h).url).isSome = true := by
          rw [← hhere, hsamehere]
          exact settled.answered m' h hlocal
        refine ⟨⟨m', hlocal⟩, hsamedelivered.symm.trans hdelivered, hsome, ?_⟩
        by_contra hroom
        have htaken := add_answered s m h accepts hsome
        rw [hadd, if_neg hroom] at htaken
        exact hcode htaken
      · left
        refine ⟨⟨m', hatt⟩, ?_⟩
        rw [hsamehere, (settled.network m' h hatt).1] at hhere
        exact Option.isNone_iff_eq_none.mp (Option.isSome_eq_false_iff.mp hhere.symm)
    · exact absurd hok hcode
    · exact absurd hok hcode

/-- Adding keeps it known where each transfer is. -/
theorem Settled.add {accepts : Bool} {code : MultiCode} (settled : s.Settled)
    (hours : (s.transfers h).ours = true) (addable : s.Addable m h)
    (hadd : s.add m h accepts = (code, s')) : s'.Settled := by
  have hwhere := addable_add settled addable hadd
  obtain ⟨t, ht, hcase⟩ := add_cases s m h accepts hadd
  obtain ⟨hmine, heasy, hdelivered, -⟩ :=
    Transfer.begin_same s.installed accepts (s.transfers h)
  rw [← ht] at hmine heasy hdelivered
  have hbegun : (∀ m', ¬ s.Added m' h) → (s.setTransfer h t).Settled := by
    intro hnew
    have hfewer : Fewer (fun _ _ => True) s (s.setTransfer h t) := setTransfer_fewer s heasy
    have hother : ∀ m' h', s.Added m' h' → (s.setTransfer h t).transfers h' = s.transfers h' := by
      intro m' h' hadded
      rw [transfers_setTransfer, if_neg]
      rintro rfl
      exact hnew m' hadded
    apply settled.mono hfewer.locals hfewer.attached
    · intro m' h' hadded
      rw [hother m' h' hadded]
      exact ⟨rfl, rfl⟩
    · intro m' h' hatt
      rw [hother m' h' (.inr hatt)]
  rcases hcase with ⟨hcode, rfl⟩ | ⟨rfl, hhere, -, -, rfl⟩ |
    ⟨rfl, hhere, -, n, rfl, hlocals, hmessages, hhandle, -, -⟩
  · rcases hwhere with ⟨-, hnew | hunmoved⟩ | ⟨hok, -⟩
    · exact hbegun hnew
    · have hfewer : Fewer (fun _ _ => True) s (s.setTransfer h t) := setTransfer_fewer s heasy
      have hself : (s.setTransfer h t).transfers h = t := by
        rw [transfers_setTransfer, if_pos rfl]
      apply settled.mono hfewer.locals hfewer.attached
      · intro m' h' _
        by_cases hh : h' = h
        · subst hh
          exact ⟨by rw [hself, hmine], hunmoved.here⟩
        · rw [transfers_setTransfer, if_neg hh]
          exact ⟨rfl, rfl⟩
      · intro m' h' _
        by_cases hh : h' = h
        · subst hh
          exact hunmoved.delivered
        · rw [transfers_setTransfer, if_neg hh]
    · exact absurd hok hcode
  · -- The easy handle is with libcurl now, and nowhere else.
    obtain ⟨-, hnew⟩ := hwhere.resolve_left fun hrefused => hrefused.1 rfl
    have hcounts := attach_counts s m h t rfl
    have hself : ((s.setTransfer h t).setEasy h
        (some { multi := some m, alive := true })).transfers h =
          { t with easy := some { multi := some m, alive := true } } := by
      rw [transfers_setEasy, if_pos rfl, transfers_setTransfer, if_pos rfl]
    have hnowhere : ∀ m', h ∉ (s.multis m').locals := fun m' hlocal => hnew m' (.inl hlocal)
    apply settled.place (m := m) (h := h)
    · exact fun _ _ _ => rfl
    · intro m' h' hne hatt
      have hbefore := (hcounts m' h').2.2.2.2.mp hatt
      rwa [if_neg hne] at hbefore
    · intro h' hne
      rw [transfers_setEasy, if_neg hne, transfers_setTransfer, if_neg hne]
      exact ⟨rfl, rfl, rfl⟩
    · exact fun m' => settled.once m' h
    · rintro m' (hlocal | hatt)
      · exact absurd hlocal (hnowhere m')
      · have hm := (hcounts m' h).2.2.2.2.mp hatt
        rwa [if_pos rfl] at hm
    · rw [hself]
      exact hmine.trans hours
    · exact fun m' hlocal => absurd hlocal (hnowhere m')
    · intro m' _
      rw [hself]
      exact ⟨hhere, hdelivered⟩
  · -- The transfer is in the array now, and nowhere else.
    obtain ⟨-, hnew⟩ := hwhere.resolve_left fun hrefused => hrefused.1 rfl
    have hcounts := push_counts s rfl heasy hlocals hmessages hhandle
    have hself : ((s.setTransfer h t).setMulti m n).transfers h = t := by
      rw [transfers_setMulti, transfers_setTransfer, if_pos rfl]
    have hnone : ∀ m', s.inLocals m' h = 0 := fun m' =>
      List.count_eq_zero.mpr fun hlocal => hnew m' (.inl hlocal)
    have hfree : ∀ m', ¬ ((s.setTransfer h t).setMulti m n).Attached m' h := fun m' hatt =>
      hnew m' (.inr ((hcounts m' h).2.2.2.2.mp hatt))
    apply settled.place (m := m) (h := h)
    · intro m' h' hne
      rw [(hcounts m' h').1, if_neg fun heq => hne heq.2, Nat.add_zero]
    · exact fun m' h' _ hatt => (hcounts m' h').2.2.2.2.mp hatt
    · intro h' hne
      rw [transfers_setMulti, transfers_setTransfer, if_neg hne]
      exact ⟨rfl, rfl, rfl⟩
    · intro m'
      rw [(hcounts m' h).1, hnone m']
      split_ifs <;> omega
    · rintro m' (hlocal | hatt)
      · by_contra hne
        have hcount := (hcounts m' h).1
        rw [hnone m', if_neg fun heq => hne heq.1] at hcount
        exact List.count_eq_zero.mp hcount hlocal
      · exact absurd hatt (hfree m')
    · rw [hself]
      exact hmine.trans hours
    · intro m' _
      rw [hself]
      exact hhere
    · exact fun m' hatt => absurd hatt (hfree m')

/-! ## Performing and reading -/

theorem Settled.curlPerform (settled : s.Settled) {work : List Work} {ev : List Event}
    (hperform : s.curlPerform m work = some (s', ev)) : s'.Settled := by
  revert settled
  refine curlPerform_induct (m := m) (P := fun s _ s' => s.Settled → s'.Settled) ?_ ?_ hperform
  · exact fun _ => id
  · intro s w s₁ ev ev' s' hwork ih settled
    apply ih
    obtain ⟨h, halive, ⟨rfl, -⟩ | ⟨-, result, hs₁⟩⟩ := curlWork_cases hwork
    · exact settled
    · have hcounts := finish_counts halive result hs₁
      have hflags : ∀ h', (s₁.transfers h').ours = (s.transfers h').ours ∧
          (s₁.transfers h').here = (s.transfers h').here ∧
          (s₁.transfers h').delivered = (s.transfers h').delivered := by
        intro h'
        rw [hs₁, transfers_setMsglist, transfers_setEasy]
        split_ifs with hh
        · rw [hh]
          exact ⟨rfl, rfl, rfl⟩
        · exact ⟨rfl, rfl, rfl⟩
      apply settled.mono
      · exact fun m' h' => (hcounts m' h').1.le
      · exact fun m' h' => (hcounts m' h').2.2.2.2.mp
      · exact fun _ h' _ => ⟨(hflags h').1, (hflags h').2.1⟩
      · exact fun _ h' _ => (hflags h').2.2

theorem Settled.answered_ (settled : s.Settled) (m : MultiSlot) : (s.answered m).1.Settled := by
  obtain ⟨taken, spec⟩ := answered_spec s m
  apply settled.mono
  · intro m' h
    unfold inLocals
    by_cases heq : m' = m
    · subst heq
      rw [spec.locals.count_eq h, List.count_append]
      exact Nat.le_add_right _ _
    · rw [spec.others m' heq]
  · intro m' h hatt
    unfold Attached at hatt ⊢
    rw [spec.transfers] at hatt
    split_ifs at hatt <;> exact hatt
  · intro _ h _
    rw [spec.transfers]
    split_ifs <;> exact ⟨rfl, rfl⟩
  · intro m' h hatt
    rw [spec.transfers, if_neg]
    exact fun hlocal => settled.apart hlocal hatt

theorem Settled.perform (settled : s.Settled) {work : List Work} {alive : ℕ} {ev : List Event}
    (hperform : s.perform m work alive = some (s', ev)) : s'.Settled := by
  obtain ⟨s₁, ev₁, hcurl, ⟨-, rfl, -⟩ | ⟨-, rfl, -⟩⟩ := perform_cases hperform
  · exact settled.curlPerform hcurl
  · exact (settled.curlPerform hcurl).answered_ m

theorem Settled.read (settled : s.Settled) {msg : Option Message} {left : ℕ}
    (hread : s.read m = (msg, left, s')) : s'.Settled := by
  have hsame : s'.transfers = s.transfers ∧
      ∀ m' h, s'.inLocals m' h = s.inLocals m' h := by
    rcases read_cases s m hread with ⟨-, -, -, -, n, rfl, hlocals, -⟩ |
      ⟨-, ⟨-, -, rest, -, rfl, -⟩ | ⟨-, -, rfl⟩⟩
    · refine ⟨rfl, ?_⟩
      intro m' h
      rw [inLocals_setMulti, hlocals]
      split_ifs with heq
      · rw [heq]
        rfl
      · rfl
    · refine ⟨rfl, ?_⟩
      intro m' h
      unfold setMsglist
      rw [inLocals_setMulti]
      split_ifs with heq
      · rw [heq]
        rfl
      · rfl
    · exact ⟨rfl, fun _ _ => rfl⟩
  apply settled.mono
  · exact fun m' h => (hsame.2 m' h).le
  · intro m' h hatt
    unfold Attached at hatt ⊢
    rwa [hsame.1] at hatt
  · intro _ h _
    rw [hsame.1]
    exact ⟨rfl, rfl⟩
  · intro _ h _
    rw [hsame.1]

end Handles

/-! ## Runs -/

def addsOnce (s : Handles) : Entry → Prop
  | .easyCleanup (some h) => ∀ m, ¬ s.Added m h
  | .multiAddHandle (some m) (some h) _ => s.Addable m h
  | _ => True

instance (s : Handles) : ∀ i : Entry, Decidable (addsOnce s i)
  | .easyCleanup (some h) => inferInstanceAs (Decidable (∀ m, ¬ s.Added m h))
  | .multiAddHandle (some m) (some h) _ => inferInstanceAs (Decidable (s.Addable m h))
  | .easyInit _ | .easySetopt _ _ | .easyCleanup none | .multiInit _ | .multiAddHandle none _ _
  | .multiAddHandle (some _) none _ | .multiRemoveHandle _ _ | .multiPerform _ _ _
  | .multiInfoRead _ | .multiCleanup _ | .servePlatformAt _ => isTrue trivial

theorem Handles.Settled.step {s s' : Handles} {i : Entry} {ev : List Event} (settled : s.Settled)
    (pooled : s.Pooled) (hadds : addsOnce s i) (hstep : XCurl.step s i = some (s', ev)) :
    s'.Settled := by
  cases hplain : i.plain with
  | true =>
    obtain ⟨hfewer, -⟩ := plain_step hplain hstep
    have hflags : ∀ m h, s.Added m h → (s'.transfers h).ours = (s.transfers h).ours ∧
        (s'.transfers h).here = (s.transfers h).here ∧
        (s'.transfers h).delivered = (s.transfers h).delivered := by
      intro m h hadded
      rcases plain_flags hplain hstep h with (hunused | rfl) | hsame
      · have hours := settled.live m h hadded
        simp [pooled.unused_transfer hunused] at hours
      · exact absurd hadded (hadds m)
      · exact hsame
    apply settled.mono hfewer.locals hfewer.attached
    · exact fun m h hadded => ⟨(hflags m h hadded).1, (hflags m h hadded).2.1⟩
    · exact fun m h hatt => (hflags m h (.inr hatt)).2.2
  | false =>
    cases i with
    | multiAddHandle m h accepts =>
      simp only [XCurl.step] at hstep
      split at hstep
      · next m h hm hh =>
        generalize hadd : s.add m h accepts = result at hstep
        obtain ⟨code, s₁⟩ := result
        obtain ⟨rfl, -⟩ := Prod.mk.inj (Option.some.inj hstep)
        obtain ⟨rfl, -⟩ := asMulti_some hm
        obtain ⟨rfl, hours⟩ := asTransfer_some hh
        exact settled.add hours hadds hadd
      · obtain ⟨rfl, -⟩ := Prod.mk.inj (Option.some.inj hstep)
        exact settled
    | multiPerform m work alive =>
      simp only [XCurl.step] at hstep
      split at hstep
      · exact settled.perform hstep
      · obtain ⟨rfl, -⟩ := Prod.mk.inj (Option.some.inj hstep)
        exact settled
    | multiInfoRead m =>
      simp only [XCurl.step] at hstep
      split at hstep
      · next m _ =>
        generalize hread : s.read m = result at hstep
        obtain ⟨msg, left, s₁⟩ := result
        obtain ⟨rfl, -⟩ := Prod.mk.inj (Option.some.inj hstep)
        exact settled.read hread
      · obtain ⟨rfl, -⟩ := Prod.mk.inj (Option.some.inj hstep)
        exact settled
    | _ => cases hplain

theorem start_settled : start.Settled := by
  have hnone : ∀ m h, ¬ start.Added m h := by
    rintro m h (hlocal | hatt)
    · cases hlocal
    · cases hatt
  refine ⟨fun _ _ => Nat.zero_le 1, ?_, ?_, ?_, ?_⟩
  · exact fun m _ h hadded => absurd hadded (hnone m h)
  · exact fun m h hadded => absurd hadded (hnone m h)
  · exact fun m h hlocal => absurd (.inl hlocal) (hnone m h)
  · exact fun m h hatt => absurd (.inr hatt) (hnone m h)

/-- A transfer is in one place of one multi handle at most. Adding a transfer that was added before is
refused and changes nothing exactly where it may be added. -/
theorem added_once (tr : List Event) (s : Handles) (hrun : Reaches step addsOnce start tr s) :
    (∀ m h, s.places m h ≤ 1) ∧ (∀ m m' h, s.Added m h → s.Added m' h → m = m') ∧
      ∀ m h accepts code here s', step s (.multiAddHandle (some m) (some h) accepts) =
          some (s', [.added m h code here]) →
        (s.Addable m h ↔ ((∃ m', s.Added m' h) → code ≠ .ok ∧ s.Unmoved s' h)) := by
  obtain ⟨hpooled, hsettled⟩ : s.Pooled ∧ s.Settled := by
    refine hrun.state_invariant (P := fun s => s.Pooled ∧ s.Settled)
      ⟨start_pooled, start_settled⟩ ?_
    rintro s i t ev ⟨pooled, settled⟩ hadds hstep
    exact ⟨pooled.step hstep, settled.step pooled hadds hstep⟩
  refine ⟨hsettled.places_le, hsettled.unique, ?_⟩
  intro m h accepts code here s' hstep
  obtain ⟨⟨accepts', hi, -, -, hadd, -⟩, -⟩ := step_causes hstep (List.mem_singleton_self _)
  obtain rfl : accepts = accepts' := by simpa using hi
  exact Handles.addable_iff hsettled hadd

section Run

def staysLive (s : Handles) : Entry → Prop
  | .easyCleanup (some h) => ∀ m, ¬ s.Added m h
  | _ => True

instance (s : Handles) : ∀ i : Entry, Decidable (staysLive s i)
  | .easyCleanup (some h) => inferInstanceAs (Decidable (∀ m, ¬ s.Added m h))
  | .easyInit _ | .easySetopt _ _ | .easyCleanup none | .multiInit _ | .multiAddHandle _ _ _
  | .multiRemoveHandle _ _ | .multiPerform _ _ _ | .multiInfoRead _ | .multiCleanup _
  | .servePlatformAt _ => isTrue trivial

theorem addNetwork_again :
    (execute step start (addWith "https://example.com/")).map (fun last =>
        (last.2, decide (last.1.Addable 0 0), decide (last.1.Added 0 0),
          (step last.1 (.multiAddHandle (some 0) (some 0) true)).map fun next => next.2)) =
      some ([.opened 0, .added 0 0 .ok false], true, true,
        some [.added 0 0 .addedAlready false]) := by
  decide +kernel

theorem added_once_network :
    ∃ (s s' : Handles), Reaches step addsOnce start [.opened 0, .added 0 0 .ok false] s ∧
      s.Added 0 0 ∧ s.places 0 0 ≤ 1 ∧
      step s (.multiAddHandle (some 0) (some 0) true) =
        some (s', [.added 0 0 .addedAlready false]) ∧ s.Unmoved s' 0 := by
  obtain ⟨⟨s, tr⟩, hrun, hlast⟩ := Option.map_eq_some_iff.mp addNetwork_again
  simp only [Prod.mk.injEq, decide_eq_true_eq, Option.map_eq_some_iff, Prod.exists] at hlast
  obtain ⟨rfl, haddable, hadded, s', ev, hstep, rfl⟩ := hlast
  have h : Reaches step addsOnce start _ s := reaches_of_execute _ hrun (by decide +kernel)
  obtain ⟨honce, -, hagain⟩ := added_once _ s h
  obtain ⟨-, hunmoved⟩ := (hagain 0 0 true _ _ s' hstep).mp haddable ⟨0, hadded⟩
  exact ⟨s, s', h, hadded, honce 0 0, hstep, hunmoved⟩

/-- A transfer that the client answers itself is added twice. -/
def addTwice : List Entry := addAnswered ++ [.multiAddHandle (some 0) (some 0) true]

theorem addTwice_trace :
    (execute step start addTwice).map (fun last => (last.2, last.1.places 0 0)) =
      some ([.opened 0, .added 0 0 .ok true, .added 0 0 .ok true], 2) := by
  decide +kernel

/-- A transfer that the client answers itself is taken into the array as often as it is added. -/
theorem answered_transfer_added_twice :
    ¬ ∀ (tr : List Event) (s : Handles), Reaches step staysLive start tr s →
      (∀ m h, s.places m h ≤ 1) ∧ (∀ m m' h, s.Added m h → s.Added m' h → m = m') ∧
        ∀ m h accepts code here s', step s (.multiAddHandle (some m) (some h) accepts) =
            some (s', [.added m h code here]) →
          (∃ m', s.Added m' h) → code ≠ .ok ∧ s.Unmoved s' h := by
  intro hclaim
  obtain ⟨⟨s, tr⟩, hrun, hlast⟩ := Option.map_eq_some_iff.mp addTwice_trace
  have hplaces : s.places 0 0 = 2 := (Prod.mk.inj hlast).2
  have h : Reaches step staysLive start tr s := reaches_of_execute _ hrun (by decide +kernel)
  have hle := (hclaim tr s h).1 0 0
  omega

end Run

end IW4x.XCurl
