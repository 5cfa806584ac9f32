import IW4x.XCurl.Causes

/-!
# A transfer that is nowhere

A call other than adding, performing and reading only takes transfers away, and only from where it
may. A transfer that is in none of the four places comes into one by being added, and nothing is
heard of it before.
-/

namespace IW4x.XCurl

/-! ## Steps that only take away -/

open Handles

/-- What a call other than adding, performing and reading may touch. -/
def touchedBy (s : Handles) : Entry → MultiSlot → Slot → Prop
  | .easyInit _ => fun _ h => s.transferUsed h = false
  | .multiInit _ => fun m _ => s.multiUsed m = false
  | .multiRemoveHandle m h => fun m' h' => m = some m' ∧ h = some h'
  | .multiCleanup m => fun m' _ => m = some m'
  | _ => fun _ _ => False

/-- Neither adding nor performing nor reading. -/
def Entry.plain : Entry → Bool
  | .multiAddHandle .. => false
  | .multiPerform .. => false
  | .multiInfoRead .. => false
  | _ => true

/-- The event names the transfer: a callback of it is called, its answer is delivered, its completion
is queued or a message of it is read. -/
def Event.Reports (m : MultiSlot) (h : Slot) : Event → Prop
  | .calledBack m' h' => m' = m ∧ h' = h
  | .delivered m' h' _ => m' = m ∧ h' = h
  | .queued m' h' => m' = m ∧ h' = h
  | .read m' (some msg) _ => m' = m ∧ msg.easyHandle.slot = h
  | _ => False

instance (m : MultiSlot) (h : Slot) (e : Event) : Decidable (e.Reports m h) := by
  unfold Event.Reports
  split <;> infer_instance

theorem plain_step {s s' : Handles} {i : Entry} {ev : List Event} (hplain : i.plain = true)
    (hstep : step s i = some (s', ev)) :
    Fewer (touchedBy s i) s s' ∧ ∀ e ∈ ev, ∀ m h, ¬ e.Reports m h := by
  cases i with
  | easyInit accepts =>
    have hfewer := openTransfer_fewer s accepts
    simp only [step] at hstep
    generalize s.openTransfer accepts = opened at hstep hfewer
    obtain ⟨_ | h, s₁⟩ := opened <;> obtain ⟨rfl, rfl⟩ := Prod.mk.inj (Option.some.inj hstep)
    · exact ⟨hfewer, by simp⟩
    · exact ⟨hfewer, by simp [Event.Reports]⟩
  | easySetopt h o =>
    simp only [step] at hstep
    split at hstep <;> obtain ⟨rfl, rfl⟩ := Prod.mk.inj (Option.some.inj hstep)
    · exact ⟨Fewer.refl s, by simp⟩
    · exact ⟨setTransfer_fewer s (Transfer.set_same _ o).2.1, by simp⟩
  | easyCleanup h =>
    simp only [step] at hstep
    split at hstep <;> obtain ⟨rfl, rfl⟩ := Prod.mk.inj (Option.some.inj hstep)
    · exact ⟨Fewer.refl s, by simp⟩
    · exact ⟨closeTransfer_fewer s _, by simp [Event.Reports]⟩
  | multiInit accepts =>
    obtain ⟨rfl, rfl⟩ := Prod.mk.inj (Option.some.inj hstep)
    exact ⟨openMultiHandle_fewer s accepts, by simp⟩
  | multiRemoveHandle m h =>
    simp only [step] at hstep
    split at hstep
    · next m' h' hm hh =>
      obtain ⟨rfl, rfl⟩ := Prod.mk.inj (Option.some.inj hstep)
      obtain ⟨rfl, -⟩ := asMulti_some hm
      obtain ⟨rfl, -⟩ := asTransfer_some hh
      refine ⟨(remove_fewer s m' h').mono ?_, by simp [Event.Reports]⟩
      rintro _ _ ⟨rfl, rfl⟩
      exact ⟨rfl, rfl⟩
    · obtain ⟨rfl, rfl⟩ := Prod.mk.inj (Option.some.inj hstep)
      exact ⟨Fewer.refl s, by simp⟩
  | multiCleanup m =>
    simp only [step] at hstep
    split at hstep
    · next m' hm =>
      obtain ⟨rfl, rfl⟩ := Prod.mk.inj (Option.some.inj hstep)
      obtain ⟨rfl, -⟩ := asMulti_some hm
      have hclosed : Fewer (touchedBy s (.multiCleanup (some m'))) s (s.closeMulti m') :=
        (closeMulti_fewer s m').mono fun _ _ htouched => congrArg some htouched.symm
      exact ⟨hclosed.trans (closeMultiHandle_fewer _ m'), by simp⟩
    · obtain ⟨rfl, rfl⟩ := Prod.mk.inj (Option.some.inj hstep)
      exact ⟨Fewer.refl s, by simp⟩
  | servePlatformAt d =>
    obtain ⟨rfl, rfl⟩ := Prod.mk.inj (Option.some.inj hstep)
    exact ⟨fewer_of_same (fun _ => ⟨rfl, rfl, rfl⟩) fun _ => rfl, by simp⟩
  | multiAddHandle m h accepts => cases hplain
  | multiPerform m work alive => cases hplain
  | multiInfoRead m => cases hplain

/-! ## A transfer that is nowhere -/

variable {m : MultiSlot} {h : Slot}

theorem Handles.Absent.of_counts {s s' : Handles} (absent : s.Absent m h)
    (hlocals : s'.inLocals m h = s.inLocals m h) (hring : s'.inRing m h = s.inRing m h)
    (hhand : s'.inHand m h = s.inHand m h) (hlist : s'.inMsglist m h = s.inMsglist m h) :
    s'.Absent m h :=
  ⟨hlocals.trans absent.locals, hring.trans absent.ring, hhand.trans absent.hand,
    hlist.trans absent.msglist⟩

/-- Adding brings in the transfer that it is for, and no other. -/
theorem Handles.Absent.add {s s' : Handles} (absent : s.Absent m h) {m' : MultiSlot} {h' : Slot}
    {accepts : Bool} {code : MultiCode} (hadd : s.add m' h' accepts = (code, s'))
    (hother : code = .ok → ¬ (m' = m ∧ h' = h)) : s'.Absent m h := by
  obtain ⟨t, ht, hcase⟩ := add_cases s m' h' accepts hadd
  have heasy : t.easy = (s.transfers h').easy := ht ▸ (Transfer.begin_same _ _ _).2.1
  rcases hcase with ⟨-, hs'⟩ | ⟨hcode, -, -, -, hs'⟩ |
    ⟨hcode, -, -, n, hs', hlocals, hmessages, hhandle, -, -⟩
  · rw [hs']
    have hfewer : Fewer (fun _ _ => True) s (s.setTransfer h' t) := setTransfer_fewer s heasy
    exact hfewer.absent absent
  · obtain ⟨hl, hr, hh, hm, -⟩ := attach_counts s m' h' t hs' m h
    refine absent.of_counts hl hr ?_ hm
    rw [hh]
    have hne := hother hcode
    split_ifs with heq hm
    · exact absurd ⟨hm.symm, heq.symm⟩ hne
    · exact absent.hand.symm
    · rfl
  · obtain ⟨hl, hr, hh, hm, -⟩ := push_counts s hs' heasy hlocals hmessages hhandle m h
    have hne : ¬ (m = m' ∧ h = h') := fun heq => hother hcode ⟨heq.1.symm, heq.2.symm⟩
    rw [if_neg hne] at hl
    exact absent.of_counts hl hr hh hm

/-- libcurl's work is on transfers that it has in hand. -/
theorem Handles.Absent.curlPerform {s s' : Handles} {m' : MultiSlot} {work : List Work}
    {ev : List Event} (absent : s.Absent m h) (hperform : s.curlPerform m' work = some (s', ev)) :
    s'.Absent m h ∧ ∀ e ∈ ev, ¬ e.Reports m h := by
  have hinduct : s.Absent m h → s'.Absent m h ∧ ∀ e ∈ ev, ¬ e.Reports m h := by
    refine curlPerform_induct (m := m')
      (P := fun s ev s' => s.Absent m h → s'.Absent m h ∧ ∀ e ∈ ev, ¬ e.Reports m h) ?_ ?_ hperform
    · intro s absent
      exact ⟨absent, by simp⟩
    · intro s w s' ev ev' s'' hwork ih absent
      obtain ⟨h', halive, hcase⟩ := curlWork_cases hwork
      have hne : ¬ (m' = m ∧ h' = h) := by
        rintro ⟨rfl, rfl⟩
        have hin := inHand_of_alive halive
        have hout := absent.hand
        omega
      rcases hcase with ⟨rfl, rfl⟩ | ⟨rfl, result, hs'⟩
      · obtain ⟨habsent, hquiet⟩ := ih absent
        refine ⟨habsent, ?_⟩
        rw [List.singleton_append, List.forall_mem_cons]
        exact ⟨hne, hquiet⟩
      · obtain ⟨hl, hr, hh, hm, -⟩ := finish_counts halive result hs' m h
        apply ih
        refine absent.of_counts hl hr ?_ ?_
        · rw [hh, absent.hand]
          split_ifs <;> rfl
        · rw [hm, if_neg fun heq => hne ⟨heq.1.symm, heq.2.symm⟩, Nat.add_zero]
  exact hinduct absent

theorem Handles.Absent.answered {s : Handles} (absent : s.Absent m h) (m' : MultiSlot) :
    (s.answered m').1.Absent m h ∧ ∀ e ∈ (s.answered m').2, ¬ e.Reports m h := by
  obtain ⟨taken, spec⟩ := answered_spec s m'
  obtain ⟨-, -, -, -, hdelivered⟩ := deliverAll_spec m' (s.multis m').locals s
  have hcount : m' = m → h ∉ (s.multis m').locals := by
    rintro rfl
    exact List.count_eq_zero.mp absent.locals
  have htaken : m' = m → h ∉ taken := fun heq hmem =>
    hcount heq (spec.locals.mem_iff.mpr (List.mem_append_right _ hmem))
  have hkept : m' = m → h ∉ ((s.answered m').1.multis m').locals := fun heq hmem =>
    hcount heq (spec.locals.mem_iff.mpr (List.mem_append_left _ hmem))
  constructor
  · have hhand : (s.answered m').1.inHand m h = s.inHand m h := by
      unfold inHand
      rw [spec.transfers]
      split_ifs <;> rfl
    by_cases heq : m' = m
    · subst heq
      refine ⟨List.count_eq_zero.mpr (hkept rfl), ?_, hhand.trans absent.hand, ?_⟩
      · unfold inRing
        rw [spec.ring, List.countP_append, List.countP_map, Nat.add_eq_zero_iff]
        refine ⟨absent.ring, ?_⟩
        rw [List.countP_eq_zero]
        intro h' hmem heq
        exact htaken rfl (of_decide_eq_true heq ▸ hmem)
      · unfold inMsglist
        rw [spec.handle]
        exact absent.msglist
    · have hsame := spec.others m fun hm => heq hm.symm
      apply absent.of_counts _ _ hhand
      · unfold inMsglist
        rw [hsame]
      · unfold inLocals
        rw [hsame]
      · unfold inRing
        rw [hsame]
  · intro e he
    rw [spec.events] at he
    rcases List.mem_append.mp he with he | he
    · obtain ⟨h', hmem, calls, rfl⟩ := hdelivered e he
      rintro ⟨rfl, rfl⟩
      exact hcount rfl hmem
    · obtain ⟨h', hmem, rfl⟩ := List.mem_map.mp he
      rintro ⟨rfl, rfl⟩
      exact htaken rfl hmem

theorem Handles.Absent.perform {s s' : Handles} {m' : MultiSlot} {work : List Work} {alive : ℕ}
    {ev : List Event} (absent : s.Absent m h)
    (hperform : s.perform m' work alive = some (s', ev)) :
    s'.Absent m h ∧ ∀ e ∈ ev, ¬ e.Reports m h := by
  obtain ⟨s₁, ev₁, hcurl, ⟨-, rfl, rfl⟩ | ⟨-, rfl, rfl⟩⟩ := perform_cases hperform
  · obtain ⟨habsent, hquiet⟩ := absent.curlPerform hcurl
    refine ⟨habsent, ?_⟩
    intro e he
    rcases List.mem_append.mp he with he | he
    · exact hquiet e he
    · rw [List.mem_singleton.mp he]
      exact id
  · obtain ⟨habsent, hquiet⟩ := absent.curlPerform hcurl
    obtain ⟨habsent', hquiet'⟩ := habsent.answered m'
    refine ⟨habsent', ?_⟩
    intro e he
    rcases List.mem_append.mp he with he | he
    · rcases List.mem_append.mp he with he | he
      · exact hquiet e he
      · exact hquiet' e he
    · rw [List.mem_singleton.mp he]
      exact id

/-- A message that is read was in the ring, or libcurl had it. -/
theorem Handles.Absent.read {s s' : Handles} {m' : MultiSlot} {msg : Option Message} {left : ℕ}
    (absent : s.Absent m h) (hread : s.read m' = (msg, left, s')) :
    s'.Absent m h ∧ ¬ (Event.read m' msg left).Reports m h := by
  rcases read_cases s m' hread with ⟨head, rest, hring, rfl, n, hs', hlocals, hrest, hhandle, -, -⟩ |
    ⟨-, ⟨h', result, rest, hhandle, hs', rfl⟩ | ⟨-, rfl, rfl⟩⟩
  · have hfewer : Fewer (fun m _ => m = m') s s' := by
      rw [hs']
      apply setMulti_fewer
      · intro h'
        rw [hlocals]
        exact le_rfl
      · intro h'
        unfold inRing
        rw [hring, hrest]
        exact (List.sublist_cons_self head rest).countP_le
      · intro h'
        rw [hhandle]
        exact le_rfl
    refine ⟨hfewer.absent absent, ?_⟩
    rintro ⟨rfl, rfl⟩
    have hnone := absent.ring
    unfold inRing at hnone
    rw [hring, List.countP_cons] at hnone
    simp at hnone
  · have hfewer : Fewer (fun m _ => m = m') s s' := by
      rw [hs']
      apply setMulti_fewer
      · exact fun _ => le_rfl
      · exact fun _ => le_rfl
      · intro h₁
        unfold inMsglist
        rw [hhandle]
        exact (List.sublist_cons_self _ rest).countP_le
    refine ⟨hfewer.absent absent, ?_⟩
    rintro ⟨rfl, hnamed⟩
    have hh : h' = h := by
      dsimp only at hnamed
      split_ifs at hnamed <;> exact hnamed
    have hnone := absent.msglist
    unfold inMsglist at hnone
    rw [hhandle, hh] at hnone
    simp at hnone
  · exact ⟨absent, id⟩

/-- A transfer that is nowhere stays nowhere, and nothing is heard of it, until it is added. -/
theorem Handles.Absent.step {s s' : Handles} {i : Entry} {ev : List Event} (absent : s.Absent m h)
    (hstep : XCurl.step s i = some (s', ev)) (hadded : ∀ here, .added m h .ok here ∉ ev) :
    s'.Absent m h ∧ ∀ e ∈ ev, ¬ e.Reports m h := by
  cases hplain : i.plain with
  | true =>
    obtain ⟨hfewer, hquiet⟩ := plain_step hplain hstep
    exact ⟨hfewer.absent absent, fun e he => hquiet e he m h⟩
  | false =>
    cases i with
    | multiAddHandle m' h' accepts =>
      simp only [XCurl.step] at hstep
      split at hstep
      · next m' h' _ _ =>
        obtain ⟨hs', rfl⟩ := Prod.mk.inj (Option.some.inj hstep)
        refine ⟨absent.add (Prod.ext_iff.mpr ⟨rfl, hs'⟩) ?_, by simp [Event.Reports]⟩
        rintro hcode ⟨rfl, rfl⟩
        apply hadded
        rw [← hcode]
        exact List.mem_singleton_self _
      · obtain ⟨rfl, rfl⟩ := Prod.mk.inj (Option.some.inj hstep)
        exact ⟨absent, by simp⟩
    | multiPerform m' work alive =>
      simp only [XCurl.step] at hstep
      split at hstep
      · exact absent.perform hstep
      · obtain ⟨rfl, rfl⟩ := Prod.mk.inj (Option.some.inj hstep)
        exact ⟨absent, by simp⟩
    | multiInfoRead m' =>
      simp only [XCurl.step] at hstep
      split at hstep
      · next m' _ =>
        generalize hread : s.read m' = result at hstep
        obtain ⟨msg, left, s₁⟩ := result
        obtain ⟨rfl, rfl⟩ := Prod.mk.inj (Option.some.inj hstep)
        obtain ⟨habsent, hquiet⟩ := absent.read hread
        refine ⟨habsent, ?_⟩
        intro e he
        rw [List.mem_singleton.mp he]
        exact hquiet
      · obtain ⟨rfl, rfl⟩ := Prod.mk.inj (Option.some.inj hstep)
        exact ⟨absent, by simp⟩
    | _ => cases hplain

theorem Handles.Absent.reaches {ok : Handles → Entry → Prop} {s s' : Handles} {tr : List Event}
    (absent : s.Absent m h) (hrun : Runs.Reaches XCurl.step ok s tr s')
    (hadded : ∀ here, .added m h .ok here ∉ tr) :
    s'.Absent m h ∧ ∀ e ∈ tr, ¬ e.Reports m h := by
  revert hadded
  refine hrun.invariant (P := fun tr s => (∀ here, Event.added m h .ok here ∉ tr) →
    s.Absent m h ∧ ∀ e ∈ tr, ¬ e.Reports m h) ?_ ?_
  · intro _
    exact ⟨absent, by simp⟩
  · intro tr s i t ev ih _ hstep hadded
    obtain ⟨habsent, hquiet⟩ := ih fun here hmem => hadded here (List.mem_append_left _ hmem)
    obtain ⟨habsent', hquiet'⟩ := habsent.step hstep
      fun here hmem => hadded here (List.mem_append_right _ hmem)
    refine ⟨habsent', ?_⟩
    intro e he
    rcases List.mem_append.mp he with he | he
    · exact hquiet e he
    · exact hquiet' e he

end IW4x.XCurl
