import IW4x.XCurl.Callbacks
import IW4x.XCurl.Removal
import IW4x.XCurl.Watch

/-!
# Transfers that callbacks change

Whatever the callbacks call, an answer is delivered once for each time the transfer is added, and its
completion is not queued before. Each call of `multi::perform` delivers what its copy holds and, while
there is room for completions, leaves in the array only what its callbacks added.
-/

namespace IW4x.XCurl

open Runs Handles

/-- The transfer begins anew: its slot is opened, or it is added. -/
def Sound.Renews (h : Slot) : Sound → Prop
  | .of (.opened h') => h' = h
  | .of (.added _ h' _ _) => h' = h
  | _ => False

instance (h : Slot) (e : Sound) : Decidable (e.Renews h) := by
  unfold Sound.Renews
  split <;> infer_instance

/-- Some event begins the transfer anew. -/
def Renewed (h : Slot) (tr : List Sound) : Prop := ∃ e ∈ tr, e.Renews h

theorem renewed_append {h : Slot} {tr ev : List Sound} :
    Renewed h (tr ++ ev) ↔ Renewed h tr ∨ Renewed h ev := by
  simp only [Renewed, List.mem_append, or_and_right, exists_or]

theorem renewed_of {h : Slot} {ev : List Event} :
    Renewed h (ev.map .of) ↔ ∃ e ∈ ev, (Sound.of e).Renews h := by
  simp [Renewed]

theorem of_mem {e : Event} {ev : List Event} : Sound.of e ∈ ev.map .of ↔ e ∈ ev :=
  List.mem_map_of_injective fun _ _ => Sound.of.inj

/-- The answer was delivered since the transfer last began. -/
def Told (h : Slot) (tr : List Sound) : Prop :=
  ∃ m, Since (.delivering m h) (Sound.Renews h) tr

/-- A completion was queued since the transfer last began. -/
def Finished (h : Slot) (tr : List Sound) : Prop :=
  ∃ m, Since (.of (.queued m h)) (Sound.Renews h) tr

theorem told_append {h : Slot} {tr ev : List Sound} :
    Told h (tr ++ ev) ↔ Told h ev ∨ Told h tr ∧ ¬ Renewed h ev := by
  simp only [Told, since_append, exists_or, exists_and_right, Renewed, not_exists, not_and]

theorem finished_append {h : Slot} {tr ev : List Sound} :
    Finished h (tr ++ ev) ↔ Finished h ev ∨ Finished h tr ∧ ¬ Renewed h ev := by
  simp only [Finished, since_append, exists_or, exists_and_right, Renewed, not_exists, not_and]

theorem Told.mem {h : Slot} {tr : List Sound} (told : Told h tr) : ∃ m, .delivering m h ∈ tr := by
  obtain ⟨m, hsince⟩ := told
  exact ⟨m, hsince.mem⟩

theorem Finished.mem {h : Slot} {tr : List Sound} (finished : Finished h tr) :
    ∃ m, .of (.queued m h) ∈ tr := by
  obtain ⟨m, hsince⟩ := finished
  exact ⟨m, hsince.mem⟩

/-! ## What a call does to the flags and the arrays -/

/-- A call, as far as it may begin transfers anew. -/
structure Handles.Renewing (s s' : Handles) (ev : List Event) : Prop where
  renewed : ∀ h, (∃ e ∈ ev, (Sound.of e).Renews h) → (s'.transfers h).delivered = false
  kept : ∀ h, (¬ ∃ e ∈ ev, (Sound.of e).Renews h) →
    (s'.transfers h).delivered = (s.transfers h).delivered
  locals : ∀ m h, h ∈ (s'.multis m).locals →
    h ∈ (s.multis m).locals ∨ ∃ e ∈ ev, (Sound.of e).Renews h

namespace Handles

variable {s s' : Handles} {ev : List Event}

theorem Renewing.of_kept {touched : MultiSlot → Slot → Prop} (hfewer : Fewer touched s s')
    (hflags : ∀ h, (s'.transfers h).delivered = (s.transfers h).delivered)
    (hnone : ∀ h, ∀ e ∈ ev, ¬ (Sound.of e).Renews h) : Renewing s s' ev where
  renewed h := by
    rintro ⟨e, he, hrenews⟩
    exact absurd hrenews (hnone h e he)
  kept h _ := hflags h
  locals m h hmem := by
    have hcount : 0 < s'.inLocals m h := List.count_pos_iff.mpr hmem
    exact .inl (List.count_pos_iff.mp (hcount.trans_le (hfewer.locals m h)))

theorem openTransfer_renewing (s : Handles) (accepts : Bool) {h : Option Slot}
    (hopen : s.openTransfer accepts = (h, s')) : Renewing s s' (h.toList.map .opened) := by
  have hfewer := openTransfer_fewer s accepts
  rw [hopen] at hfewer
  rcases openTransfer_cases s accepts with heq | ⟨h', -, heq | heq⟩
  · obtain ⟨rfl, rfl⟩ := Prod.mk.inj (hopen.symm.trans heq)
    exact .of_kept hfewer (fun _ => rfl) (by simp)
  · obtain ⟨rfl, rfl⟩ := Prod.mk.inj (hopen.symm.trans heq)
    refine .of_kept hfewer (fun h => ?_) (by simp)
    exact ((curlEasyCleanup_keeps (M := fun _ => False) s h').flags h).2.2
  · obtain ⟨rfl, rfl⟩ := Prod.mk.inj (hopen.symm.trans heq)
    refine ⟨?_, ?_, ?_⟩
    · rintro h ⟨e, he, hrenews⟩
      obtain rfl : e = .opened h' := by simpa using he
      obtain rfl : h' = h := hrenews
      simp [Transfer.opened]
    · intro h hnot
      have hne : h ≠ h' := by
        rintro rfl
        exact hnot ⟨.opened h, by simp, rfl⟩
      simp only [transfers_setTransfer, if_neg hne]
      exact ((curlEasyCleanup_keeps (M := fun _ => False) s h').flags h).2.2
    · intro m h hmem
      have hcount : 0 < Handles.inLocals _ m h := List.count_pos_iff.mpr hmem
      exact .inl (List.count_pos_iff.mp (hcount.trans_le (hfewer.locals m h)))

theorem add_renewing {m : MultiSlot} {h : Slot} {accepts : Bool} {code : MultiCode}
    (hadd : s.add m h accepts = (code, s')) (here : Bool) :
    Renewing s s' [.added m h code here] := by
  obtain ⟨t, ht, hcase⟩ := add_cases s m h accepts hadd
  obtain ⟨-, -, hdelivered, -⟩ := Transfer.begin_same s.installed accepts (s.transfers h)
  rw [← ht] at hdelivered
  have hflags : ∀ h', (s'.transfers h').delivered =
      if h' = h then false else (s.transfers h').delivered := by
    intro h'
    rcases hcase with ⟨-, rfl⟩ | ⟨-, -, -, -, rfl⟩ | ⟨-, -, -, n, rfl, -⟩
    · rw [transfers_setTransfer]
      split_ifs
      · exact hdelivered
      · rfl
    · rw [transfers_setEasy, transfers_setTransfer, transfers_setTransfer, if_pos rfl]
      split_ifs
      · exact hdelivered
      · rfl
    · rw [transfers_setMulti, transfers_setTransfer]
      split_ifs
      · exact hdelivered
      · rfl
  refine ⟨?_, ?_, ?_⟩
  · rintro h' ⟨e, he, hrenews⟩
    obtain rfl := List.mem_singleton.mp he
    obtain rfl : h = h' := hrenews
    rw [hflags, if_pos rfl]
  · intro h' hnot
    have hne : h' ≠ h := by
      rintro rfl
      exact hnot ⟨_, List.mem_singleton_self _, rfl⟩
    rw [hflags, if_neg hne]
  · intro m' h' hmem
    by_cases heq : h' = h
    · exact .inr ⟨_, List.mem_singleton_self _, heq.symm⟩
    · left
      rcases hcase with ⟨-, rfl⟩ | ⟨-, -, -, -, rfl⟩ | ⟨-, -, -, n, rfl, hlocals, -⟩
      · exact hmem
      · exact hmem
      · rw [multis_setMulti] at hmem
        split_ifs at hmem with hm
        · rw [hlocals] at hmem
          rw [hm]
          exact (List.mem_append.mp hmem).resolve_right (by simpa using heq)
        · exact hmem

theorem read_renewing {m : MultiSlot} {msg : Option Message} {left : ℕ}
    (hread : s.read m = (msg, left, s')) : Renewing s s' [.read m msg left] := by
  have hnone : ∀ h, ∀ e ∈ [Event.read m msg left], ¬ (Sound.of e).Renews h := by
    intro h e he
    rw [List.mem_singleton.mp he]
    exact id
  have hsame : (∀ h, s'.transfers h = s.transfers h) ∧
      ∀ m', (s'.multis m').locals = (s.multis m').locals := by
    rcases read_cases s m hread with ⟨-, -, -, -, n, rfl, hlocals, -⟩ |
      ⟨-, ⟨h, result, rest, -, rfl, -⟩ | ⟨-, -, rfl⟩⟩
    · refine ⟨fun _ => rfl, fun m' => ?_⟩
      rw [multis_setMulti]
      split_ifs with hm
      · rw [hlocals, hm]
      · rfl
    · refine ⟨fun _ => rfl, fun m' => ?_⟩
      rw [multis_setMsglist]
      split_ifs with hm
      · rw [hm]
      · rfl
    · exact ⟨fun _ => rfl, fun _ => rfl⟩
  refine ⟨?_, ?_, ?_⟩
  · rintro h ⟨e, he, hrenews⟩
    exact absurd hrenews (hnone h e he)
  · intro h _
    rw [hsame.1]
  · intro m' h hmem
    rw [hsame.2] at hmem
    exact .inl hmem

end Handles

theorem call_renewing {s s' : Handles} {i : Entry} {ev : List Event} (hother : i.performs = false)
    (hstep : step s i = some (s', ev)) : Renewing s s' ev := by
  have hsame : Renewing s s [] := by
    have hfewer : Fewer (fun _ _ => False) s s := Fewer.refl s
    exact .of_kept hfewer (fun _ => rfl) (by simp)
  cases i with
  | easyInit accepts =>
    simp only [step] at hstep
    generalize hopen : s.openTransfer accepts = opened at hstep
    obtain ⟨_ | h, s₁⟩ := opened <;> obtain ⟨rfl, rfl⟩ := Prod.mk.inj (Option.some.inj hstep) <;>
      exact openTransfer_renewing s accepts hopen
  | multiAddHandle m h accepts =>
    simp only [step] at hstep
    split at hstep <;> obtain ⟨rfl, rfl⟩ := Prod.mk.inj (Option.some.inj hstep)
    · exact add_renewing rfl _
    · exact hsame
  | multiInfoRead m =>
    simp only [step] at hstep
    split at hstep
    · generalize hread : s.read _ = result at hstep
      obtain ⟨msg, left, s₁⟩ := result
      obtain ⟨rfl, rfl⟩ := Prod.mk.inj (Option.some.inj hstep)
      exact read_renewing hread
    · obtain ⟨rfl, rfl⟩ := Prod.mk.inj (Option.some.inj hstep)
      exact hsame
  | multiPerform m work alive => cases hother
  | easySetopt h o =>
    refine .of_kept (plain_step rfl hstep).1 ?_ ?_ <;> simp only [step] at hstep <;>
      split at hstep <;> obtain ⟨rfl, rfl⟩ := Prod.mk.inj (Option.some.inj hstep)
    · exact fun _ => rfl
    · intro h
      rw [transfers_setTransfer]
      split_ifs with hh
      · rw [hh]
        exact (Transfer.set_same _ o).2.2.2.1
      · rfl
    · simp
    · simp
  | easyCleanup h =>
    refine .of_kept (plain_step rfl hstep).1 ?_ ?_ <;> simp only [step] at hstep <;>
      split at hstep <;> obtain ⟨rfl, rfl⟩ := Prod.mk.inj (Option.some.inj hstep)
    · exact fun _ => rfl
    · intro h
      unfold closeTransfer
      rw [transfers_setTransfer]
      split_ifs with hh
      · rw [hh]
      · rfl
    · simp
    · simp [Sound.Renews]
  | multiInit accepts =>
    refine .of_kept (plain_step rfl hstep).1 ?_ ?_ <;>
      obtain ⟨rfl, rfl⟩ := Prod.mk.inj (Option.some.inj hstep)
    · intro h
      unfold openMultiHandle
      cases (List.finRange 8).find? fun m => !s.multiUsed m with
      | none => rfl
      | some m =>
        unfold openMulti
        cases accepts <;> exact ((closeMulti_keeps (H := fun _ => False) s m).flags h).2.2
    · simp
  | multiRemoveHandle m h =>
    refine .of_kept (plain_step rfl hstep).1 ?_ ?_ <;> simp only [step] at hstep <;>
      split at hstep <;> obtain ⟨rfl, rfl⟩ := Prod.mk.inj (Option.some.inj hstep)
    · intro h
      exact ((remove_keeps (H := fun _ => False) (M := fun _ => False) s _ _).flags h).2.2
    · exact fun _ => rfl
    · simp [Sound.Renews]
    · simp
  | multiCleanup m =>
    refine .of_kept (plain_step rfl hstep).1 ?_ ?_ <;> simp only [step] at hstep <;>
      split at hstep <;> obtain ⟨rfl, rfl⟩ := Prod.mk.inj (Option.some.inj hstep)
    · intro h
      exact ((closeMulti_keeps (H := fun _ => False) s _).flags h).2.2
    · exact fun _ => rfl
    · simp
    · simp
  | servePlatformAt d =>
    refine .of_kept (plain_step rfl hstep).1 ?_ ?_ <;>
      obtain ⟨rfl, rfl⟩ := Prod.mk.inj (Option.some.inj hstep)
    · exact fun _ => rfl
    · simp

namespace Handles

variable {s s' : Handles} {m : MultiSlot} {ev : List Event}

theorem curlPerform_called {work : List Work} (hcurl : s.curlPerform m work = some (s', ev)) :
    ∀ e ∈ ev, ∃ h, e = .calledBack m h := by
  refine curlPerform_induct (m := m) (P := fun _ ev _ => ∀ e ∈ ev, ∃ h, e = .calledBack m h) ?_ ?_
    hcurl
  · simp
  · intro s w s₁ ev ev' s' hwork ih e he
    rcases List.mem_append.mp he with he | he
    · obtain ⟨h, -, ⟨-, rfl⟩ | ⟨rfl, -⟩⟩ := curlWork_cases hwork
      · exact ⟨h, List.mem_singleton.mp he⟩
      · cases he
    · exact ih e he

theorem pass_events {work : List Work} {alive n : ℕ} (hcurl : s.curlPerform m work = some (s', ev)) :
    ∀ e ∈ ev ++ [.performed m alive n], (∃ h, e = .calledBack m h) ∨ e = .performed m alive n := by
  intro e he
  rcases List.mem_append.mp he with he | he
  · exact .inl (curlPerform_called hcurl e he)
  · exact .inr (List.mem_singleton.mp he)

theorem curlPerform_renewing {work : List Work} (hcurl : s.curlPerform m work = some (s', ev)) :
    Renewing s s' ev where
  renewed h := by
    rintro ⟨e, he, hrenews⟩
    obtain ⟨h', rfl⟩ := curlPerform_called hcurl e he
    cases hrenews
  kept h _ :=
    ((curlPerform_keeps (H := fun _ => False) (M := fun _ => False) hcurl).flags h).2.2
  locals m' h hmem := by
    have hcount : 0 < s'.inLocals m' h := List.count_pos_iff.mpr hmem
    rw [curlPerform_inLocals hcurl] at hcount
    exact .inl (List.count_pos_iff.mp hcount)

/-- A sweep takes delivered transfers from the array, and leaves one there only for want of room. -/
theorem collect_spec (s : Handles) (m : MultiSlot) :
    ∃ taken, (s.multis m).locals.Perm (((s.collect m).1.multis m).locals ++ taken) ∧
      (s.collect m).2 = taken.map (fun h => Event.queued m h) ∧
      (∀ h ∈ taken, (s.transfers h).delivered = true) ∧
      (∀ h ∈ ((s.collect m).1.multis m).locals, (s.transfers h).delivered = true →
        ((s.collect m).1.multis m).messages.count = capacity) ∧
      ((s.collect m).1.multis m).messages.contents = (s.multis m).messages.contents ++
        taken.map (fun h => ⟨.transfer h, (s.transfers h).outcome⟩) ∧
      (s.collect m).1.transfers = s.transfers ∧
      ∀ m', m' ≠ m → (s.collect m).1.multis m' = s.multis m' := by
  obtain ⟨taken, hperm, hcontents, hevents, hall, hheld⟩ := queueAll_spec s m
  have hlast : (s.collect m).1.multis m = { s.multis m with
      locals := (s.queueAll m).1
      answered := (s.queueAll m).1.length
      messages := (s.queueAll m).2.1
      fits := s.queueAll_length m } := by
    rw [collect, multis_setMulti, if_pos rfl]
  refine ⟨taken, ?_, hevents, hall, ?_, ?_, rfl, ?_⟩
  · rw [hlast]
    exact hperm
  · rw [hlast]
    exact hheld
  · rw [hlast]
    exact hcontents
  · intro m' hne
    rw [collect, multis_setMulti, if_neg hne]

theorem collect_locals (s : Handles) (m m' : MultiSlot) {h : Slot}
    (hmem : h ∈ ((s.collect m).1.multis m').locals) : h ∈ (s.multis m').locals := by
  obtain ⟨taken, hperm, -, -, -, -, -, hothers⟩ := collect_spec s m
  by_cases hm : m' = m
  · subst hm
    exact hperm.mem_iff.mpr (List.mem_append_left _ hmem)
  · rwa [hothers m' hm] at hmem

end Handles

namespace Nest

/-! ## What a move does to them -/

/-- A move delivers one answer, or it begins transfers anew, or it queues completions of answers that
were delivered. -/
structure Effect (g g' : Nest) (ev : List Sound) : Prop where
  renewed : ∀ h, Renewed h ev → (g'.handles.transfers h).delivered = false
  kept : ∀ h, ¬ Renewed h ev → (∀ m, .delivering m h ∉ ev) →
    (g'.handles.transfers h).delivered = (g.handles.transfers h).delivered
  delivering : ∀ m h, .delivering m h ∈ ev → ev = [.delivering m h] ∧
    (g.handles.transfers h).delivered = false ∧ (g'.handles.transfers h).delivered = true
  queued : ∀ m h, .of (.queued m h) ∈ ev → (g.handles.transfers h).delivered = true ∧
    (∀ h', ¬ Renewed h' ev) ∧ ∀ m' h', .delivering m' h' ∉ ev
  locals : ∀ m h, h ∈ (g'.handles.multis m).locals →
    h ∈ (g.handles.multis m).locals ∨ Renewed h ev

theorem Effect.of_renewing {g g' : Nest} {ev : List Event}
    (renewing : Renewing g.handles g'.handles ev) (hqueued : ∀ m h, .queued m h ∉ ev) :
    Effect g g' (ev.map .of) where
  renewed h hrenewed := renewing.renewed h (renewed_of.mp hrenewed)
  kept h hnot _ := renewing.kept h fun hin => hnot (renewed_of.mpr hin)
  delivering m h hmem := by simp at hmem
  queued m h hmem := absurd (of_mem.mp hmem) (hqueued m h)
  locals m h hmem := (renewing.locals m h hmem).imp_right renewed_of.mpr

theorem Effect.of_same {g g' : Nest} {ev : List Sound} (hsame : g'.handles = g.handles)
    (hev : ∀ e ∈ ev, (∀ m h, e ≠ .delivering m h) ∧ ∀ e', e ≠ .of e') : Effect g g' ev where
  renewed h := by
    rintro ⟨e, he, hrenews⟩
    cases e with
    | of e' => exact absurd rfl ((hev _ he).2 e')
    | delivering m h' => cases hrenews
    | called m h' c => cases hrenews
  kept h _ _ := by rw [hsame]
  delivering m h hmem := absurd rfl ((hev _ hmem).1 m h)
  queued m h hmem := absurd rfl ((hev _ hmem).2 _)
  locals m h hmem := by
    rw [hsame] at hmem
    exact .inl hmem

theorem effect {g g' : Nest} {move : Move} {ev : List Sound} (h : Happens g move g' ev) :
    Effect g g' ev := by
  cases h with
  | call hother hstep =>
    apply Effect.of_renewing (call_renewing hother hstep)
    intro m h hmem
    obtain ⟨m, work, alive, rfl⟩ := (step_causes hstep hmem).1
    cases hother
  | still calling => exact .of_same rfl (by simp)
  | @pass m' m work alive s ev hmulti hcurl =>
    have renewing := curlPerform_renewing hcurl
    have hlast : Renewing g.handles s (ev ++ [.performed m alive 0]) := by
      refine ⟨fun h hin => renewing.renewed h ?_, fun h hnot => renewing.kept h ?_,
        fun m' h hmem => (renewing.locals m' h hmem).imp_right ?_⟩
      · obtain ⟨e, he, hrenews⟩ := hin
        rcases List.mem_append.mp he with he | he
        · exact ⟨e, he, hrenews⟩
        · rw [List.mem_singleton.mp he] at hrenews
          cases hrenews
      · rintro ⟨e, he, hrenews⟩
        exact hnot ⟨e, List.mem_append_left _ he, hrenews⟩
      · rintro ⟨e, he, hrenews⟩
        exact ⟨e, List.mem_append_left _ he, hrenews⟩
    apply Effect.of_renewing hlast
    intro m' h hmem
    rcases pass_events hcurl _ hmem with ⟨h', heq⟩ | heq <;> cases heq
  | enter hmulti hcurl =>
    apply Effect.of_renewing (curlPerform_renewing hcurl)
    intro m' h hmem
    obtain ⟨h', heq⟩ := curlPerform_called hcurl _ hmem
    cases heq
  | part hperforms hcurrent calling => exact .of_same rfl (by simp)
  | finish hperforms hcurrent => exact .of_same rfl (by simp)
  | skip hperforms hcurrent hrest hdelivered => exact .of_same rfl (by simp)
  | @begin p ps h rest hperforms hcurrent hrest hdelivered =>
    refine ⟨?_, ?_, ?_, ?_, fun m h' hmem => .inl hmem⟩
    · rintro h' ⟨e, he, hrenews⟩
      rw [List.mem_singleton.mp he] at hrenews
      cases hrenews
    · intro h' _ hother
      have hne : h' ≠ h := by
        rintro rfl
        exact hother p.multi (List.mem_singleton_self _)
      rw [transfers_setTransfer, if_neg hne]
    · intro m h' hmem
      obtain ⟨rfl, rfl⟩ := Sound.delivering.inj (List.mem_singleton.mp hmem)
      exact ⟨rfl, hdelivered, by rw [transfers_setTransfer, if_pos rfl]⟩
    · intro m h' hmem
      cases List.mem_singleton.mp hmem
  | @leave p ps hperforms hcurrent hrest =>
    obtain ⟨taken, -, hevents, hall, -, -, htransfers, -⟩ := collect_spec g.handles p.multi
    have hnone : ∀ h, ¬ Renewed h (((g.handles.collect p.multi).2 ++ [Event.performed p.multi p.alive
        ((g.handles.collect p.multi).1.multis p.multi).locals.length]).map .of) := by
      rintro h ⟨e, he, hrenews⟩
      rw [hevents] at he
      obtain ⟨e', he', rfl⟩ := List.mem_map.mp he
      rcases List.mem_append.mp he' with he' | he'
      · obtain ⟨h', -, rfl⟩ := List.mem_map.mp he'
        cases hrenews
      · rw [List.mem_singleton.mp he'] at hrenews
        cases hrenews
    refine ⟨fun h hin => absurd hin (hnone h), ?_, ?_, ?_, ?_⟩
    · intro h _ _
      rw [htransfers]
    · intro m h hmem
      simp at hmem
    · intro m h hmem
      refine ⟨?_, hnone, by simp⟩
      rcases List.mem_append.mp (of_mem.mp hmem) with he' | he'
      · rw [hevents] at he'
        obtain ⟨h', hin, heq⟩ := List.mem_map.mp he'
        obtain ⟨-, rfl⟩ := Event.queued.inj heq
        exact hall h' hin
      · cases List.mem_singleton.mp he'
    · exact fun m h hmem => .inl (collect_locals g.handles p.multi m hmem)

/-! ## Answers and completions -/

/-- The flag of a transfer says whether its answer was delivered since it last began. -/
def Flagged (tr : List Sound) (g : Nest) : Prop :=
  ∀ h, (g.handles.transfers h).delivered = true ↔ Told h tr

theorem Flagged.step {g g' : Nest} {tr ev : List Sound} (flagged : Flagged tr g)
    (he : Effect g g' ev) : Flagged (tr ++ ev) g' := by
  intro h
  rw [told_append]
  by_cases hrenewed : Renewed h ev
  · have hnot : ¬ Told h ev := by
      intro told
      obtain ⟨m, hmem⟩ := told.mem
      obtain ⟨hev, -⟩ := he.delivering m h hmem
      obtain ⟨e, hin, hrenews⟩ := hrenewed
      rw [hev, List.mem_singleton] at hin
      rw [hin] at hrenews
      cases hrenews
    rw [he.renewed h hrenewed]
    simp [hrenewed, hnot]
  · by_cases htold : ∃ m, .delivering m h ∈ ev
    · obtain ⟨m, hmem⟩ := htold
      obtain ⟨hev, -, hflag⟩ := he.delivering m h hmem
      have htold : Told h ev := by
        rw [hev]
        exact ⟨m, since_singleton.mpr rfl⟩
      simp [hflag, htold]
    · have hnot : ¬ Told h ev := fun told => htold told.mem
      rw [he.kept h hrenewed (not_exists.mp htold), flagged h]
      simp [hrenewed, hnot]

/-- What is heard of a transfer's answer, after what was heard before. -/
def InTurn (tr : List Sound) : Sound → Prop
  | .delivering _ h => ¬ Told h tr
  | .of (.queued _ h) => Told h tr
  | _ => True

theorem inTurn_of_effect {g g' : Nest} {tr ev : List Sound} (flagged : Flagged tr g)
    (he : Effect g g' ev) : ∀ a e b, ev = a ++ e :: b → InTurn (tr ++ a) e := by
  rintro a e b rfl
  cases e with
  | called m h c => trivial
  | delivering m h =>
    obtain ⟨hev, hflag, -⟩ := he.delivering m h (by simp)
    obtain rfl : a = [] := by
      have hlength := congrArg List.length hev
      simp at hlength
      exact List.eq_nil_of_length_eq_zero (by omega)
    rw [List.append_nil, InTurn, ← flagged h, hflag]
    exact Bool.false_ne_true
  | of e =>
    cases e with
    | queued m h =>
      obtain ⟨hflag, hnone, -⟩ := he.queued m h (by simp)
      rw [InTurn, told_append]
      refine .inr ⟨(flagged h).mp hflag, ?_⟩
      rintro ⟨e, hin, hrenews⟩
      exact hnone h ⟨e, List.mem_append_left _ hin, hrenews⟩
    | _ => trivial

theorem pooled_step {g g' : Nest} {move : Move} {ev : List Sound} (pooled : g.handles.Pooled)
    (h : Happens g move g' ev) : g'.handles.Pooled := by
  cases h with
  | call hother hstep => exact pooled.step hstep
  | still calling => exact pooled
  | pass hmulti hcurl => exact pooled.curlPerform hcurl
  | enter hmulti hcurl => exact pooled.curlPerform hcurl
  | part hperforms hcurrent calling => exact pooled
  | finish hperforms hcurrent => exact pooled
  | skip hperforms hcurrent hrest hdelivered => exact pooled
  | begin hperforms hcurrent hrest hdelivered => exact pooled.setTransfer_same rfl rfl
  | @leave p ps hperforms hcurrent hrest => exact pooled.setMulti (pooled.multi p.multi) rfl

theorem flagged_start : Flagged [] {} := by
  intro h
  constructor
  · intro hflag
    cases hflag
  · intro told
    obtain ⟨m, hmem⟩ := told.mem
    cases hmem

theorem reaches_flagged {ok : Nest → Move → Prop} {tr : List Sound} {g : Nest}
    (h : Reaches step ok {} tr g) : Flagged tr g := by
  refine h.invariant flagged_start ?_
  intro tr g move g' ev flagged _ hstep
  exact flagged.step (effect (happens hstep))

/-- No answer is delivered again, and no completion is queued for an answer that was not delivered,
since the transfer last began. `multi::poll` does not wait while the array has a transfer. -/
theorem nested_answers {tr : List Sound} {g : Nest} (h : Reaches step always {} tr g) :
    (∀ a m x b, tr = a ++ .delivering m x :: b → ¬ Told x a) ∧
    (∀ a m x b, tr = a ++ .of (.queued m x) :: b → Told x a) ∧
    ∀ m timeout, g.handles.pollTimeout m timeout =
      if (g.handles.multis m).locals = [] then timeout else 0 := by
  have hturn : Flagged tr g ∧ ∀ a e b, tr = a ++ e :: b → InTurn a e := by
    refine h.invariant (P := fun tr g => Flagged tr g ∧ ∀ a e b, tr = a ++ e :: b → InTurn a e)
      ⟨flagged_start, by simp⟩ ?_
    rintro tr g move g' ev ⟨flagged, hturn⟩ - hstep
    have he := effect (happens hstep)
    exact ⟨flagged.step he, split_append hturn (inTurn_of_effect flagged he)⟩
  have hpooled : g.handles.Pooled := by
    refine h.state_invariant (P := fun g => g.handles.Pooled) start_pooled ?_
    intro g move g' ev pooled _ hstep
    exact pooled_step pooled (happens hstep)
  refine ⟨fun a m x b htr => hturn.2 a _ b htr, fun a m x b htr => hturn.2 a _ b htr, ?_⟩
  intro m timeout
  unfold pollTimeout
  rw [hpooled.answered m]
  cases (g.handles.multis m).locals with
  | nil => rfl
  | cons x xs => simp

/-! ## Callbacks and completions -/

/-- No call of `multi::perform` is made from a callback. -/
def flat (g : Nest) : Move → Prop
  | .perform .. => g.performs = []
  | _ => True

instance (g : Nest) : (move : Move) → Decidable (flat g move)
  | .perform .. => decidable_of_iff (g.performs.isEmpty = true) List.isEmpty_iff
  | .call _ => isTrue trivial
  | .giveBack => isTrue trivial
  | .goOn => isTrue trivial

theorem queued_leaves {g g' : Nest} {move : Move} {ev : List Sound} (h : Happens g move g' ev)
    {m : MultiSlot} {x : Slot} (hmem : .of (.queued m x) ∈ ev) :
    ∃ p, g.performs = p :: g'.performs := by
  cases h with
  | call hother hstep =>
    obtain ⟨m, work, alive, rfl⟩ := (step_causes hstep (of_mem.mp hmem)).1
    cases hother
  | still calling => cases hmem
  | pass hmulti hcurl =>
    rcases pass_events hcurl _ (of_mem.mp hmem) with ⟨x', heq⟩ | heq <;> cases heq
  | enter hmulti hcurl =>
    obtain ⟨x', heq⟩ := curlPerform_called hcurl _ (of_mem.mp hmem)
    cases heq
  | part hperforms hcurrent calling => simp at hmem
  | finish hperforms hcurrent => cases hmem
  | skip hperforms hcurrent hrest hdelivered => cases hmem
  | begin hperforms hcurrent hrest hdelivered => cases List.mem_singleton.mp hmem
  | leave hperforms hcurrent hrest => exact ⟨_, hperforms⟩

/-- An answer that is being delivered was being delivered before, or it is begun. -/
theorem current_cases {g g' : Nest} {move : Move} {ev : List Sound} (h : Happens g move g' ev)
    {p' : Performing} (hp' : p' ∈ g'.performs) {x : Slot} {parts : List Part}
    (hcurrent' : p'.current = some (x, parts)) :
    (∃ p ∈ g.performs, p.multi = p'.multi ∧ ∃ parts, p.current = some (x, parts)) ∨
      .delivering p'.multi x ∈ ev := by
  cases h with
  | call hother hstep => exact .inl ⟨p', hp', rfl, parts, hcurrent'⟩
  | still calling => exact .inl ⟨p', hp', rfl, parts, hcurrent'⟩
  | pass hmulti hcurl => exact .inl ⟨p', hp', rfl, parts, hcurrent'⟩
  | enter hmulti hcurl =>
    rcases List.mem_cons.mp hp' with rfl | hp'
    · cases hcurrent'
    · exact .inl ⟨p', hp', rfl, parts, hcurrent'⟩
  | @part p ps x₁ part parts₁ hperforms hcurrent calling =>
    rw [hperforms]
    rcases List.mem_cons.mp hp' with rfl | hp'
    · obtain ⟨rfl, -⟩ := Prod.mk.inj (Option.some.inj hcurrent')
      exact .inl ⟨p, List.mem_cons_self, rfl, _, hcurrent⟩
    · exact .inl ⟨p', List.mem_cons_of_mem _ hp', rfl, parts, hcurrent'⟩
  | finish hperforms hcurrent =>
    rw [hperforms]
    rcases List.mem_cons.mp hp' with rfl | hp'
    · cases hcurrent'
    · exact .inl ⟨p', List.mem_cons_of_mem _ hp', rfl, parts, hcurrent'⟩
  | skip hperforms hcurrent hrest hdelivered =>
    rw [hperforms]
    rcases List.mem_cons.mp hp' with rfl | hp'
    · exact absurd (hcurrent.symm.trans hcurrent') (by simp)
    · exact .inl ⟨p', List.mem_cons_of_mem _ hp', rfl, parts, hcurrent'⟩
  | begin hperforms hcurrent hrest hdelivered =>
    rw [hperforms]
    rcases List.mem_cons.mp hp' with rfl | hp'
    · obtain ⟨rfl, -⟩ := Prod.mk.inj (Option.some.inj hcurrent')
      exact .inr (List.mem_singleton_self _)
    · exact .inl ⟨p', List.mem_cons_of_mem _ hp', rfl, parts, hcurrent'⟩
  | leave hperforms hcurrent hrest =>
    rw [hperforms]
    exact .inl ⟨p', List.mem_cons_of_mem _ hp', rfl, parts, hcurrent'⟩

theorem called_cases {g g' : Nest} {move : Move} {ev : List Sound} (h : Happens g move g' ev)
    {m : MultiSlot} {x : Slot} {c : Call} (hmem : .called m x c ∈ ev) :
    (∃ p ∈ g.performs, p.multi = m ∧ ∃ parts, p.current = some (x, parts)) ∧
      ∀ e ∈ ev, ∃ m x c, e = .called m x c := by
  cases h with
  | part hperforms hcurrent calling =>
    constructor
    · obtain ⟨c', -, heq⟩ := List.mem_map.mp hmem
      obtain ⟨rfl, rfl, -⟩ := Sound.called.inj heq
      exact ⟨_, by rw [hperforms]; exact List.mem_cons_self, rfl, _, hcurrent⟩
    · intro e he
      obtain ⟨c', -, rfl⟩ := List.mem_map.mp he
      exact ⟨_, _, c', rfl⟩
  | begin hperforms hcurrent hrest hdelivered => cases List.mem_singleton.mp hmem
  | _ => simp at hmem

/-- What is kept where no call of `multi::perform` is made from a callback. -/
structure Unfinished (tr : List Sound) (g : Nest) : Prop where
  one : g.performs.length ≤ 1
  finished : ∀ x, Finished x tr → (g.handles.transfers x).delivered = true
  current : ∀ p ∈ g.performs, ∀ x parts, p.current = some (x, parts) → ¬ Finished x tr

theorem one_step {g g' : Nest} {move : Move} {ev : List Sound} (hflat : flat g move)
    (h : Happens g move g' ev) (hone : g.performs.length ≤ 1) : g'.performs.length ≤ 1 := by
  cases h with
  | call hother hstep => exact hone
  | still calling => exact hone
  | pass hmulti hcurl => exact hone
  | enter hmulti hcurl =>
    have hnone : g.performs = [] := hflat
    simp [hnone]
  | part hperforms hcurrent calling => rwa [hperforms] at hone
  | finish hperforms hcurrent => rwa [hperforms] at hone
  | skip hperforms hcurrent hrest hdelivered => rwa [hperforms] at hone
  | begin hperforms hcurrent hrest hdelivered => rwa [hperforms] at hone
  | leave hperforms hcurrent hrest =>
    rw [hperforms, List.length_cons] at hone
    exact (Nat.le_succ _).trans hone

theorem Unfinished.step {g g' : Nest} {move : Move} {tr ev : List Sound}
    (unfinished : Unfinished tr g) (hflat : flat g move) (h : Happens g move g' ev) :
    Unfinished (tr ++ ev) g' := by
  have he := effect h
  refine ⟨one_step hflat h unfinished.one, ?_, ?_⟩
  · intro x hfinished
    rcases finished_append.mp hfinished with hnew | ⟨hold, hnot⟩
    · obtain ⟨m, hmem⟩ := hnew.mem
      obtain ⟨hflag, hnone, hothers⟩ := he.queued m x hmem
      rw [he.kept x (hnone x) fun m' => hothers m' x]
      exact hflag
    · by_cases htold : ∃ m, .delivering m x ∈ ev
      · obtain ⟨m, hmem⟩ := htold
        exact (he.delivering m x hmem).2.2
      · rw [he.kept x hnot (not_exists.mp htold)]
        exact unfinished.finished x hold
  · intro p' hp' x parts hcurrent' hfinished
    have hquiet : ¬ Finished x ev := by
      intro hnew
      obtain ⟨m, hmem⟩ := hnew.mem
      obtain ⟨p, hperforms⟩ := queued_leaves h hmem
      have hone := unfinished.one
      rw [hperforms, List.length_cons] at hone
      have hlength := List.length_pos_of_mem hp'
      omega
    obtain ⟨hold, -⟩ := (finished_append.mp hfinished).resolve_left hquiet
    rcases current_cases h hp' hcurrent' with ⟨p, hp, -, parts', hcurrent⟩ | hmem
    · exact unfinished.current p hp x parts' hcurrent hold
    · have hflag := (he.delivering _ x hmem).2.1
      rw [unfinished.finished x hold] at hflag
      cases hflag

/-- Where no call of `multi::perform` is made from a callback, the callbacks of an answer are called
before its completion is queued. -/
theorem called_before_completion {tr : List Sound} {g : Nest} (h : Reaches step flat {} tr g) :
    ∀ a m x c b, tr = a ++ .called m x c :: b → ¬ Finished x a := by
  have hcalled : Unfinished tr g ∧
      ∀ a e b, tr = a ++ e :: b → ∀ m x c, e = .called m x c → ¬ Finished x a := by
    refine h.invariant (P := fun tr g => Unfinished tr g ∧
      ∀ a e b, tr = a ++ e :: b → ∀ m x c, e = .called m x c → ¬ Finished x a) ?_ ?_
    · refine ⟨⟨Nat.zero_le 1, ?_, ?_⟩, by simp⟩
      · intro x hfinished
        obtain ⟨m, hmem⟩ := hfinished.mem
        cases hmem
      · intro p hp
        cases hp
    · rintro tr g move g' ev ⟨unfinished, hcalled⟩ hflat hstep
      have hhappens := happens hstep
      refine ⟨unfinished.step hflat hhappens, split_append hcalled ?_⟩
      rintro a e b rfl m x c rfl
      obtain ⟨⟨p, hp, -, parts, hcurrent⟩, hall⟩ := called_cases hhappens (m := m) (x := x) (c := c)
        (by simp)
      intro hfinished
      rcases finished_append.mp hfinished with hnew | ⟨hold, -⟩
      · obtain ⟨m', hmem⟩ := hnew.mem
        obtain ⟨m₁, x₁, c₁, heq⟩ := hall _ (List.mem_append_left _ hmem)
        cases heq
      · exact unfinished.current p hp x parts hcurrent hold
  exact fun a m x c b htr => hcalled.2 a _ b htr m x c rfl

section Run

/-- What is heard when a transfer that the client answers is added. -/
def addedWriting : List Sound := [.of (.opened 0), .of (.added 0 0 .ok true)]

/-- It is performed, up to the callback for the body. -/
def performsWriting : List Move :=
  addWriting.map .call ++
    [.perform (some 0) [] 0, .goOn, .goOn, .goOn, .goOn, .goOn, .goOn]

theorem performsWriting_trace :
    (execute step {} performsWriting).map (fun last => last.2) =
      some (addedWriting ++ [.delivering 0 0] ++ [.called 0 0 bodyCall]) := by
  decide +kernel

theorem called_before_completion_once : ¬ Finished 0 (addedWriting ++ [.delivering 0 0]) := by
  obtain ⟨⟨g, tr⟩, hrun, rfl⟩ := Option.map_eq_some_iff.mp performsWriting_trace
  have h : Reaches step flat {} (addedWriting ++ [.delivering 0 0] ++ [.called 0 0 bodyCall]) g :=
    reaches_of_execute _ hrun (by decide +kernel)
  exact called_before_completion h _ 0 0 bodyCall [] rfl

/-- The first callback performs again, and returns. -/
def performsInside : List Move :=
  (addWriting ++ [Entry.easySetopt (some 0) (.headerfunction (some 5))]).map .call ++
    [.perform (some 0) [] 0, .goOn, .goOn, .perform (some 0) [] 0, .goOn, .goOn, .giveBack, .goOn]

def statusCall : Call := ⟨5, "HTTP/1.1 200 OK\r\n".toList, 0⟩

def typeCall : Call := ⟨5, "Content-Type: application/json\r\n".toList, 0⟩

theorem performsInside_trace :
    (execute step {} performsInside).map (fun last => last.2) =
      some (addedWriting ++ [.delivering 0 0, .called 0 0 statusCall] ++
        .of (.queued 0 0) :: [.of (.performed 0 0 0), .called 0 0 typeCall]) := by
  decide +kernel

theorem nested_answers_inside : Told 0 (addedWriting ++ [.delivering 0 0, .called 0 0 statusCall]) := by
  obtain ⟨⟨g, tr⟩, hrun, rfl⟩ := Option.map_eq_some_iff.mp performsInside_trace
  exact (nested_answers (reaches_of_run hrun)).2.1 _ 0 0 _ rfl

theorem called_after_completion :
    ¬ ∀ (tr : List Sound) (g : Nest), Reaches step always {} tr g →
      ∀ a m x c b, tr = a ++ .called m x c :: b → ¬ Finished x a := by
  intro claim
  obtain ⟨⟨g, tr⟩, hrun, rfl⟩ := Option.map_eq_some_iff.mp performsInside_trace
  have hnot := claim _ g (reaches_of_run hrun) (addedWriting ++
    [.delivering 0 0, .called 0 0 statusCall, .of (.queued 0 0), .of (.performed 0 0 0)]) 0 0
    typeCall [] rfl
  apply hnot
  exact ⟨0, addedWriting ++ [.delivering 0 0, .called 0 0 statusCall], [.of (.performed 0 0 0)], rfl,
    by decide⟩

end Run

end Nest

end IW4x.XCurl
