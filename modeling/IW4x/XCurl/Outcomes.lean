import IW4x.XCurl.Pools

/-!
# What becomes of a refused answer

libcurl calls back for every header line and for the body of a response, stops at the first call
that does not take all it is given, and reports that as the result of the transfer. The client makes
the same calls for an answer of its own, but all of them, and its result is always the same.
-/

namespace IW4x.XCurl

open Runs Handles

def Response.headerLines (r : Response) : List Str :=
  ["HTTP/1.1 ".toList ++ decimal r.status ++ " ".toList ++
      (if r.status = 200 then "OK".toList else "Error".toList) ++ "\r\n".toList,
    "Content-Type: ".toList ++ r.type ++ "\r\n".toList,
    "Content-Length: ".toList ++ decimal r.body.length ++ "\r\n".toList, "\r\n".toList]

/-- The function that libcurl passes header lines to: where there is none for them and `headerData`
is set, the one for the body. (Where that is not set either it is `fwrite`, which is no callback.) -/
def Transfer.headerFunction (t : Transfer) : Option Callback :=
  match t.header with
  | some f => some f
  | none => if t.headerData = 0 then none else t.write

/-- The calls that libcurl makes for the response: one for each header line, and one for the body. -/
def Transfer.responseCalls (t : Transfer) : List Call :=
  (match t.headerFunction with
    | none => []
    | some f => t.answer.headerLines.map fun line => ⟨f, line, t.headerData⟩) ++
  match t.write with
  | none => []
  | some f => if t.answer.body = [] then [] else [⟨f, t.answer.body, t.writeData⟩]

/-- What an answer of this client is: none yet, or the only one there is. -/
structure Transfer.Plain (t : Transfer) : Prop where
  outcome : t.outcome = 0
  answer : t.answer = {} ∨ t.answer = privacy []

theorem answer_eq {method url : Str} {r : Response} (h : answer method url = some r) :
    r = privacy [] := by
  obtain ⟨e, he, rfl⟩ := Option.map_eq_some_iff.mp h
  have hmem := List.mem_of_find?_eq_some he
  obtain rfl := List.mem_singleton.mp hmem
  rfl

namespace Transfer.Plain

variable {t : Transfer}

theorem opened : Transfer.opened.Plain := ⟨rfl, .inl rfl⟩

theorem set (plain : t.Plain) (o : Setting) : (t.set o).Plain := by
  have houtcome := (t.set_same o).2.2.2.2
  have hanswer : (t.set o).answer = t.answer := by
    cases o with
    | customrequest v => cases v <;> rfl
    | _ => rfl
  exact ⟨houtcome.trans plain.outcome, hanswer ▸ plain.answer⟩

theorem begin (plain : t.Plain) (installed : Option Destination) (accepts : Bool) :
    (t.begin installed accepts).2.Plain := by
  simp only [Transfer.begin]
  cases hanswer : XCurl.answer t.method t.url with
  | some r => exact ⟨rfl, .inr (answer_eq hanswer)⟩
  | none =>
    cases platform installed t.url with
    | none => exact ⟨rfl, plain.answer⟩
    | some d => cases accepts <;> exact ⟨rfl, plain.answer⟩

end Transfer.Plain

structure Handles.Honest (s : Handles) : Prop where
  transfers : ∀ h, (s.transfers h).Plain
  rings : ∀ m, ∀ msg ∈ (s.multis m).messages.contents, msg.result = 0

namespace Handles

variable {s s' : Handles} {m : MultiSlot} {h : Slot}

theorem Honest.setTransfer (honest : s.Honest) {t : Transfer} (plain : t.Plain) :
    (s.setTransfer h t).Honest where
  transfers h' := by
    rw [transfers_setTransfer]
    split_ifs
    · exact plain
    · exact honest.transfers h'
  rings := honest.rings

theorem Keeps.honest {H : Slot → Prop} {M : MultiSlot → Prop} (keeps : Keeps H M s s')
    (honest : s.Honest) : s'.Honest where
  transfers h := by
    rw [keeps.transfer h]
    exact ⟨(honest.transfers h).outcome, (honest.transfers h).answer⟩
  rings m msg hmsg := honest.rings m msg (keeps.ring m hmsg)

theorem Honest.answered_ (honest : s.Honest) (m : MultiSlot) : (s.answered m).1.Honest := by
  obtain ⟨taken, spec⟩ := answered_spec s m
  constructor
  · intro h
    rw [spec.transfers h]
    split_ifs
    · exact ⟨(honest.transfers h).outcome, (honest.transfers h).answer⟩
    · exact honest.transfers h
  · intro m' msg hmsg
    by_cases hm : m' = m
    · subst hm
      rw [spec.ring] at hmsg
      rcases List.mem_append.mp hmsg with hmsg | hmsg
      · exact honest.rings m' msg hmsg
      · obtain ⟨h, -, rfl⟩ := List.mem_map.mp hmsg
        exact (honest.transfers h).outcome
    · rw [spec.others m' hm] at hmsg
      exact honest.rings m' msg hmsg

theorem Honest.perform (honest : s.Honest) {work : List Work} {alive : ℕ} {ev : List Event}
    (hperform : s.perform m work alive = some (s', ev)) : s'.Honest := by
  obtain ⟨s₁, ev₁, hcurl, hcase⟩ := perform_cases hperform
  have hkeeps : Keeps (fun _ => False) (fun _ => False) s s₁ := curlPerform_keeps hcurl
  have hfirst := hkeeps.honest honest
  rcases hcase with ⟨-, rfl, -⟩ | ⟨-, rfl, -⟩
  · exact hfirst
  · exact hfirst.answered_ m

theorem Honest.read (honest : s.Honest) {msg : Option Message} {left : ℕ}
    (hread : s.read m = (msg, left, s')) : s'.Honest := by
  rcases read_cases s m hread with ⟨head, rest, hring, -, n, rfl, -, hrest, -⟩ |
    ⟨-, ⟨h, result, rest, -, rfl, -⟩ | ⟨-, -, rfl⟩⟩
  · refine ⟨honest.transfers, fun m' msg' hmsg => ?_⟩
    rw [multis_setMulti] at hmsg
    split_ifs at hmsg with hm
    · rw [hrest] at hmsg
      apply honest.rings m msg'
      rw [hring]
      exact List.mem_cons_of_mem _ hmsg
    · exact honest.rings m' msg' hmsg
  · refine ⟨honest.transfers, fun m' msg' hmsg => ?_⟩
    rw [multis_setMsglist] at hmsg
    split_ifs at hmsg with hm
    · exact honest.rings m msg' hmsg
    · exact honest.rings m' msg' hmsg
  · exact honest

theorem Honest.add (honest : s.Honest) {accepts : Bool} {code : MultiCode}
    (hadd : s.add m h accepts = (code, s')) : s'.Honest := by
  obtain ⟨_, rfl, hcase⟩ := add_cases s m h accepts hadd
  have hbegun := honest.setTransfer (h := h)
    ((honest.transfers h).begin s.installed accepts)
  generalize ((s.transfers h).begin s.installed accepts).2 = t at hcase hbegun
  rcases hcase with ⟨-, rfl⟩ | ⟨-, -, -, -, rfl⟩ | ⟨-, -, -, n, rfl, -, hmessages, -⟩
  · exact hbegun
  · have hkeeps : Keeps (fun _ => False) (fun _ => False) (s.setTransfer h t)
        ((s.setTransfer h t).setEasy h (some { multi := some m, alive := true })) :=
      setEasy_keeps _ _ fun _ => rfl
    exact hkeeps.honest hbegun
  · refine ⟨hbegun.transfers, fun m' msg hmsg => ?_⟩
    rw [multis_setMulti] at hmsg
    split_ifs at hmsg with hm
    · rw [hmessages] at hmsg
      exact honest.rings m msg hmsg
    · exact honest.rings m' msg hmsg

theorem Honest.setMulti (honest : s.Honest) {m : MultiSlot} {t : Multi}
    (ring : t.messages = (s.multis m).messages) : (s.setMulti m t).Honest := by
  refine ⟨honest.transfers, fun m' msg hmsg => honest.rings m' msg ?_⟩
  rw [multis_setMulti] at hmsg
  split_ifs at hmsg with hm
  · rw [hm, ← ring]
    exact hmsg
  · exact hmsg

theorem Honest.openTransfer (honest : s.Honest) (accepts : Bool) :
    (s.openTransfer accepts).2.Honest := by
  rcases openTransfer_cases s accepts with heq | ⟨h, -, heq | heq⟩
  · rw [heq]
    exact honest
  · rw [heq]
    exact (curlEasyCleanup_keeps (M := fun _ => False) s h).honest honest
  · have hclosed := (curlEasyCleanup_keeps (M := fun _ => False) s h).honest honest
    have hopened := hclosed.setTransfer (h := h) Transfer.Plain.opened
    rw [heq]
    exact ⟨hopened.transfers, hopened.rings⟩

theorem Honest.openMultiHandle (honest : s.Honest) (accepts : Bool) :
    (s.openMultiHandle accepts).2.Honest := by
  unfold Handles.openMultiHandle
  cases (List.finRange 8).find? fun m => !s.multiUsed m with
  | none => exact honest
  | some m =>
    have hclosed := (closeMulti_keeps (H := fun _ => False) s m).honest honest
    unfold Handles.openMulti
    cases accepts with
    | false => exact hclosed
    | true =>
      have hset := hclosed.setMulti (m := m)
        (t := { (s.closeMulti m).multis m with handle := some [], ours := true }) rfl
      exact ⟨hset.transfers, hset.rings⟩

end Handles

/-- Every call keeps the results of the answers, whatever becomes of them. -/
theorem Handles.Honest.step {s s' : Handles} {i : Entry} {ev : List Event} (honest : s.Honest)
    (hstep : XCurl.step s i = some (s', ev)) : s'.Honest := by
  cases i with
  | easyInit accepts =>
    have hopened := honest.openTransfer accepts
    simp only [XCurl.step] at hstep
    generalize s.openTransfer accepts = opened at hstep hopened
    obtain ⟨_ | h, s₁⟩ := opened <;> obtain ⟨rfl, -⟩ := Prod.mk.inj (Option.some.inj hstep) <;>
      exact hopened
  | easySetopt h o =>
    simp only [XCurl.step] at hstep
    split at hstep <;> obtain ⟨rfl, -⟩ := Prod.mk.inj (Option.some.inj hstep)
    · exact honest
    · exact honest.setTransfer ((honest.transfers _).set o)
  | easyCleanup h =>
    simp only [XCurl.step] at hstep
    split at hstep <;> obtain ⟨rfl, -⟩ := Prod.mk.inj (Option.some.inj hstep)
    · exact honest
    · next h _ =>
      have hclosed := honest.setTransfer (h := h) (t := { s.transfers h with ours := false })
        ⟨(honest.transfers h).outcome, (honest.transfers h).answer⟩
      exact ⟨hclosed.transfers, hclosed.rings⟩
  | multiInit accepts =>
    obtain ⟨rfl, -⟩ := Prod.mk.inj (Option.some.inj hstep)
    exact honest.openMultiHandle accepts
  | multiAddHandle m h accepts =>
    simp only [XCurl.step] at hstep
    split at hstep <;> obtain ⟨rfl, -⟩ := Prod.mk.inj (Option.some.inj hstep)
    · exact honest.add rfl
    · exact honest
  | multiRemoveHandle m h =>
    simp only [XCurl.step] at hstep
    split at hstep <;> obtain ⟨rfl, -⟩ := Prod.mk.inj (Option.some.inj hstep)
    · exact (Handles.remove_keeps (H := fun _ => False) (M := fun _ => False) s _ _).honest honest
    · exact honest
  | multiPerform m work alive =>
    simp only [XCurl.step] at hstep
    split at hstep
    · exact honest.perform hstep
    · obtain ⟨rfl, -⟩ := Prod.mk.inj (Option.some.inj hstep)
      exact honest
  | multiInfoRead m =>
    simp only [XCurl.step] at hstep
    split at hstep
    · next m _ =>
      generalize hread : s.read m = result at hstep
      obtain ⟨msg, left, s₁⟩ := result
      obtain ⟨rfl, -⟩ := Prod.mk.inj (Option.some.inj hstep)
      exact honest.read hread
    · obtain ⟨rfl, -⟩ := Prod.mk.inj (Option.some.inj hstep)
      exact honest
  | multiCleanup m =>
    simp only [XCurl.step] at hstep
    split at hstep <;> obtain ⟨rfl, -⟩ := Prod.mk.inj (Option.some.inj hstep)
    · next m _ =>
      have hclosed := (Handles.closeMulti_keeps (H := fun _ => False) s m).honest honest
      have hset := hclosed.setMulti (m := m) (t := { (s.closeMulti m).multis m with ours := false })
        rfl
      exact ⟨hset.transfers, hset.rings⟩
    · exact honest
  | servePlatformAt d =>
    obtain ⟨rfl, -⟩ := Prod.mk.inj (Option.some.inj hstep)
    exact ⟨honest.transfers, honest.rings⟩

namespace Handles

variable {s s' : Handles} {m : MultiSlot}

theorem curlPerform_delivers_none {work : List Work} {ev : List Event}
    (hcurl : s.curlPerform m work = some (s', ev)) (m' : MultiSlot) (h : Slot)
    (calls : List Call) : .delivered m' h calls ∉ ev := by
  refine curlPerform_induct (m := m) (P := fun _ ev _ => Event.delivered m' h calls ∉ ev) ?_ ?_
    hcurl
  · simp
  · intro s w s₁ ev ev' s' hwork ih hmem
    rcases List.mem_append.mp hmem with hmem | hmem
    · obtain ⟨h, -, ⟨-, rfl⟩ | ⟨rfl, -⟩⟩ := curlWork_cases hwork
      · cases List.mem_singleton.mp hmem
      · cases hmem
    · exact ih hmem

end Handles

section Run

/-- A transfer that the client answers itself, with a callback for the body, is added. -/
def addWriting : List Entry :=
  [.easyInit true, .multiInit true,
    .easySetopt (some 0)
      (.url (some "https://privacy.xboxlive.com/users/xuid(9)/permission/validate".toList)),
    .easySetopt (some 0) (.writefunction (some 7)), .multiAddHandle (some 0) (some 0) true]

def bodyCall : Call := ⟨7, "\x7b\"isAllowed\":true\x7d".toList, 0⟩

theorem addWriting_performed :
    (execute step start addWriting).map (fun last =>
        (((last.1.transfers 0).headerData, (last.1.transfers 0).responseCalls),
        (step last.1 (.multiPerform (some 0) [] 0)).map fun next =>
          (next.2, (next.1.multis 0).messages.contents))) =
      some ((0, [bodyCall]), some ([.delivered 0 0 [bodyCall], .queued 0 0, .performed 0 0 0],
        [⟨.transfer 0, 0⟩])) := by
  decide +kernel

theorem addWriting_reaches :
    ∃ (tr : List Event) (s s' : Handles), Reaches step always start tr s ∧
      step s (.multiPerform (some 0) [] 0) =
        some (s', [.delivered 0 0 [bodyCall], .queued 0 0, .performed 0 0 0]) ∧
      (s'.multis 0).messages.contents = [⟨.transfer 0, 0⟩] ∧
      (s.transfers 0).responseCalls = [bodyCall] ∧ (s.transfers 0).headerData = 0 := by
  obtain ⟨⟨s, tr⟩, hrun, hlast⟩ := Option.map_eq_some_iff.mp addWriting_performed
  obtain ⟨hfirst, hperformed⟩ := Prod.mk.inj hlast
  obtain ⟨hdata, hcalls⟩ := Prod.mk.inj hfirst
  obtain ⟨⟨s', ev⟩, hstep, hnext⟩ := Option.map_eq_some_iff.mp hperformed
  obtain ⟨rfl, hring⟩ := Prod.mk.inj hnext
  exact ⟨tr, s, s', reaches_of_run hrun, hstep, hring, hcalls, hdata⟩

end Run

end IW4x.XCurl
