import IW4x.Gdk.SaveHandles

/-!
# Updates whose submission fails

The blobs of an update are moved into the operation before `begin` is called, and nothing moves them
back where `begin` raises: the update keeps its names and count and loses the bytes. So a submission
that fails leaves an update alone only where there were no bytes to lose, or it failed earlier.
-/

namespace IW4x.Gdk

open Unicode Runs

variable (skip : Bytes → ℕ)

/-! ## Which submissions keep the blobs -/

/-- A submission of an update that fails leaves the update as it was; one that does not fail hands
over the blobs that the caller has queued. -/
def KeepsBlobs (s : SaveHandles) : SaveCall → Prop
  | .submitUpdateAsync u b m e alloc => ∀ i, s.updates.lookup u = some i → ∀ t hr,
      s.submitUpdateAsync u b m e alloc = some (t, hr) →
        if failed hr then t.updates.items i = s.updates.items i
        else ∃ o, t.submitted = s.submitted ++ [o] ∧ o.writes = (s.updates.items i).queued
  | _ => True

/-- A submission that comes to `begin` does so with a block, a free slot and a port that takes the
operation, so that `begin` does not raise; or the blobs are all empty. -/
def Spared (s : SaveHandles) : SaveCall → Prop
  | .submitUpdateAsync u b m e alloc => ∀ i c, s.updates.lookup u = some i →
      (s.updates.items i).target = some c → alloc = true →
        (∀ hr, begun (m.begin e b submitId (.submit (s.operation i c))) = some hr → hr = S_OK) ∨
          ∀ w ∈ (s.updates.items i).writes, w.data = []
  | _ => True

theorem raised {o : Option HResult} {hr : HResult} (h : o = some hr) (fails : failed hr = true) :
    ¬ ∀ hr, o = some hr → hr = S_OK := by
  intro hok
  rw [hok hr h] at fails
  cases fails

theorem map_moved_eq_iff (ws : List PendingWrite) :
    ws.map PendingWrite.moved = ws ↔ ∀ w ∈ ws, w.data = [] := by
  induction ws with
  | nil => simp
  | cons w ws ih =>
    rw [List.map_cons, List.cons_eq_cons, ih, List.forall_mem_cons]
    refine and_congr_left' ⟨fun h => ?_, fun h => ?_⟩
    · rw [← h]
      rfl
    · cases w
      cases h
      rfl

/-- Every update has the blobs that the caller has queued. -/
def Unharmed (s : SaveHandles) : Prop :=
  ∀ i, (s.updates.items i).writes = (s.updates.items i).queued

theorem Unharmed.start (root : Path) (files : FileSystem) : Unharmed (.start root files) :=
  fun _ => rfl

theorem Unharmed.update {items : Fin maxUpdates → SaveUpdate}
    (unharmed : ∀ i, (items i).writes = (items i).queued) (i : Fin maxUpdates) {t : SaveUpdate}
    (h : t.writes = t.queued) :
    ∀ j, (Function.update items i t j).writes = (Function.update items i t j).queued := by
  intro j
  by_cases hj : j = i
  · rw [hj, Function.update_self, h]
  · rw [Function.update_of_ne hj, unharmed j]

/-- A step whose submission is spared keeps what was queued. -/
theorem Unharmed.step {s t : SaveHandles} {c : SaveCall} {ev : List SaveEvent}
    (unharmed : Unharmed s) (spared : Spared s c) (h : s.step skip c = some (t, ev)) :
    Unharmed t := by
  cases c with
  | setRoot root =>
    obtain ⟨rfl, -⟩ := Prod.mk.inj (Option.some.inj h)
    exact unharmed
  | createContainer provider n denied out =>
    obtain ⟨rfl, -⟩ := Prod.mk.inj (Option.some.inj h)
    rcases s.createContainer_cases skip provider n denied out with heq | ⟨l, heq | ⟨c, p, -, heq⟩⟩ <;>
      (rw [heq]; exact unharmed)
  | closeContainer c =>
    obtain ⟨rfl, -⟩ := Prod.mk.inj (Option.some.inj h)
    exact unharmed
  | createUpdate c out =>
    obtain ⟨rfl, -⟩ := Prod.mk.inj (Option.some.inj h)
    rcases s.createUpdate_cases c out with heq | ⟨i, u, p, -, hopen, heq⟩
    · rw [heq]
      exact unharmed
    · obtain ⟨-, rfl⟩ := HandlePool.openItem_eq_some hopen
      rw [heq]
      exact Unharmed.update (Unharmed.update unharmed u rfl) u rfl
  | closeUpdate u =>
    obtain ⟨rfl, -⟩ := Prod.mk.inj (Option.some.inj h)
    rcases s.updates.closeItem_cases .zero u with ⟨-, heq⟩ | ⟨i, -, heq⟩
    · simpa only [SaveHandles.closeUpdate, heq] using unharmed
    · simp only [SaveHandles.closeUpdate, heq]
      exact Unharmed.update unharmed i rfl
  | submitBlobWrite u n data alloc =>
    obtain ⟨rfl, -⟩ := Prod.mk.inj (Option.some.inj h)
    rcases s.submitBlobWrite_cases u n data alloc with heq | ⟨i, w, heq⟩
    · rw [heq]
      exact unharmed
    · rw [heq]
      exact Unharmed.update unharmed i (by rw [unharmed i])
  | submitUpdateAsync u b m e alloc =>
    obtain ⟨⟨t', hr⟩, hcall, heq⟩ := Option.map_eq_some_iff.mp h
    obtain ⟨rfl, -⟩ := Prod.mk.inj heq
    cases submitUpdateAsync_cases hcall with
    | unknown _ => exact unharmed
    | early => exact unharmed
    | refused hlookup htarget hroom hraises hfails =>
      have hempty := (spared _ _ hlookup htarget hroom).resolve_left (raised hraises hfails)
      refine Unharmed.update unharmed _ ?_
      rw [(map_moved_eq_iff _).mpr hempty]
      exact unharmed _
    | submitted _ _ _ _ => exact Unharmed.update unharmed _ rfl
  | perform k e =>
    obtain ⟨r, hcall, heq⟩ := Option.map_eq_some_iff.mp h
    obtain ⟨rfl, -⟩ := Prod.mk.inj heq
    unfold SaveHandles.perform at hcall
    split at hcall
    · cases hcall
    · obtain rfl := Option.some.inj hcall
      exact unharmed
  | cancel k =>
    obtain ⟨rfl, -⟩ := Prod.mk.inj (Option.some.inj h)
    exact unharmed

theorem spared_of_keeps {s : SaveHandles} {c : SaveCall} (keeps : KeepsBlobs s c) : Spared s c := by
  cases c with
  | submitUpdateAsync u b m e alloc =>
    intro i c hi hc halloc
    by_contra hnot
    obtain ⟨hraised, hdata⟩ := not_or.mp hnot
    obtain ⟨hr, hbegun, hne⟩ := by simpa using hraised
    have hcall : s.submitUpdateAsync u b m e alloc = some ({ s with
        updates := s.updates.set i { s.updates.items i with
          writes := (s.updates.items i).writes.map PendingWrite.moved } }, hr) := by
      simp [SaveHandles.submitUpdateAsync, hi, hc, halloc, hbegun, hne]
    have hkept := keeps i hi _ hr hcall
    rw [if_pos ((failed_of_begun hbegun).resolve_left hne), HandlePool.set_items_self] at hkept
    exact hdata ((map_moved_eq_iff _).mp (congrArg SaveUpdate.writes hkept))
  | _ => trivial

theorem keeps_of_spared {s : SaveHandles} {c : SaveCall} (unharmed : Unharmed s)
    (spared : Spared s c) : KeepsBlobs s c := by
  cases c with
  | submitUpdateAsync u b m e alloc =>
    intro i hi t hr hcall
    cases submitUpdateAsync_cases hcall with
    | unknown hlookup =>
      rw [hi] at hlookup
      cases hlookup
    | early _ _ hfails => rw [if_pos hfails]
    | refused hlookup htarget hroom hraises hfails =>
      obtain rfl := Option.some.inj (hi.symm.trans hlookup)
      have hempty := (spared _ _ hlookup htarget hroom).resolve_left (raised hraises hfails)
      rw [if_pos hfails, HandlePool.set_items_self, (map_moved_eq_iff _).mpr hempty]
    | submitted hlookup _ _ _ =>
      obtain rfl := Option.some.inj (hi.symm.trans hlookup)
      rw [if_neg (by decide)]
      exact ⟨_, rfl, unharmed _⟩
  | _ => trivial

/-- In every run the submissions keep the blobs that the callers have queued, if and only if each that
fails is spared. -/
theorem submissions_keep_blobs (root : Path) (files : FileSystem) (calls : List SaveCall) :
    Along (SaveHandles.step skip) KeepsBlobs (.start root files) calls ↔
      Along (SaveHandles.step skip) Spared (.start root files) calls := by
  refine ⟨Along.imp fun _ _ => spared_of_keeps, ?_⟩
  have hunharmed := Unharmed.start root files
  generalize SaveHandles.start root files = s at hunharmed ⊢
  induction calls generalizing s with
  | nil => exact fun _ => trivial
  | cons c calls ih =>
    rintro ⟨spared, rest⟩
    refine ⟨keeps_of_spared hunharmed spared, fun t ev h => ?_⟩
    exact ih t (hunharmed.step skip spared h) (rest t ev h)

/-- A blob is queued in an update. -/
def queueOne : List SaveCall :=
  [.createContainer true (utf8 "profile".toList) none true, .createUpdate (some 0) true,
    .submitBlobWrite (some 0) (utf8 "one".toList) (some [1]) true]

def submitWithoutBlock : SaveCall :=
  .submitUpdateAsync (some 0) none (.start .empty) {} true

theorem queueOne_trace :
    (execute (SaveHandles.step fun _ => 1) (.start saves (bare saves)) queueOne).map (fun last =>
      (last.1.updates.lookup (some 0), (last.1.updates.items 0).writes.map PendingWrite.data,
        (last.1.submitUpdateAsync (some 0) none (.start .empty) {} true).map fun r =>
          (r.2, (r.1.updates.items 0).writes.map PendingWrite.data))) =
      some (some 0, [[1]], some (E_POINTER, [[]])) := by
  decide +kernel

/-- The submission fails, and the update has lost the bytes of its blob. -/
theorem submission_loses_blob :
    ¬ ∀ (skip : Bytes → ℕ) (root : Path) (files : FileSystem) (calls : List SaveCall),
      Along (SaveHandles.step skip) KeepsBlobs (.start root files) calls := by
  intro claim
  obtain ⟨⟨s, tr⟩, hrun, htrace⟩ := Option.map_eq_some_iff.mp queueOne_trace
  obtain ⟨hlookup, htrace⟩ := Prod.mk.inj htrace
  obtain ⟨hbefore, hcall⟩ := Prod.mk.inj htrace
  obtain ⟨⟨t, hr⟩, hcall, hafter⟩ := Option.map_eq_some_iff.mp hcall
  obtain ⟨rfl, hafter⟩ := Prod.mk.inj hafter
  have hkept := (claim (fun _ => 1) saves (bare saves) (queueOne ++ [submitWithoutBlock])).last hrun 0
    hlookup t _ hcall
  rw [if_pos (by decide)] at hkept
  rw [hkept, hbefore] at hafter
  cases hafter

end IW4x.Gdk
