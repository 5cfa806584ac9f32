import IW4x.XCurl.Multi

/-!
# Reading the messages of a multi handle

A multi handle has messages of its own and those that libcurl has for it. `read` takes its own
first, and counts on each way out only those of the one or of the other.
-/

namespace IW4x.XCurl

open Runs

namespace Handles

def queued (s : Handles) (m : MultiSlot) : ℕ := (s.multis m).messages.count

def pending (s : Handles) (m : MultiSlot) : ℕ := ((s.multis m).handle.getD []).length

/-- So many successive reads return a message, and the next one does not. -/
def Further (m : MultiSlot) : ℕ → Handles → Prop
  | 0, s => (s.read m).1 = none
  | k + 1, s => (s.read m).1.isSome = true ∧ Further m k (s.read m).2.2

/-- A read that returns a message says how many further ones there are. -/
def CountsLeft (s : Handles) (m : MultiSlot) : Prop :=
  ∀ msg, (s.read m).1 = some msg → Further m (s.read m).2.1 (s.read m).2.2

/-- A caller reads and, as long as `*left` is not zero, reads again. -/
inductive ReadsWhileLeft (m : MultiSlot) : Handles → Handles → Prop
  | stop {s : Handles} : (s.read m).2.1 = 0 → ReadsWhileLeft m s (s.read m).2.2
  | again {s s' : Handles} : (s.read m).2.1 ≠ 0 → ReadsWhileLeft m (s.read m).2.2 s' →
      ReadsWhileLeft m s s'

/-- No finished transfer is left unread. -/
def NoneUnread (s : Handles) (m : MultiSlot) : Prop :=
  ∀ s', ReadsWhileLeft m s s' → (s'.read m).1 = none

/-! ## One read -/

variable {s : Handles} {m : MultiSlot}

@[simp] theorem multis_setMulti_self (n : Multi) : (s.setMulti m n).multis m = n := by
  simp [setMulti]

theorem read_queued (h : s.queued m ≠ 0) :
    (s.read m).1.isSome = true ∧ (s.read m).2.1 = s.queued m - 1 ∧
      (s.read m).2.2.queued m = s.queued m - 1 ∧ (s.read m).2.2.pending m = s.pending m := by
  have hread : s.read m = (some ((s.multis m).messages.get 0), (s.multis m).messages.pop.count,
      s.setMulti m { s.multis m with messages := (s.multis m).messages.pop }) := if_pos h
  rw [hread]
  simp [queued, pending]

theorem read_pending (h : s.queued m = 0) (hp : s.pending m ≠ 0) :
    (s.read m).1.isSome = true ∧ (s.read m).2.1 = s.pending m - 1 ∧
      (s.read m).2.2.queued m = 0 ∧ (s.read m).2.2.pending m = s.pending m - 1 := by
  obtain ⟨msg, rest, hhandle⟩ : ∃ msg rest, (s.multis m).handle = some (msg :: rest) := by
    cases hhandle : (s.multis m).handle with
    | none => simp [pending, hhandle] at hp
    | some l =>
      cases l with
      | nil => simp [pending, hhandle] at hp
      | cons msg rest => exact ⟨msg, rest, rfl⟩
  have hinfo : s.curlInfoRead m = (some (msg, rest.length), s.setMsglist m rest) := by
    rw [curlInfoRead, hhandle]
  have hown : (s.multis m).messages.count = 0 := h
  rw [read, if_neg (not_not.mpr hown), hinfo]
  simp [queued, pending, hhandle, hown, setMsglist]

theorem read_none (h : s.queued m = 0) (hp : s.pending m = 0) : s.read m = (none, 0, s) := by
  have hinfo : s.curlInfoRead m = (none, s) := by
    cases hhandle : (s.multis m).handle with
    | none => rw [curlInfoRead, hhandle]
    | some l =>
      cases l with
      | nil => rw [curlInfoRead, hhandle]
      | cons msg rest => simp [pending, hhandle] at hp
  have hown : (s.multis m).messages.count = 0 := h
  rw [read, if_neg (not_not.mpr hown), hinfo]

/-! ## Successive reads -/

/-- Both kinds of message are read, one after the other. -/
theorem further_iff {k : ℕ} : Further m k s ↔ k = s.queued m + s.pending m := by
  induction k generalizing s with
  | zero =>
    by_cases hq : s.queued m = 0
    · by_cases hp : s.pending m = 0
      · simp [Further, read_none hq hp, hq, hp]
      · have hsome := (read_pending hq hp).1
        rw [Further, ← Option.not_isSome_iff_eq_none, hsome]
        simp only [not_true_eq_false, false_iff]
        omega
    · have hsome := (read_queued hq).1
      rw [Further, ← Option.not_isSome_iff_eq_none, hsome]
      simp only [not_true_eq_false, false_iff]
      omega
  | succ k ih =>
    rw [Further, ih]
    by_cases hq : s.queued m = 0
    · by_cases hp : s.pending m = 0
      · simp [read_none hq hp, hq, hp]
      · obtain ⟨hsome, -, hqueued, hpending⟩ := read_pending hq hp
        rw [hsome, hqueued, hpending, hq]
        simp only [true_and]
        omega
    · obtain ⟨hsome, -, hqueued, hpending⟩ := read_queued hq
      rw [hsome, hqueued, hpending]
      simp only [true_and]
      omega

theorem countsLeft_iff : CountsLeft s m ↔ s.queued m = 0 ∨ s.pending m = 0 := by
  rw [CountsLeft]
  simp only [further_iff]
  by_cases hq : s.queued m = 0
  · by_cases hp : s.pending m = 0
    · simp [read_none hq hp, hq]
    · obtain ⟨-, hleft, hqueued, hpending⟩ := read_pending hq hp
      simp [hleft, hqueued, hpending, hq]
  · obtain ⟨hsome, hleft, hqueued, hpending⟩ := read_queued hq
    obtain ⟨msg, hmsg⟩ := Option.isSome_iff_exists.mp hsome
    simp [hmsg, hleft, hqueued, hpending, hq]

/-- Then the caller's loop ends when both are empty. -/
theorem ReadsWhileLeft.empty {s' : Handles} (h : ReadsWhileLeft m s s')
    (hone : s.queued m = 0 ∨ s.pending m = 0) : s'.queued m = 0 ∧ s'.pending m = 0 := by
  induction h with
  | @stop s hleft =>
    by_cases hq : s.queued m = 0
    · by_cases hp : s.pending m = 0
      · rw [read_none hq hp]
        exact ⟨hq, hp⟩
      · obtain ⟨-, hcount, hqueued, hpending⟩ := read_pending hq hp
        omega
    · obtain ⟨-, hcount, hqueued, hpending⟩ := read_queued hq
      omega
  | @again s s' hleft _ ih =>
    apply ih
    by_cases hq : s.queued m = 0
    · by_cases hp : s.pending m = 0
      · rw [read_none hq hp] at hleft
        exact absurd rfl hleft
      · exact .inl (read_pending hq hp).2.2.1
    · right
      rw [(read_queued hq).2.2.2]
      exact hone.resolve_left hq

/-- `*left` counts all further messages, and a caller that reads while it is not zero reads them
all, if and only if the multi handle has no messages of its own or libcurl has none for it. -/
theorem read_left_iff (s : Handles) (m : MultiSlot) :
    CountsLeft s m ∧ NoneUnread s m ↔ s.queued m = 0 ∨ s.pending m = 0 := by
  rw [countsLeft_iff]
  constructor
  · exact fun h => h.1
  · intro hone
    refine ⟨hone, fun s' h => ?_⟩
    obtain ⟨hq, hp⟩ := h.empty hone
    rw [read_none hq hp]

/-- A transfer that this client answers and one of libcurl's are performed together. -/
def bothFinish : List Entry :=
  [.easyInit true, .easyInit true, .multiInit true,
    .easySetopt (some 0)
      (.url (some "https://privacy.xboxlive.com/users/xuid(9)/permission/validate".toList)),
    .multiAddHandle (some 0) (some 0) true, .multiAddHandle (some 0) (some 1) true,
    .multiPerform (some 0) [.finish 1 0] 0]

theorem bothFinish_read :
    (execute step start bothFinish).map (fun last =>
        ((last.1.read 0).1, (last.1.read 0).2.1, ((last.1.read 0).2.2.read 0).1)) =
      some (some ⟨.transfer 0, 0⟩, 0, some ⟨.transfer 1, 0⟩) := by
  decide +kernel

theorem read_left_fails : ¬ ∀ (s : Handles) (m : MultiSlot), CountsLeft s m ∧ NoneUnread s m := by
  intro claim
  obtain ⟨⟨s, tr⟩, -, hread⟩ := Option.map_eq_some_iff.mp bothFinish_read
  simp only [Prod.mk.injEq] at hread
  obtain ⟨-, hleft, hnext⟩ := hread
  have hnone := (claim s 0).2 _ (.stop hleft)
  rw [hnext] at hnone
  cases hnone

end Handles

end IW4x.XCurl
