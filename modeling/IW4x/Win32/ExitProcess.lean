import IW4x.Lib.Runs

/-!
# Process exit

The first thread that calls `exit_process` runs the CRT detach on another thread, waits for it and
goes on to the original `ExitProcess`; any other thread waits until the detach is done. Each access to
the shared state is one step of a thread, and so is each call of the system.
-/

namespace IW4x.Win32

open Runs

abbrev ThreadId := ℕ

/-- `UINT`. -/
abbrev ExitCode := UInt32

def deadline : ℕ := 5000

/-- What a thread does next, in `exit_process` or `cleanup`. -/
inductive Frame where
  /-- Neither is running. -/
  | outside
  /-- `owner.load`. -/
  | entered (c : ExitCode)
  /-- `owner.compare_exchange_strong`. -/
  | claiming (c : ExitCode)
  /-- `code.store`. -/
  | won (c : ExitCode)
  /-- `CreateThread`. -/
  | creating (c : ExitCode)
  /-- `WaitForSingleObject` for the thread with this handle. -/
  | waiting (c : ExitCode) (h : ℕ)
  /-- `CloseHandle`, after a wait that answered `WAIT_OBJECT_0` or not. -/
  | waited (c : ExitCode) (signaled : Bool)
  /-- The condition of the loop that polls. -/
  | polling (i : ℕ)
  /-- `complete.load` after the loop. -/
  | checking
  /-- `code.load` for `TerminateProcess`. -/
  | givingUp
  /-- `TerminateProcess`. -/
  | terminating (c : ExitCode)
  /-- `code.load` for `transfer`. -/
  | leaving
  /-- The call of the original. -/
  | transferring (c : ExitCode)
  /-- The original is running. -/
  | original (c : ExitCode)
  /-- `cleanup`, of the thread with this handle: the call of `_CRT_INIT`. -/
  | cleanup (h : ℕ)
  /-- `_CRT_INIT` is running. -/
  | destructing (h : ℕ)
  /-- `complete.store`. -/
  | destructed (h : ℕ)
  /-- `cleanup` returns. -/
  | published (h : ℕ)
  deriving DecidableEq

structure Process where
  owner : ThreadId
  code : ExitCode
  complete : Bool
  frames : ThreadId → Frame
  /-- How many threads `exit_process` created, and the handles of those that returned. -/
  created : ℕ
  returned : List ℕ
  terminated : Bool

inductive Act where
  /-- A thread calls `exit_process`. -/
  | call (i : ThreadId) (c : ExitCode)
  /-- A thread goes on. -/
  | run (i : ThreadId)
  /-- `CreateThread` answers, with a thread or with null. -/
  | create (i : ThreadId) (k : Option ThreadId)
  /-- `WaitForSingleObject` answers, with `WAIT_OBJECT_0` or not. -/
  | wait (i : ThreadId) (signaled : Bool)
  /-- The original returns. -/
  | back (i : ThreadId)
  deriving DecidableEq

inductive ExitEvent where
  | called (i : ThreadId) (c : ExitCode)
  /-- The compare-exchange succeeded, of a call with this code. -/
  | won (i : ThreadId) (c : ExitCode)
  /-- The CRT detach was started, and returned. -/
  | detaching
  | detached
  /-- The original was called. -/
  | original (i : ThreadId) (c : ExitCode)
  | terminated (c : ExitCode)
  deriving DecidableEq

namespace Process

def start : Process where
  owner := 0
  code := 0
  complete := false
  frames := fun _ => .outside
  created := 0
  returned := []
  terminated := false

def put (s : Process) (i : ThreadId) (f : Frame) : Process :=
  { s with frames := Function.update s.frames i f }

/-- A thread goes on, where nothing outside of the process decides how. -/
def run (s : Process) (i : ThreadId) : Frame → Option (Process × List ExitEvent)
  | .entered c => some (s.put i (if s.owner = i then .leaving else .claiming c), [])
  | .claiming c =>
    if s.owner = 0 then some ({ s with owner := i }.put i (.won c), [.won i c])
    else some (s.put i (.polling 0), [])
  | .won c => some ({ s with code := c }.put i (.creating c), [])
  | .waited c signaled => some (s.put i (if signaled then .leaving else .terminating c), [])
  | .polling n =>
    some (s.put i (if n < deadline ∧ s.complete = false then .polling (n + 10) else .checking), [])
  | .checking => some (s.put i (if s.complete then .leaving else .givingUp), [])
  | .givingUp => some (s.put i (.terminating s.code), [])
  | .terminating c => some ({ s with terminated := true }, [.terminated c])
  | .leaving => some (s.put i (.transferring s.code), [])
  | .transferring c => some (s.put i (.original c), [.original i c])
  | .cleanup h => some (s.put i (.destructing h), [.detaching])
  | .destructing h => some (s.put i (.destructed h), [.detached])
  | .destructed h => some ({ s with complete := true }.put i (.published h), [])
  | .published h => some ({ s with returned := h :: s.returned }.put i .outside, [])
  | .outside | .creating _ | .waiting _ _ | .original _ => none

/-- A thread may call `exit_process`: outside of it, from within the original, or as the cleanup
thread from a destructor. -/
def mayCall : Frame → Bool
  | .outside | .original _ | .destructing _ => true
  | _ => false

/-- A step of a process that was not terminated. A call of `exit_process` does not return, so what
was running on the thread is not remembered. -/
def step : Step Process Act ExitEvent := fun s a =>
  if s.terminated then none
  else match a with
    | .call i c =>
      if i ≠ 0 ∧ mayCall (s.frames i) then some (s.put i (.entered c), [.called i c]) else none
    | .run i => s.run i (s.frames i)
    | .create i k =>
      match s.frames i, k with
      | .creating c, none => some (s.put i (.terminating c), [])
      | .creating c, some k =>
        if k ≠ 0 ∧ s.frames k = .outside then
          some (({ s with created := s.created + 1 }.put i (.waiting c s.created)).put k
            (.cleanup s.created), [])
        else none
      | _, _ => none
    | .wait i signaled =>
      match s.frames i with
      | .waiting c h =>
        if signaled = true → h ∈ s.returned then some (s.put i (.waited c signaled), []) else none
      | _ => none
    | .back i =>
      match s.frames i with
      | .original c => some (s.put i (.terminating c), [])
      | _ => none

/-! ## What holds along every run -/

/-- The calls that won the compare-exchange, with their codes. -/
def wins (tr : List ExitEvent) : List (ThreadId × ExitCode) :=
  tr.filterMap fun
    | .won i c => some (i, c)
    | _ => none

@[simp] theorem wins_append (tr ev : List ExitEvent) : wins (tr ++ ev) = wins tr ++ wins ev :=
  List.filterMap_append

/-- What is known where a thread is. The owner is in `exit_process`, and re-enters it only after the
detach. -/
def Fits (tr : List ExitEvent) (s : Process) (i : ThreadId) : Frame → Prop
  | .outside => i ≠ 0 → s.owner ≠ i
  | .entered c => .called i c ∈ tr ∧ i ≠ 0 ∧ (s.owner = i → .detached ∈ tr)
  | .claiming c => .called i c ∈ tr ∧ i ≠ 0
  | .won c => wins tr = [(i, c)] ∧ s.created = 0
  | .creating c => wins tr = [(i, c)] ∧ s.code = c ∧ s.created = 0
  | .waiting _ _ | .polling _ | .checking | .givingUp | .terminating _ => True
  | .waited _ signaled => signaled = true → .detached ∈ tr
  | .leaving => .detached ∈ tr
  | .transferring c => .detached ∈ tr ∧ wins tr = [(s.owner, c)]
  | .original _ => .detached ∈ tr
  | .cleanup _ => s.owner ≠ i ∧ .detaching ∉ tr ∧ ∀ k h, s.frames k = .cleanup h → k = i
  | .destructing _ => s.owner ≠ i ∧ .detaching ∈ tr
  | .destructed _ | .published _ => s.owner ≠ i ∧ .detached ∈ tr

/-- What holds in every state. -/
structure Sound (tr : List ExitEvent) (s : Process) : Prop where
  fits : ∀ i, Fits tr s i (s.frames i)
  /-- Nobody has won, or the owner has, with the code of a call. -/
  winner : s.owner = 0 ∧ wins tr = [] ∨
    s.owner ≠ 0 ∧ ∃ c, wins tr = [(s.owner, c)] ∧ .called s.owner c ∈ tr
  /-- The detach is the work of a thread that was created, once the code was stored. -/
  settled : s.created ≠ 0 → wins tr = [(s.owner, s.code)]
  fresh : s.created = 0 → .detaching ∉ tr ∧ .detached ∉ tr ∧ ∀ i h, s.frames i ≠ .cleanup h
  once : tr.count .detaching ≤ 1
  complete : s.complete = true → .detached ∈ tr
  returned : ∀ h ∈ s.returned, .detached ∈ tr

/-- What is known of a frame stays known, where the step of another thread leaves what it is about. -/
theorem Fits.mono {tr e : List ExitEvent} {s t : Process} {i : ThreadId} {f : Frame}
    (h : Fits tr s i f) (owner : t.owner = i → s.owner = i)
    (wins : ∀ x, wins tr = [x] → wins (tr ++ e) = [x] ∧ t.owner = s.owner)
    (code : ∀ c, f = .creating c → t.code = s.code)
    (created : ∀ c, f = .won c ∨ f = .creating c → t.created = s.created)
    (cleanup : ∀ h, f = .cleanup h → .detaching ∉ e ∧
      ∀ k h, t.frames k = .cleanup h → s.frames k = .cleanup h) :
    Fits (tr ++ e) t i f := by
  cases f with
  | waiting | polling | checking | givingUp | terminating => trivial
  | outside => exact fun hi ht => h hi (owner ht)
  | entered c =>
    exact ⟨List.mem_append_left _ h.1, h.2.1, fun ht => List.mem_append_left _ (h.2.2 (owner ht))⟩
  | claiming c => exact ⟨List.mem_append_left _ h.1, h.2⟩
  | won c => exact ⟨(wins _ h.1).1, (created c (.inl rfl)).trans h.2⟩
  | creating c =>
    exact ⟨(wins _ h.1).1, (code c rfl).trans h.2.1, (created c (.inr rfl)).trans h.2.2⟩
  | waited c signaled => exact fun hs => List.mem_append_left _ (h hs)
  | leaving => exact List.mem_append_left _ h
  | original => exact List.mem_append_left _ h
  | transferring c =>
    obtain ⟨hwins, howner⟩ := wins _ h.2
    exact ⟨List.mem_append_left _ h.1, howner.symm ▸ hwins⟩
  | cleanup handle =>
    obtain ⟨hev, hframes⟩ := cleanup handle rfl
    refine ⟨fun ht => h.1 (owner ht), ?_, fun k h' hk => h.2.2 k h' (hframes k h' hk)⟩
    rw [List.mem_append, not_or]
    exact ⟨h.2.1, hev⟩
  | destructing | destructed | published =>
    exact ⟨fun ht => h.1 (owner ht), List.mem_append_left _ h.2⟩

theorem frames_put (s : Process) (i j : ThreadId) (f : Frame) :
    (s.put i f).frames j = if j = i then f else s.frames j := by
  simp [put, Function.update_apply]

theorem Sound.start : Sound [] start where
  fits := fun i hi hzero => hi hzero.symm
  winner := .inl ⟨rfl, rfl⟩
  settled := fun h => absurd rfl h
  fresh := fun _ => ⟨by simp, by simp, fun _ _ h => by cases h⟩
  once := by simp
  complete := fun h => by cases h
  returned := fun _ h => by cases h

theorem Sound.owner_of_wins {tr : List ExitEvent} {s : Process} {x : ThreadId × ExitCode}
    (sound : Sound tr s) (h : wins tr = [x]) : s.owner = x.1 ∧ s.owner ≠ 0 ∧ .called x.1 x.2 ∈ tr := by
  rcases sound.winner with ⟨-, hnone⟩ | ⟨hne, c, hwins, hcalled⟩
  · rw [h] at hnone
    cases hnone
  · rw [h] at hwins
    obtain rfl := (List.cons.inj hwins).1
    exact ⟨rfl, hne, hcalled⟩

theorem Sound.settled_of_detached {tr : List ExitEvent} {s : Process} (sound : Sound tr s)
    (h : .detached ∈ tr) : s.created ≠ 0 ∧ wins tr = [(s.owner, s.code)] := by
  have hcreated : s.created ≠ 0 := fun h0 => (sound.fresh h0).2.1 h
  exact ⟨hcreated, sound.settled hcreated⟩

/-- A thread goes to another frame, and the step says no more than that. -/
theorem Sound.put {tr e : List ExitEvent} {s : Process} {i : ThreadId} {f : Frame}
    (sound : Sound tr s) (fits : Fits (tr ++ e) (s.put i f) i f) (other : ∀ h, f ≠ .cleanup h)
    (wins : wins e = []) (detaching : .detaching ∉ e) (detached : .detached ∈ e → s.created ≠ 0) :
    Sound (tr ++ e) (s.put i f) where
  fits := by
    intro j
    rw [frames_put]
    split_ifs with hj
    · exact hj ▸ fits
    · refine (sound.fits j).mono id (fun x hx => ⟨by rw [wins_append, wins, hx]; rfl, rfl⟩)
        (fun _ _ => rfl) (fun _ _ => rfl) fun h _ => ⟨detaching, fun k h' hk => ?_⟩
      rw [frames_put] at hk
      split_ifs at hk
      · exact absurd hk (other h')
      · exact hk
  winner := by
    rw [wins_append, wins, List.append_nil]
    rcases sound.winner with h | ⟨hne, c, hwins, hcalled⟩
    · exact .inl h
    · exact .inr ⟨hne, c, hwins, List.mem_append_left _ hcalled⟩
  settled := by
    rw [wins_append, wins, List.append_nil]
    exact sound.settled
  fresh := by
    intro h0
    obtain ⟨hstart, hend, hframes⟩ := sound.fresh h0
    simp only [List.mem_append, not_or]
    refine ⟨⟨hstart, detaching⟩, ⟨hend, fun h => detached h h0⟩, fun j h hj => ?_⟩
    rw [frames_put] at hj
    split_ifs at hj
    · exact other h hj
    · exact hframes j h hj
  once := by
    rw [List.count_append, List.count_eq_zero.mpr detaching]
    exact sound.once
  complete := fun h => List.mem_append_left _ (sound.complete h)
  returned := fun h hh => List.mem_append_left _ (sound.returned h hh)

theorem Sound.silent {tr : List ExitEvent} {s : Process} {i : ThreadId} {f : Frame}
    (sound : Sound tr s) (fits : Fits tr (s.put i f) i f) (other : ∀ h, f ≠ .cleanup h) :
    Sound (tr ++ []) (s.put i f) := by
  refine sound.put ?_ other rfl (by simp) (by simp)
  rw [List.append_nil]
  exact fits

/-- The thread that wins the compare-exchange becomes the owner. -/
theorem Sound.win {tr : List ExitEvent} {s : Process} {i : ThreadId} {c : ExitCode}
    (sound : Sound tr s) (free : s.owner = 0) (called : .called i c ∈ tr) (hi : i ≠ 0) :
    Sound (tr ++ [.won i c]) ({ s with owner := i }.put i (.won c)) := by
  have hnone : wins tr = [] := by
    rcases sound.winner with ⟨-, h⟩ | ⟨hne, -⟩
    · exact h
    · exact absurd free hne
  have hwins : wins (tr ++ [.won i c]) = [(i, c)] := by
    rw [wins_append, hnone]
    rfl
  have hcreated : s.created = 0 := by
    by_contra h
    have := sound.settled h
    rw [hnone] at this
    cases this
  obtain ⟨hstart, hend, hframes⟩ := sound.fresh hcreated
  constructor
  · intro j
    rw [frames_put]
    split_ifs with hj
    · subst hj
      exact ⟨hwins, hcreated⟩
    · refine (sound.fits j).mono (fun h => absurd h.symm hj) (fun x hx => ?_) (fun _ _ => rfl)
        (fun _ _ => rfl) fun h hh => absurd hh (hframes j h)
      rw [hnone] at hx
      cases hx
  · exact .inr ⟨hi, c, hwins, List.mem_append_left _ called⟩
  · exact fun h => absurd hcreated h
  · intro _
    refine ⟨by simpa using hstart, by simpa using hend, fun j h hj => ?_⟩
    rw [frames_put] at hj
    split_ifs at hj
    exact hframes j h hj
  · simpa using sound.once
  · exact fun h => List.mem_append_left _ (sound.complete h)
  · exact fun h hh => List.mem_append_left _ (sound.returned h hh)

/-- The winner stores its code. -/
theorem Sound.store {tr : List ExitEvent} {s : Process} {i : ThreadId} {c : ExitCode}
    (sound : Sound tr s) (h : s.frames i = .won c) :
    Sound (tr ++ []) ({ s with code := c }.put i (.creating c)) := by
  have hfits := sound.fits i
  rw [h] at hfits
  obtain ⟨hwins, hcreated⟩ := hfits
  obtain ⟨hstart, hend, hframes⟩ := sound.fresh hcreated
  rw [List.append_nil]
  constructor
  · intro j
    rw [frames_put]
    split_ifs with hj
    · subst hj
      exact ⟨hwins, rfl, hcreated⟩
    · have hother := (sound.fits j).mono (e := []) (t := { s with code := c }.put i (.creating c)) id
        (fun x hx => ⟨by rw [List.append_nil, hx], rfl⟩) (fun c' hc' => ?_) (fun _ _ => rfl)
        fun h hh => absurd hh (hframes j h)
      · rwa [List.append_nil] at hother
      · have hj' := sound.fits j
        rw [hc'] at hj'
        have := hj'.1
        rw [hwins] at this
        exact absurd (Prod.mk.inj (List.cons.inj this).1).1.symm hj
  · exact sound.winner
  · exact fun h => absurd hcreated h
  · intro _
    refine ⟨hstart, hend, fun j h hj => ?_⟩
    rw [frames_put] at hj
    split_ifs at hj
    exact hframes j h hj
  · exact sound.once
  · exact sound.complete
  · exact sound.returned

/-- The winner creates the thread. -/
theorem Sound.create {tr : List ExitEvent} {s : Process} {i k : ThreadId} {c : ExitCode}
    (sound : Sound tr s) (h : s.frames i = .creating c) (hk : k ≠ 0) (idle : s.frames k = .outside) :
    Sound (tr ++ []) (({ s with created := s.created + 1 }.put i (.waiting c s.created)).put k
      (.cleanup s.created)) := by
  have hfits := sound.fits i
  rw [h] at hfits
  obtain ⟨hwins, hcode, hcreated⟩ := hfits
  obtain ⟨hstart, hend, hframes⟩ := sound.fresh hcreated
  obtain ⟨howner, -, -⟩ := sound.owner_of_wins hwins
  have hother := sound.fits k
  rw [idle] at hother
  rw [List.append_nil]
  constructor
  · intro j
    rw [frames_put, frames_put]
    split_ifs with hk' hj
    · subst hk'
      refine ⟨hother hk, hstart, fun j' h' hj' => ?_⟩
      rw [frames_put, frames_put] at hj'
      split_ifs at hj' with hk'
      · exact hk'
      · exact absurd hj' (hframes j' h')
    · trivial
    · have hne : ∀ x, wins tr = [x] → x.1 ≠ j := by
        intro x hx hxj
        rw [hwins] at hx
        exact hj (by rw [← hxj, ← (List.cons.inj hx).1])
      have hother := (sound.fits j).mono (e := []) (t := ({ s with created := s.created + 1 }.put i
          (.waiting c s.created)).put k (.cleanup s.created)) id
        (fun x hx => ⟨by rw [List.append_nil, hx], rfl⟩) (fun _ _ => rfl) (fun c' hc' => ?_)
        fun h hh => absurd hh (hframes j h)
      · rwa [List.append_nil] at hother
      · have hj' := sound.fits j
        rcases hc' with hc' | hc' <;> rw [hc'] at hj' <;> exact absurd rfl (hne _ hj'.1)
  · exact sound.winner
  · intro _
    rw [hwins]
    exact congrArg (fun x => [x]) (Prod.ext howner.symm hcode.symm)
  · exact fun h0 => absurd h0 (Nat.succ_ne_zero _)
  · exact sound.once
  · exact sound.complete
  · exact sound.returned

/-- The thread that was created starts the detach. -/
theorem Sound.detach {tr : List ExitEvent} {s : Process} {i : ThreadId} {h : ℕ}
    (sound : Sound tr s) (hi : s.frames i = .cleanup h) :
    Sound (tr ++ [.detaching]) (s.put i (.destructing h)) := by
  have hfits := sound.fits i
  rw [hi] at hfits
  obtain ⟨howner, hstart, honly⟩ := hfits
  have hcreated : s.created ≠ 0 := fun h0 => (sound.fresh h0).2.2 i h hi
  have hwins : wins (tr ++ [.detaching]) = wins tr := by
    rw [wins_append]
    exact List.append_nil _
  constructor
  · intro j
    rw [frames_put]
    split_ifs with hj
    · exact ⟨hj ▸ howner, List.mem_append_right _ (List.mem_singleton.mpr rfl)⟩
    · exact (sound.fits j).mono id (fun x hx => ⟨hwins.trans hx, rfl⟩) (fun _ _ => rfl)
        (fun _ _ => rfl) fun h' hh' => absurd (honly j h' hh') hj
  · rw [hwins]
    rcases sound.winner with h | ⟨hne, c, hwin, hcalled⟩
    · exact .inl h
    · exact .inr ⟨hne, c, hwin, List.mem_append_left _ hcalled⟩
  · rw [hwins]
    exact sound.settled
  · exact fun h0 => absurd h0 hcreated
  · rw [List.count_append, List.count_eq_zero.mpr hstart]
    rfl
  · exact fun h' => List.mem_append_left _ (sound.complete h')
  · exact fun h' hh' => List.mem_append_left _ (sound.returned h' hh')

theorem Sound.flags {tr : List ExitEvent} {s : Process} (sound : Sound tr s) {complete : Bool}
    {returned : List ℕ} (terminated : Bool) (hcomplete : complete = true → .detached ∈ tr)
    (hreturned : ∀ h ∈ returned, .detached ∈ tr) :
    Sound tr { s with complete := complete, returned := returned, terminated := terminated } where
  fits := fun j => by
    have h := (sound.fits j).mono (e := [])
      (t := { s with complete := complete, returned := returned, terminated := terminated })
      id (fun x hx => ⟨by rw [List.append_nil, hx], rfl⟩) (fun _ _ => rfl) (fun _ _ => rfl)
      fun _ _ => ⟨by simp, fun _ _ => id⟩
    rwa [List.append_nil] at h
  winner := sound.winner
  settled := sound.settled
  fresh := sound.fresh
  once := sound.once
  complete := hcomplete
  returned := hreturned

theorem put_self (s : Process) (i : ThreadId) : s.put i (s.frames i) = s := by
  simp [put]

theorem Sound.run {tr ev : List ExitEvent} {s t : Process} {i : ThreadId} (sound : Sound tr s)
    (h : s.run i (s.frames i) = some (t, ev)) : Sound (tr ++ ev) t := by
  have hfits := sound.fits i
  cases hframe : s.frames i with
  | outside | creating | waiting | original =>
    rw [hframe] at h
    cases h
  | entered c =>
    rw [hframe] at h hfits
    obtain ⟨rfl, rfl⟩ := Prod.mk.inj (Option.some.inj h)
    split_ifs with howner
    · exact sound.silent (hfits.2.2 howner) (by simp)
    · exact sound.silent ⟨hfits.1, hfits.2.1⟩ (by simp)
  | claiming c =>
    rw [hframe] at h hfits
    simp only [Process.run] at h
    split_ifs at h with hfree
    · obtain ⟨rfl, rfl⟩ := Prod.mk.inj (Option.some.inj h)
      exact sound.win hfree hfits.1 hfits.2
    · obtain ⟨rfl, rfl⟩ := Prod.mk.inj (Option.some.inj h)
      exact sound.silent trivial (by simp)
  | won c =>
    rw [hframe] at h
    obtain ⟨rfl, rfl⟩ := Prod.mk.inj (Option.some.inj h)
    exact sound.store hframe
  | waited c signaled =>
    rw [hframe] at h hfits
    obtain ⟨rfl, rfl⟩ := Prod.mk.inj (Option.some.inj h)
    split_ifs with hsignaled
    · exact sound.silent (hfits hsignaled) (by simp)
    · exact sound.silent trivial (by simp)
  | polling n =>
    rw [hframe] at h
    obtain ⟨rfl, rfl⟩ := Prod.mk.inj (Option.some.inj h)
    split_ifs <;> exact sound.silent trivial (by simp)
  | checking =>
    rw [hframe] at h
    obtain ⟨rfl, rfl⟩ := Prod.mk.inj (Option.some.inj h)
    split_ifs with hcomplete
    · exact sound.silent (sound.complete hcomplete) (by simp)
    · exact sound.silent trivial (by simp)
  | givingUp =>
    rw [hframe] at h
    obtain ⟨rfl, rfl⟩ := Prod.mk.inj (Option.some.inj h)
    exact sound.silent trivial (by simp)
  | terminating c =>
    rw [hframe] at h
    obtain ⟨rfl, rfl⟩ := Prod.mk.inj (Option.some.inj h)
    have hput := sound.put (i := i) (f := .terminating c) (e := [.terminated c]) trivial (by simp)
      rfl (by simp) (by simp)
    rw [← hframe, put_self] at hput
    exact hput.flags true hput.complete hput.returned
  | leaving =>
    rw [hframe] at h hfits
    obtain ⟨rfl, rfl⟩ := Prod.mk.inj (Option.some.inj h)
    exact sound.silent ⟨hfits, (sound.settled_of_detached hfits).2⟩ (by simp)
  | transferring c =>
    rw [hframe] at h hfits
    obtain ⟨rfl, rfl⟩ := Prod.mk.inj (Option.some.inj h)
    exact sound.put (List.mem_append_left _ hfits.1) (by simp) rfl (by simp) (by simp)
  | cleanup handle =>
    rw [hframe] at h
    obtain ⟨rfl, rfl⟩ := Prod.mk.inj (Option.some.inj h)
    exact sound.detach hframe
  | destructing handle =>
    rw [hframe] at h hfits
    obtain ⟨rfl, rfl⟩ := Prod.mk.inj (Option.some.inj h)
    refine sound.put ⟨hfits.1, by simp⟩ (by simp) rfl (by simp) fun _ h0 => ?_
    exact (sound.fresh h0).1 hfits.2
  | destructed handle =>
    rw [hframe] at h hfits
    obtain ⟨rfl, rfl⟩ := Prod.mk.inj (Option.some.inj h)
    exact (sound.flags s.terminated (fun _ => hfits.2) sound.returned).silent hfits (by simp)
  | published handle =>
    rw [hframe] at h hfits
    obtain ⟨rfl, rfl⟩ := Prod.mk.inj (Option.some.inj h)
    exact (sound.flags s.terminated sound.complete fun _ _ => hfits.2).silent (fun _ => hfits.1)
      (by simp)

/-- Every step keeps what holds. -/
theorem Sound.step {tr ev : List ExitEvent} {s t : Process} {a : Act} (sound : Sound tr s)
    (h : step s a = some (t, ev)) : Sound (tr ++ ev) t := by
  unfold Process.step at h
  split_ifs at h with hterminated
  cases a with
  | call i c =>
    have hfits := sound.fits i
    simp only at h
    split_ifs at h with hcall
    obtain ⟨rfl, rfl⟩ := Prod.mk.inj (Option.some.inj h)
    refine sound.put ⟨by simp, hcall.1, fun howner => List.mem_append_left _ ?_⟩ (by simp) rfl
      (by simp) (by simp)
    cases hframe : s.frames i with
    | outside =>
      rw [hframe] at hfits
      exact absurd howner (hfits hcall.1)
    | original c' =>
      rw [hframe] at hfits
      exact hfits
    | destructing handle =>
      rw [hframe] at hfits
      exact absurd howner hfits.1
    | _ =>
      rw [hframe] at hcall
      cases hcall.2
  | run i => exact sound.run h
  | create i k =>
    simp only at h
    split at h
    · obtain ⟨rfl, rfl⟩ := Prod.mk.inj (Option.some.inj h)
      exact sound.silent trivial (by simp)
    · rename_i c k hframe
      split_ifs at h with hk
      obtain ⟨rfl, rfl⟩ := Prod.mk.inj (Option.some.inj h)
      exact sound.create hframe hk.1 hk.2
    · cases h
  | wait i signaled =>
    simp only at h
    split at h
    · rename_i c handle hframe
      split_ifs at h with hwait
      obtain ⟨rfl, rfl⟩ := Prod.mk.inj (Option.some.inj h)
      exact sound.silent (fun hs => sound.returned handle (hwait hs)) (by simp)
    · cases h
  | back i =>
    simp only at h
    split at h
    · obtain ⟨rfl, rfl⟩ := Prod.mk.inj (Option.some.inj h)
      exact sound.silent trivial (by simp)
    · cases h

/-- Only a thread that is about to transfer calls the original. -/
theorem original_of_step {s t : Process} {a : Act} {ev : List ExitEvent} {i : ThreadId} {c : ExitCode}
    (h : step s a = some (t, ev)) (hev : .original i c ∈ ev) :
    s.frames i = .transferring c ∧ ev = [.original i c] := by
  unfold Process.step at h
  split_ifs at h
  cases a with
  | call j c' =>
    simp only at h
    split_ifs at h
    obtain ⟨-, rfl⟩ := Prod.mk.inj (Option.some.inj h)
    simp at hev
  | run j =>
    have hnext : s.run j (s.frames j) = some (t, ev) := h
    cases hframe : s.frames j with
    | transferring c' =>
      rw [hframe] at hnext
      obtain ⟨-, rfl⟩ := Prod.mk.inj (Option.some.inj hnext)
      obtain ⟨rfl, rfl⟩ : i = j ∧ c = c' := by simpa using hev
      exact ⟨hframe, rfl⟩
    | outside | creating | waiting | original =>
      rw [hframe] at hnext
      cases hnext
    | claiming c' =>
      rw [hframe] at hnext
      simp only [Process.run] at hnext
      split_ifs at hnext <;> obtain ⟨-, rfl⟩ := Prod.mk.inj (Option.some.inj hnext) <;> simp at hev
    | _ =>
      rw [hframe] at hnext
      obtain ⟨-, rfl⟩ := Prod.mk.inj (Option.some.inj hnext)
      simp at hev
  | create j k =>
    simp only at h
    split at h
    · obtain ⟨-, rfl⟩ := Prod.mk.inj (Option.some.inj h)
      cases hev
    · split_ifs at h
      obtain ⟨-, rfl⟩ := Prod.mk.inj (Option.some.inj h)
      cases hev
    · cases h
  | wait j signaled =>
    simp only at h
    split at h
    · split_ifs at h
      obtain ⟨-, rfl⟩ := Prod.mk.inj (Option.some.inj h)
      cases hev
    · cases h
  | back j =>
    simp only at h
    split at h
    · obtain ⟨-, rfl⟩ := Prod.mk.inj (Option.some.inj h)
      cases hev
    · cases h

/-- In every run the CRT detach is started once at most, no thread calls the original before the
detach has returned, and each that does passes the code of the one call that won the
compare-exchange. -/
theorem exit_protocol {tr : List ExitEvent} {s : Process}
    (run : Reaches Process.step always Process.start tr s) :
    tr.count .detaching ≤ 1 ∧
      (∀ a i c b, tr = a ++ .original i c :: b → .detached ∈ a) ∧
      ∀ i c, .original i c ∈ tr → ∃ w, wins tr = [(w, c)] ∧ .called w c ∈ tr := by
  have hsound : ∀ {tr s}, Reaches Process.step always Process.start tr s → Sound tr s :=
    fun run => run.invariant (P := Sound) Sound.start fun _ _ _ _ _ sound _ h => sound.step h
  -- the step that calls the original, and what is known before it
  have hcall : ∀ a i c b, tr = a ++ .original i c :: b →
      .detached ∈ a ∧ ∃ x, wins a = [x] ∧ x.2 = c := by
    intro a i c b htrace
    obtain ⟨tr₁, s₁, act, ev₁, ev₂, s₂, tr₂, run₁, -, hstep, -, rfl, -⟩ := run.split htrace
    obtain ⟨hframe, hev⟩ := original_of_step (i := i) (c := c) hstep (by simp)
    have hnil : ev₁ = [] := by
      have := congrArg List.length hev
      simp only [List.length_append, List.length_cons, List.length_nil] at this
      exact List.length_eq_zero_iff.mp (by omega)
    have hfits := (hsound run₁).fits i
    rw [hframe] at hfits
    rw [hnil, List.append_nil]
    exact ⟨hfits.1, _, hfits.2, rfl⟩
  refine ⟨(hsound run).once, fun a i c b h => (hcall a i c b h).1, fun i c hmem => ?_⟩
  obtain ⟨a, b, htrace⟩ := List.append_of_mem hmem
  obtain ⟨-, x, hx, rfl⟩ := hcall a i c b htrace
  rcases (hsound run).winner with ⟨-, hnone⟩ | ⟨-, c', hwins, hcalled⟩
  · rw [htrace, wins_append, hx] at hnone
    cases hnone
  · have hsame : x = (s.owner, c') := by
      rw [htrace, wins_append, hx] at hwins
      exact (List.cons.inj hwins).1
    rw [hsame]
    exact ⟨s.owner, hwins, hcalled⟩

/-- Thread 1 exits with 7 and thread 2 with 9 while the detach runs on thread 3. Both come to the
original, and thread 1 exits again from within it. -/
def exitTwice : List Act :=
  [.call 1 7, .run 1, .call 2 9, .run 1, .run 1, .create 1 (some 3), .run 3, .run 2, .run 2, .run 2,
    .run 3, .run 3, .run 2, .run 2, .run 2, .run 2, .run 3, .wait 1 true, .run 1, .run 1, .run 1,
    .call 1 5, .run 1, .run 1, .run 1]

theorem exitTwice_trace : (execute Process.step start exitTwice).map Prod.snd =
    some [.called 1 7, .called 2 9, .won 1 7, .detaching, .detached, .original 2 7, .original 1 7,
      .called 1 5, .original 1 7] := by
  decide

theorem exit_protocol_twice : ∃ (tr : List ExitEvent) (s : Process),
    Reaches Process.step always start tr s ∧ .called 2 9 ∈ tr ∧ .original 2 7 ∈ tr ∧
      ∃ w, wins tr = [(w, 7)] ∧ .called w 7 ∈ tr := by
  obtain ⟨⟨s, tr⟩, hrun, rfl⟩ := Option.map_eq_some_iff.mp exitTwice_trace
  have run := reaches_of_run hrun
  exact ⟨_, s, run, by decide, by decide, (exit_protocol run).2.2 2 7 (by decide)⟩

end Process

end IW4x.Win32
