import IW4x.Lib.Runs
import IW4x.Lib.Sweep
import IW4x.XCurl.Libcurl

/-!
# Multi handles and the registry

`multi` on top of libcurl, the pools that give out the handles, and a run of the entry points one
after the other, as libcurl's own rules for a multi handle ask for.
-/

namespace IW4x.XCurl

open Sweep

namespace Handles

variable (s : Handles)

/-! ## `multi` -/

/-- `multi::close`. -/
def closeMulti (m : MultiSlot) : Handles :=
  let ls := (s.multis m).locals
  let s := s.setMulti m { s.multis m with
    locals := []
    answered := 0
    messages := { (s.multis m).messages with
      head := ⟨0, by decide⟩
      count := 0
      bounded := Nat.zero_le _ }
    fits := by simp }
  let s := ls.foldl (fun s h => (s.curlRemove m h).2) s
  if (s.multis m).handle.isSome then s.curlMultiCleanup m else s

/-- `multi::open`; `accepts` is whether `curl_multi_init` succeeds. -/
def openMulti (m : MultiSlot) (accepts : Bool) : Bool × Handles :=
  let s := s.closeMulti m
  if accepts then (true, s.setMulti m { s.multis m with handle := some [], ours := true })
  else (false, s)

/-- `multi::add`; `accepts` is whether libcurl accepts the URL that `begin` may set. -/
def add (m : MultiSlot) (h : Slot) (accepts : Bool) : MultiCode × Handles :=
  let (begun, t) := (s.transfers h).begin s.installed accepts
  let s := s.setTransfer h t
  if begun = false then (.internalError, s)
  else if t.here = false then s.curlAdd m h
  else if room : (s.multis m).locals.length = capacity then (.outOfMemory, s)
  else
    (.ok, s.setMulti m { s.multis m with
      locals := (s.multis m).locals ++ [h]
      answered := (s.multis m).locals.length + 1
      fits := by have := (s.multis m).fits; simp; omega })

def remove (m : MultiSlot) (h : Slot) : MultiCode × Handles :=
  if (s.transfers h).here = false then s.curlRemove m h
  else
    let i := (s.multis m).locals.idxOf h
    if found : i < (s.multis m).locals.length then
      (.ok, s.setMulti m { s.multis m with
        locals := swapRemove (s.multis m).locals i
        answered := (swapRemove (s.multis m).locals i).length
        fits := by have := swapRemove_length found; have := (s.multis m).fits; omega })
    else (.ok, s)

def deliver (m : MultiSlot) (h : Slot) : Handles × List Event :=
  let t := s.transfers h
  if t.delivered then (s, [])
  else (s.setTransfer h { t with delivered := true }, [.delivered m h t.deliveries])

/-- The first loop of `answered`. -/
def deliverAll (m : MultiSlot) : Handles → List Slot → Handles × List Event
  | s, [] => (s, [])
  | s, h :: ls =>
    let first := s.deliver m h
    let last := deliverAll m first.1 ls
    (last.1, first.2 ++ last.2)

/-- `queue`, where the transfer is delivered: the ring and the completions it has taken. -/
def queue (m : MultiSlot) (done : RingBuffer Message capacity × List Event) (h : Slot) :
    Option (RingBuffer Message capacity × List Event) :=
  if (s.transfers h).delivered = false then none
  else if room : done.1.count < capacity then
    some (done.1.push ⟨.transfer h, (s.transfers h).outcome⟩ room, done.2 ++ [.queued m h])
  else none

/-- The second loop of `answered`. -/
def queueAll (m : MultiSlot) : List Slot × (RingBuffer Message capacity × List Event) :=
  sweep (s.queue m) (s.multis m).locals.length 0 (s.multis m).locals ((s.multis m).messages, [])

theorem queue_firm (m : MultiSlot) : Firm (s.queue m) := by
  intro done done' a b hrefused haccepted
  simp only [queue] at hrefused haccepted ⊢
  split_ifs at haccepted with hb hroom
  split_ifs at hrefused with ha
  rw [if_pos ha]

theorem queueAll_length (m : MultiSlot) : (s.queueAll m).1.length ≤ capacity := by
  obtain ⟨taken, hperm, -⟩ := sweep_spec (s.queue_firm m) (n := (s.multis m).locals.length) (i := 0)
    (l := (s.multis m).locals) (s := ((s.multis m).messages, [])) (by omega)
  have hlength := hperm.length_eq
  have hfits := (s.multis m).fits
  rw [List.length_append] at hlength
  rw [queueAll]
  omega

/-- `answered`: what it returns is the number of transfers it leaves in the array. -/
def answered (m : MultiSlot) : Handles × List Event :=
  let first := s.deliverAll m (s.multis m).locals
  let s := first.1
  let last := s.queueAll m
  (s.setMulti m { s.multis m with
    locals := last.1
    answered := last.1.length
    messages := last.2.1
    fits := s.queueAll_length m }, first.2 ++ last.2.2)

/-- `multi::perform`, for the work that libcurl chooses to do and the number of transfers it counts. -/
def perform (m : MultiSlot) (work : List Work) (alive : ℕ) : Option (Handles × List Event) :=
  match s.curlPerform m work with
  | none => none
  | some (s, ev) =>
    if (s.multis m).answered ≠ 0 then
      let (s, ev') := s.answered m
      some (s, ev ++ ev' ++ [.performed m alive (s.multis m).locals.length])
    else some (s, ev ++ [.performed m alive 0])

/-- `transfer_of`: the transfer that an easy handle belongs to, if its slot is in use. -/
def transferOf (h : Slot) : Option Slot :=
  if s.transferUsed h ∧ (s.transfers h).easy.isSome then some h else none

/-- `multi::read`: the message it returns, and `*left`. -/
def read (m : MultiSlot) : Option Message × ℕ × Handles :=
  let n := s.multis m
  if n.messages.count ≠ 0 then
    (some (n.messages.get 0), n.messages.pop.count,
      s.setMulti m { n with messages := n.messages.pop })
  else
    match s.curlInfoRead m with
    | (none, s) => (none, 0, s)
    | (some (msg, left), s) =>
      let named := match s.transferOf msg.1 with
        | some h => Named.transfer h
        | none => Named.easy msg.1
      (some ⟨named, msg.2⟩, left, s)

/-! ## The registry -/

/-- `as_transfer`: none for a null pointer, for one outside the pool and for a handle that was
closed. -/
def asTransfer (h : Option Slot) : Option Slot := h.filter fun h => (s.transfers h).ours

def asMulti (m : Option MultiSlot) : Option MultiSlot := m.filter fun m => (s.multis m).ours

/-- `open_transfer`; `accepts` is whether `curl_easy_init` succeeds. -/
def openTransfer (accepts : Bool) : Option Slot × Handles :=
  match (List.finRange 64).find? fun h => !s.transferUsed h with
  | none => (none, s)
  | some h =>
    let s := s.curlEasyCleanup h
    if accepts then
      (some h, { s.setTransfer h Transfer.opened with
        transferUsed := Function.update s.transferUsed h true })
    else (none, s)

def closeTransfer (h : Slot) : Handles :=
  { s.setTransfer h { s.transfers h with ours := false } with
    transferUsed := Function.update s.transferUsed h false }

/-- `open_multi`. -/
def openMultiHandle (accepts : Bool) : Option MultiSlot × Handles :=
  match (List.finRange 8).find? fun m => !s.multiUsed m with
  | none => (none, s)
  | some m =>
    match s.openMulti m accepts with
    | (true, s) => (some m, { s with multiUsed := Function.update s.multiUsed m true })
    | (false, s) => (none, s)

/-- `close_multi`. -/
def closeMultiHandle (m : MultiSlot) : Handles :=
  { s.setMulti m { s.multis m with ours := false } with
    multiUsed := Function.update s.multiUsed m false }

end Handles

/-! ## Runs -/

/-- A call of an entry point, and what libcurl answers where it has a choice. A handle that is no
slot of the pool is `none`. -/
inductive Entry where
  | easyInit (accepts : Bool)
  | easySetopt (h : Option Slot) (o : Setting)
  | easyCleanup (h : Option Slot)
  | multiInit (accepts : Bool)
  | multiAddHandle (m : Option MultiSlot) (h : Option Slot) (accepts : Bool)
  | multiRemoveHandle (m : Option MultiSlot) (h : Option Slot)
  | multiPerform (m : Option MultiSlot) (work : List Handles.Work) (alive : ℕ)
  | multiInfoRead (m : Option MultiSlot)
  | multiCleanup (m : Option MultiSlot)
  /-- `serve_platform_at`. -/
  | servePlatformAt (d : Destination)
  deriving DecidableEq

open Handles in
/-- One call. None is the work of `curl_multi_perform` on a transfer it does not have. -/
def step (s : Handles) : Entry → Option (Handles × List Event)
  | .easyInit accepts =>
    match s.openTransfer accepts with
    | (some h, s) => some (s, [.opened h])
    | (none, s) => some (s, [])
  | .easySetopt h o =>
    match s.asTransfer h with
    | none => some (s, [])
    | some h => some (s.setTransfer h ((s.transfers h).set o), [])
  | .easyCleanup h =>
    match s.asTransfer h with
    | none => some (s, [])
    | some h => some (s.closeTransfer h, [.cleaned h])
  | .multiInit accepts => some ((s.openMultiHandle accepts).2, [])
  | .multiAddHandle m h accepts =>
    match s.asMulti m, s.asTransfer h with
    | some m, some h =>
      let (code, s) := s.add m h accepts
      some (s, [.added m h code (s.transfers h).here])
    | _, _ => some (s, [])
  | .multiRemoveHandle m h =>
    match s.asMulti m, s.asTransfer h with
    | some m, some h =>
      let (code, s) := s.remove m h
      some (s, [.removed m h code])
    | _, _ => some (s, [])
  | .multiPerform m work alive =>
    match s.asMulti m with
    | some m => s.perform m work alive
    | none => some (s, [])
  | .multiInfoRead m =>
    match s.asMulti m with
    | some m =>
      let (msg, left, s) := s.read m
      some (s, [.read m msg left])
    | none => some (s, [])
  | .multiCleanup m =>
    match s.asMulti m with
    | some m => some ((s.closeMulti m).closeMultiHandle m, [])
    | none => some (s, [])
  | .servePlatformAt d => some ({ s with installed := some d }, [])

/-- Before the first call. -/
def start : Handles := {}

end IW4x.XCurl
