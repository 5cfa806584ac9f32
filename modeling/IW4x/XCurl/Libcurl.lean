import IW4x.Lib.RingBuffer
import IW4x.XCurl.Transfer

/-!
# The handles and what libcurl does with them

The pools of transfers and multi handles, and what the client uses of libcurl: to which multi handle
an easy handle belongs, the messages of finished transfers, and the freedom of `curl_multi_perform`
to call back and to finish whatever it has in hand.
-/

namespace IW4x.XCurl

def capacity : ℕ := 32

/-- What an `easy_handle` names: a transfer of the pool, or the easy handle behind one. -/
inductive Named where
  | transfer (h : Slot)
  | easy (h : Slot)
  deriving DecidableEq

def Named.slot : Named → Slot
  | .transfer h => h
  | .easy h => h

/-- A `CURLMsg`. The only message there is, `CURLMSG_DONE`, is left out. -/
structure Message where
  easyHandle : Named
  result : CurlCode
  deriving DecidableEq

/-- `CURLMcode`, as far as the functions return one of their own. -/
inductive MultiCode where
  | ok
  | badHandle
  | badEasyHandle
  | outOfMemory
  | internalError
  | addedAlready
  deriving DecidableEq, Repr

structure Multi where
  /-- `ours ()`. -/
  ours : Bool := false
  /-- `handle_`: the messages that libcurl has for it. -/
  handle : Option (List (Slot × CurlCode)) := none
  /-- The first `locals_` of `local_`. -/
  locals : List Slot := []
  /-- `answered_`. -/
  answered : ℕ := 0
  messages : RingBuffer Message capacity := ⟨fun _ => ⟨.transfer 0, 0⟩, ⟨0, by decide⟩, 0, by decide⟩
  fits : locals.length ≤ capacity := by simp

/-- Both pools, and the platform that is installed. -/
structure Handles where
  transfers : Slot → Transfer := fun _ => {}
  transferUsed : Slot → Bool := fun _ => false
  multis : MultiSlot → Multi := fun _ => {}
  multiUsed : MultiSlot → Bool := fun _ => false
  installed : Option Destination := none

namespace Handles

variable (s : Handles)

def setTransfer (h : Slot) (t : Transfer) : Handles :=
  { s with transfers := Function.update s.transfers h t }

def setMulti (m : MultiSlot) (n : Multi) : Handles :=
  { s with multis := Function.update s.multis m n }

def setEasy (h : Slot) (e : Option Easy) : Handles :=
  s.setTransfer h { s.transfers h with easy := e }

def setMsglist (m : MultiSlot) (l : List (Slot × CurlCode)) : Handles :=
  s.setMulti m { s.multis m with handle := some l }

/-! ## libcurl -/

/-- `curl_multi_add_handle`. -/
def curlAdd (m : MultiSlot) (h : Slot) : MultiCode × Handles :=
  match (s.multis m).handle with
  | none => (.badHandle, s)
  | some _ =>
    match (s.transfers h).easy with
    | none => (.badEasyHandle, s)
    | some e =>
      if e.multi ≠ none then (.addedAlready, s)
      else (.ok, s.setEasy h (some { multi := some m, alive := true }))

/-- `curl_multi_remove_handle`: a message of the easy handle goes with it. -/
def curlRemove (m : MultiSlot) (h : Slot) : MultiCode × Handles :=
  match (s.multis m).handle with
  | none => (.badHandle, s)
  | some msglist =>
    match (s.transfers h).easy with
    | none => (.badEasyHandle, s)
    | some e =>
      if e.multi = none then (.ok, s)
      else if e.multi ≠ some m then (.badEasyHandle, s)
      else (.ok, (s.setEasy h (some {})).setMsglist m (msglist.eraseP fun msg => msg.1 = h))

def curlEasyCleanup (h : Slot) : Handles :=
  match (s.transfers h).easy with
  | none => s
  | some e =>
    let s := match e.multi with
      | some m => (s.curlRemove m h).2
      | none => s
    s.setEasy h none

/-- `curl_multi_cleanup`: the easy handles that are left belong to no multi handle any more. -/
def curlMultiCleanup (m : MultiSlot) : Handles :=
  let detached : Handles :=
    { s with transfers := fun h =>
        let t := s.transfers h
        if t.easy.bind Easy.multi = some m then { t with easy := some {} } else t }
  detached.setMulti m { s.multis m with handle := none }

/-- Something that `curl_multi_perform` does for an easy handle it has in hand. -/
inductive Work where
  /-- It calls a callback of the easy handle. -/
  | callBack (h : Slot)
  /-- It completes the transfer, and leaves a message. -/
  | finish (h : Slot) (result : CurlCode)
  deriving DecidableEq

end Handles

/-- What a run makes known. -/
inductive Event where
  /-- `xcurl_easy_init` returned the handle. -/
  | opened (h : Slot)
  /-- `xcurl_easy_cleanup` of the handle returned. -/
  | cleaned (h : Slot)
  /-- `multi::add` returned; the transfer is `local_` by then or not. -/
  | added (m : MultiSlot) (h : Slot) (code : MultiCode) (here : Bool)
  | removed (m : MultiSlot) (h : Slot) (code : MultiCode)
  /-- libcurl calls a callback of the transfer. -/
  | calledBack (m : MultiSlot) (h : Slot)
  /-- `deliver` runs for an answer, with these calls. -/
  | delivered (m : MultiSlot) (h : Slot) (calls : List Call)
  /-- `queue` has put the completion into the ring. -/
  | queued (m : MultiSlot) (h : Slot)
  /-- `multi::perform` returned, with `*running`: what libcurl counts and what `answered` counts. -/
  | performed (m : MultiSlot) (alive answered : ℕ)
  /-- `multi::read` returned, with `*left`. -/
  | read (m : MultiSlot) (msg : Option Message) (left : ℕ)
  deriving DecidableEq

namespace Handles

variable (s : Handles)

/-- The easy handle is in libcurl's hands for this multi handle. -/
def Alive (m : MultiSlot) (h : Slot) : Prop :=
  (s.multis m).handle.isSome = true ∧ (s.transfers h).easy = some { multi := some m, alive := true }

instance (m : MultiSlot) (h : Slot) : Decidable (s.Alive m h) := by
  unfold Alive
  infer_instance

/-- One piece of work of `curl_multi_perform`. -/
def curlWork (m : MultiSlot) : Work → Option (Handles × List Event)
  | .callBack h => if s.Alive m h then some (s, [.calledBack m h]) else none
  | .finish h result =>
    if s.Alive m h then
      let msglist := (s.multis m).handle.getD []
      some ((s.setEasy h (some { multi := some m, alive := false })).setMsglist m
        (msglist ++ [(h, result)]), [])
    else none

/-- `curl_multi_perform`, for the work it chooses to do. -/
def curlPerform (m : MultiSlot) : Handles → List Work → Option (Handles × List Event)
  | s, [] => some (s, [])
  | s, w :: work =>
    match s.curlWork m w with
    | none => none
    | some (s, ev) => (curlPerform m s work).map fun last => (last.1, ev ++ last.2)

/-- `curl_multi_info_read`: the message and how many are left, or none. -/
def curlInfoRead (m : MultiSlot) : Option ((Slot × CurlCode) × ℕ) × Handles :=
  match (s.multis m).handle with
  | some (msg :: rest) => (some (msg, rest.length), s.setMsglist m rest)
  | _ => (none, s)

end Handles

end IW4x.XCurl
