import IW4x.Gdk.Types
import IW4x.Gdk.Queues

/-!
# The pool of asynchronous operations

An operation lives in one of 128 slots. The slot's state word holds a token and, in its low 16
bits, how many holds there are on the slot; the block of the caller names the slot and the token.
The class of operations is a parameter.

The fields `token`, `serial`, `generation` and `ports` of a slot, and `acquired` of the pool, are
not in the source and nothing reads them. They tell which operation a slot belongs to and which
queue was in effect when it was begun.
-/

namespace IW4x.Gdk

abbrev SlotId := Fin 128

instance slots_ne_zero : NeZero 128 := ⟨by decide⟩

/-- The address of an async block of the caller. -/
abbrev BlockId := ℕ

def holdBits : ℕ := 16

def holdMask : ℕ := 2 ^ holdBits - 1

def tokenOf (s : ℕ) : ℕ := s / 2 ^ holdBits

def holdsOf (s : ℕ) : ℕ := s % 2 ^ holdBits

/-- `slot_state`: the shift drops the high bits of a token. -/
def slotState (t h : ℕ) : ℕ := (t * 2 ^ holdBits + h) % 2 ^ 64

/-- One more hold, on the word as a whole. -/
def addHold (s : ℕ) : ℕ := (s + 1) % 2 ^ 64

/-- One hold less, on the word as a whole. -/
def subHold (s : ℕ) : ℕ := (s + (2 ^ 64 - 1)) % 2 ^ 64

structure AsyncBlock where
  queue : Option QueueId
  callback : Option ℕ
  /-- `internal[0]` holds the signature. -/
  signed : Bool
  /-- `internal[1]`. -/
  slot : Option SlotId
  /-- `internal[2]`. -/
  token : ℕ
  deriving DecidableEq, Inhabited

/-- What the slot's held task runs. -/
inductive Work where
  | perform
  | doWork
  | announce
  deriving DecidableEq, Repr

/-- A callback of a port: a task that holds its slot, or a callback of the caller (`adapted`,
`completion` and `posted` of the source). -/
inductive Task where
  | held (r : SlotId) (run : Work)
  | callback (x : ℕ)
  deriving DecidableEq, Inhabited

def Task.slot : Task → Option SlotId
  | .held r _ => some r
  | .callback _ => none

/-- The slot of an operation. -/
structure AsyncState (Op : Type) where
  state : ℕ
  completed : Bool
  status : HResult
  size : ℕ
  retired : Bool
  block : Option BlockId
  queue : Option QueueId
  id : Option ℕ
  /-- `local`. -/
  operation : Option Op
  provider : Option ℕ
  providerContext : ℕ
  token : ℕ
  serial : ℕ
  generation : ℕ
  ports : Option PortId × Option PortId

/-- The pool, the blocks of the callers and the task queues. -/
structure Memory (Op : Type) where
  slots : SlotId → AsyncState Op
  /-- The stack of free slots; the source keeps its top at the end of an array. -/
  free : List SlotId
  used : ℕ
  next : ℕ
  acquired : ℕ
  blocks : BlockId → AsyncBlock
  queues : QueuePool Task

variable {Op : Type}

/-- A slot as the program starts with it. -/
def AsyncState.fresh : AsyncState Op where
  state := 0
  completed := false
  status := pending
  size := 0
  retired := false
  block := none
  queue := none
  id := none
  operation := none
  provider := none
  providerContext := 0
  token := 0
  serial := 0
  generation := 0
  ports := (none, none)

namespace Memory

/-- The memory before the first operation. -/
def start (queues : QueuePool Task) : Memory Op where
  slots := fun _ => .fresh
  free := []
  used := 0
  next := 1
  acquired := 0
  blocks := fun _ => default
  queues := queues

def setSlot (m : Memory Op) (r : SlotId) (s : AsyncState Op) : Memory Op :=
  { m with slots := Function.update m.slots r s }

def setBlock (m : Memory Op) (b : BlockId) (a : AsyncBlock) : Memory Op :=
  { m with blocks := Function.update m.blocks b a }

def withQueues (m : Memory Op) (q : QueuePool Task) : Memory Op := { m with queues := q }

@[simp] theorem setSlot_slots (m : Memory Op) (r : SlotId) (s : AsyncState Op) :
    (m.setSlot r s).slots = Function.update m.slots r s := rfl

@[simp] theorem setSlot_blocks (m : Memory Op) (r : SlotId) (s : AsyncState Op) :
    (m.setSlot r s).blocks = m.blocks := rfl

@[simp] theorem setSlot_queues (m : Memory Op) (r : SlotId) (s : AsyncState Op) :
    (m.setSlot r s).queues = m.queues := rfl

@[simp] theorem setSlot_free (m : Memory Op) (r : SlotId) (s : AsyncState Op) :
    (m.setSlot r s).free = m.free := rfl

@[simp] theorem setSlot_used (m : Memory Op) (r : SlotId) (s : AsyncState Op) :
    (m.setSlot r s).used = m.used := rfl

@[simp] theorem setSlot_acquired (m : Memory Op) (r : SlotId) (s : AsyncState Op) :
    (m.setSlot r s).acquired = m.acquired := rfl

@[simp] theorem withQueues_slots (m : Memory Op) (q : QueuePool Task) :
    (m.withQueues q).slots = m.slots := rfl

@[simp] theorem withQueues_blocks (m : Memory Op) (q : QueuePool Task) :
    (m.withQueues q).blocks = m.blocks := rfl

@[simp] theorem withQueues_queues (m : Memory Op) (q : QueuePool Task) :
    (m.withQueues q).queues = q := rfl

@[simp] theorem withQueues_free (m : Memory Op) (q : QueuePool Task) :
    (m.withQueues q).free = m.free := rfl

@[simp] theorem withQueues_used (m : Memory Op) (q : QueuePool Task) :
    (m.withQueues q).used = m.used := rfl

@[simp] theorem withQueues_acquired (m : Memory Op) (q : QueuePool Task) :
    (m.withQueues q).acquired = m.acquired := rfl

/-- The free slot that `acquire` hands out, and the pool without it. -/
def pick (m : Memory Op) : Option (SlotId × Memory Op) :=
  match m.free with
  | r :: rest => some (r, { m with free := rest })
  | [] =>
    if h : m.used < 128 then some (⟨m.used, h⟩, { m with used := m.used + 1 })
    else none

/-- `acquire`; `none` where the source raises `E_OUTOFMEMORY`. Nobody can reach the slot before its
word is stored, so both critical sections are one step. -/
def acquire (m : Memory Op) (a : BlockId) : Option (SlotId × Memory Op) :=
  match m.pick with
  | none => none
  | some (r, p) =>
    let s := p.slots r
    let b := p.blocks a
    some (r, { p with
      next := (m.next + 1) % 2 ^ 64
      acquired := m.acquired + 1
      slots := Function.update p.slots r { s with
        completed := false
        retired := false
        block := some a
        status := pending
        size := 0
        provider := none
        providerContext := 0
        state := slotState m.next 1
        token := m.next
        serial := m.acquired }
      blocks := Function.update p.blocks a { b with
        signed := true
        slot := some r
        token := m.next } })

/-- `held_state::find` as one step, up to its compare-exchange. -/
def find (m : Memory Op) : Option BlockId → Option SlotId
  | none => none
  | some a =>
    let b := m.blocks a
    if b.signed then
      match b.slot with
      | none => none
      | some r =>
        if b.token ≠ 0 ∧ tokenOf (m.slots r).state = b.token then some r else none
    else none

/-- One more hold on the slot: the compare-exchange of `find`, or the `fetch_add` of `submit`. -/
def hold (m : Memory Op) (r : SlotId) : Memory Op :=
  let s := m.slots r
  m.setSlot r { s with state := addHold s.state }

/-- The `fetch_sub` of `release`. -/
def drop (m : Memory Op) (r : SlotId) : Memory Op :=
  let s := m.slots r
  m.setSlot r { s with state := subHold s.state }

/-- The critical section of `retire` on a slot that is not retired: the block lets go of it. -/
def retireSlot (m : Memory Op) (r : SlotId) : Memory Op :=
  let s := m.slots r
  let p := m.setSlot r { s with retired := true, block := none }
  match s.block with
  | none => p
  | some a =>
    let b := p.blocks a
    p.setBlock a { b with signed := false, slot := none, token := 0 }

/-- What became of `submit`. -/
inductive Submitted (Op : Type) where
  /-- The assertion on the hold count failed. -/
  | contract
  /-- The task was refused and its hold, which was not the last one, given back. -/
  | refused
  /-- The port is immediate: the task runs inside the call. -/
  | immediate (m : Memory Op)
  | accepted (m : Memory Op)

/-- `submit`, for the task `f` of the slot; `alloc` says whether the task could be allocated. -/
def submit (m : Memory Op) (alloc : Bool) (now : ℕ) (r : SlotId) (p : PortId) (delay : ℕ)
    (f : Work) : Submitted Op :=
  let s := (m.slots r).state
  if holdsOf s = 0 ∨ holdsOf s = holdMask then .contract
  else if alloc = false then .refused
  else match (m.queues.owned p).submit now delay (.held r f) with
    | .immediate => .immediate (m.hold r)
    | .accepted t => .accepted ((m.hold r).withQueues (m.queues.setPort p t))
    | .refused => .refused

/-- The critical section of `finish` on a slot that is not completed. -/
def complete (m : Memory Op) (r : SlotId) (hr : HResult) (size : ℕ) : Memory Op :=
  let s := m.slots r
  m.setSlot r { s with status := hr, size := size, completed := true }

/-- The critical section of `dispose`. -/
def strip (m : Memory Op) (r : SlotId) : Memory Op :=
  let s := m.slots r
  m.setSlot r { s with operation := none, provider := none, providerContext := 0 }

/-- The end of `dispose`, under the lock of the pool: the word is cleared and the slot is free. -/
def recycle (m : Memory Op) (r : SlotId) : Memory Op :=
  let s := m.slots r
  { m with
    slots := Function.update m.slots r { s with state := 0, token := 0 }
    free := r :: m.free }

/-- The fields that `begin` and `provider_begin` write after `acquire`. -/
def describe (m : Memory Op) (r : SlotId) (q : QueueId) (id : Option ℕ) (o : Option Op)
    (provider : Option ℕ) (context : ℕ) : Memory Op :=
  let s := m.slots r
  m.setSlot r { s with
    queue := some q
    id := id
    -- `begin` leaves the provider alone and `provider_begin` the operation
    operation := o.or s.operation
    provider := provider.or s.provider
    providerContext := if provider.isSome then context else s.providerContext
    generation := m.queues.generation q
    ports := ((m.queues.made q).work, (m.queues.made q).completion) }

@[simp] theorem hold_used (m : Memory Op) (r : SlotId) : (m.hold r).used = m.used := rfl

@[simp] theorem drop_used (m : Memory Op) (r : SlotId) : (m.drop r).used = m.used := rfl

@[simp] theorem complete_used (m : Memory Op) (r : SlotId) (hr : HResult) (size : ℕ) :
    (m.complete r hr size).used = m.used := rfl

@[simp] theorem strip_used (m : Memory Op) (r : SlotId) : (m.strip r).used = m.used := rfl

@[simp] theorem recycle_used (m : Memory Op) (r : SlotId) : (m.recycle r).used = m.used := rfl

@[simp] theorem retireSlot_used (m : Memory Op) (r : SlotId) :
    (m.retireSlot r).used = m.used := by
  unfold retireSlot
  dsimp only
  split <;> rfl

end Memory

end IW4x.Gdk
